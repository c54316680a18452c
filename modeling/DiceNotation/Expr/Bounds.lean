import DiceNotation.Expr.Basic

/-!
# Bounds of an expression

`Expr.bounds` is the range of an expression by interval arithmetic, each end cut to the values. Quotients are monotone
in the divisor on either side of zero, so the divisors that matter are the ends of the divisor's range and its members
nearest to zero on each side (`Range.divisors`); a divisor that can be zero adds the quotient zero.
-/

namespace DiceNotation

structure Range where
  lo : Value
  hi : Value
  deriving DecidableEq

namespace Range

instance : Membership Value Range where
  mem r v := r.lo ≤ v ∧ v ≤ r.hi

instance (v : Value) (r : Range) : Decidable (v ∈ r) :=
  inferInstanceAs (Decidable (_ ∧ _))

/-- The least range of values around exact results. -/
def hull : List Int → Range
  | [] => ⟨0, 0⟩
  | n :: ns => ⟨Value.clamp (ns.foldl min n), Value.clamp (ns.foldl max n)⟩

/-- The divisors at which a quotient can be extreme. -/
def divisors (r : Range) : List Int :=
  let lo := r.lo.toInt
  let hi := r.hi.toInt
  ([lo, hi] ++ (if 1 ≤ hi then [max lo 1] else []) ++ (if lo ≤ -1 then [min hi (-1)] else [])).filter (· ≠ 0)

/-- The results at which a quotient of members of `l` and `r` can be extreme. -/
def quotients (l r : Range) : List Int :=
  r.divisors.flatMap (fun d => [l.lo.toInt.tdiv d, l.hi.toInt.tdiv d]) ++ if 0 ∈ r then [0] else []

end Range

/-- The range of the results of an operator on two ranges. -/
def Operator.bounds (op : Operator) (l r : Range) : Range :=
  match op with
  | add => ⟨Value.clamp (l.lo.toInt + r.lo.toInt), Value.clamp (l.hi.toInt + r.hi.toInt)⟩
  | sub => ⟨Value.clamp (l.lo.toInt - r.hi.toInt), Value.clamp (l.hi.toInt - r.lo.toInt)⟩
  | mul =>
    Range.hull [l.lo.toInt * r.lo.toInt, l.lo.toInt * r.hi.toInt, l.hi.toInt * r.lo.toInt, l.hi.toInt * r.hi.toInt]
  | div => Range.hull (l.quotients r)

/-- The range of the values an expression can have. -/
def Expr.bounds : Expr → Range
  | const value => ⟨value, value⟩
  | dice count sides => ⟨Value.clamp count.toNat, Value.clamp (count.toNat * sides.toNat)⟩
  | binary op l r => op.bounds l.bounds r.bounds

end DiceNotation
