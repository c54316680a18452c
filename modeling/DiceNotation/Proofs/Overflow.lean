import DiceNotation.Proofs.Bounds
import DiceNotation.Proofs.ExactRolls

/-!
# Bounds rule out overflow

The ends of a range are cut to the values, so only an end that is the least or the greatest value can have been cut. An
expression is unsaturated if no part of it has such an end and all its dice have sides (`Expr.IsUnsaturated`).

**The roll of an unsaturated expression has a value**, whatever the dice show (`rollTimed_ok_of_isUnsaturated`): by
induction on the expression, the values of the operands are within their bounds, so their exact result, cut to the
values, is within the bounds of the operation, and no number within them was cut (`Range.toInt_clamp_of_mem`).
-/

namespace DiceNotation

/-- Neither end of the range can be a number that was cut. -/
def Range.IsInner (r : Range) : Prop :=
  Int64.minValue < r.lo ∧ r.hi < Int64.maxValue

instance (r : Range) : Decidable r.IsInner :=
  inferInstanceAs (Decidable (_ ∧ _))

theorem Range.toInt_clamp_of_mem {r : Range} {n : Int} (hr : r.IsInner) (h : Value.clamp n ∈ r) :
    (Value.clamp n).toInt = n := by
  have hlo := Int64.lt_iff_toInt_lt.1 (Int64.lt_of_lt_of_le hr.1 h.1)
  have hhi := Int64.lt_iff_toInt_lt.1 (Int64.lt_of_le_of_lt h.2 hr.2)
  have hmin : Int64.minValue.toInt = -0x8000000000000000 := rfl
  have hmax : Int64.maxValue.toInt = 0x7fffffffffffffff := rfl
  rw [Value.toInt_clamp] at hlo hhi ⊢
  omega

theorem Range.fits_of_clamp_mem {r : Range} {n : Int} (hr : r.IsInner) (h : Value.clamp n ∈ r) : Value.Fits n := by
  rw [← toInt_clamp_of_mem hr h]
  exact Value.fits_toInt _

namespace Expr

/-! ## Unsaturated expressions -/

/-- The expression and all its operands, each after its own operands. -/
def parts (e : Expr) : List Expr :=
  e.visits.map (·.node)

theorem parts_binary (op : Operator) (l r : Expr) :
    (binary op l r).parts = l.parts ++ r.parts ++ [binary op l r] := by
  simp [parts, visits, Visit.after]

theorem self_mem_parts (e : Expr) : e ∈ e.parts := by
  cases e <;> simp [parts, visits]

theorem forall_parts_binary {P : Expr → Prop} {op : Operator} {l r : Expr} :
    (∀ s ∈ (binary op l r).parts, P s) ↔ (∀ s ∈ l.parts, P s) ∧ (∀ s ∈ r.parts, P s) ∧ P (binary op l r) := by
  simp only [parts_binary, List.forall_mem_append, List.forall_mem_singleton, and_assoc]

structure IsUnsaturated (e : Expr) : Prop where
  sided : ∀ s ∈ e.parts, s.isSideless = false
  inner : ∀ s ∈ e.parts, s.bounds.IsInner

theorem isUnsaturated_binary {op : Operator} {l r : Expr} (h : (binary op l r).IsUnsaturated) :
    l.IsUnsaturated ∧ r.IsUnsaturated ∧ (binary op l r).bounds.IsInner := by
  obtain ⟨hsl, hsr, -⟩ := forall_parts_binary.1 h.sided
  obtain ⟨hil, hir, hi⟩ := forall_parts_binary.1 h.inner
  exact ⟨⟨hsl, hil⟩, ⟨hsr, hir⟩, hi⟩

theorem IsUnsaturated.inner_self {e : Expr} (h : e.IsUnsaturated) : e.bounds.IsInner :=
  h.inner e e.self_mem_parts

theorem IsUnsaturated.sides_pos {count sides : UInt32} (h : (dice count sides).IsUnsaturated) : 0 < sides := by
  have := h.sided _ (self_mem_parts _)
  exact UInt32.pos_iff_ne_zero.2 (by simpa [isSideless] using this)

end Expr

/-! ## Results -/

theorem Evaluation.join_of_mem {op : Operator} {a b : Evaluation} {l r : Range} (ha : a.value ∈ l) (hb : b.value ∈ r)
    (hinner : (op.bounds l r).IsInner) :
    ∃ v, join op a b = .ok v ∧ v.value.toInt = op.exact a.value.toInt b.value.toInt :=
  ok_of_fits (number_join op a b) (Range.fits_of_clamp_mem hinner (op.clamp_exact_mem ha hb))

theorem AreFaces.ofFaces_ok {count sides : UInt32} {faces : List Nat} (h : AreFaces count.toNat sides faces)
    (hinner : (Expr.dice count sides).bounds.IsInner) :
    ∃ v, Evaluation.ofFaces faces = .ok v ∧ v.value.toInt = Evaluation.total faces := by
  obtain ⟨hlo, hhi⟩ := h.total_mem
  have hmem : Value.clamp (Evaluation.total faces) ∈ (Expr.dice count sides).bounds :=
    Range.clamp_mem (by exact_mod_cast hlo) (by exact_mod_cast hhi)
  exact Evaluation.ok_of_fits (Evaluation.number_ofFaces faces) (Range.fits_of_clamp_mem hinner hmem)

/-! ## Rolls -/

namespace Expr

open Rolling

variable {γ : Type} [WordSource γ]

theorem eval_ok_of_isUnsaturated {e : Expr} (h : e.IsUnsaturated) (g : γ) (polls : Nat) :
    ∃ v g' polls', eval e ⟨g, Timer.never, polls⟩ = (.ok v, (⟨g', Timer.never, polls'⟩ : TimedSource γ)) := by
  induction e generalizing g polls with
  | const v => exact ⟨.ofConst v, g, polls + 1, rfl⟩
  | dice count sides =>
    have hs := h.sides_pos
    obtain ⟨faces, g', polls', hthrow, -⟩ := throwDice_never hs count.toNat 0 [] g (polls + 1)
    obtain ⟨new, hnew, hfaces⟩ := throwDice_ok hs hthrow
    obtain rfl : faces = new := by simpa using hnew
    obtain ⟨v, hv, -⟩ := hfaces.ofFaces_ok h.inner_self
    refine ⟨v, g', polls', ?_⟩
    rw [eval_dice, bind_of_ok (checkTime_never g polls), if_neg (UInt32.pos_iff_ne_zero.1 hs), bind_of_ok hthrow,
      run_liftExcept]
    exact Prod.ext hv rfl
  | binary op l r ihl ihr =>
    obtain ⟨hl, hr, hinner⟩ := isUnsaturated_binary h
    obtain ⟨a, g₁, polls₁, hl⟩ := ihl hl g (polls + 1)
    obtain ⟨b, g₂, polls₂, hr⟩ := ihr hr g₁ polls₁
    obtain ⟨v, hv, -⟩ := Evaluation.join_of_mem (eval_mem_bounds hl) (eval_mem_bounds hr) hinner
    refine ⟨v, g₂, polls₂, ?_⟩
    rw [eval, bind_of_ok (checkTime_never g polls), bind_of_ok hl, bind_of_ok hr, run_liftExcept, hv]

/-- **Bounds that are no extreme values rule out overflow.** If the bounds of no part of the expression reach the least
or the greatest value and all its dice have sides, every roll whose time is never up has a value. -/
theorem rollTimed_ok_of_isUnsaturated {e : Expr} (h : e.IsUnsaturated) {timer : Nat → Bool}
    (htimer : ∀ k, timer k = false) (g : γ) : ∃ v, (e.rollTimed timer g).1 = .ok v := by
  obtain rfl : timer = Timer.never := funext htimer
  obtain ⟨v, g', polls, heval⟩ := eval_ok_of_isUnsaturated h g 0
  refine ⟨v, ?_⟩
  rw [rollTimed, heval]

/-- `(2d6 - 7) * 1844674407370955160 / (1d3 - 2)`: the product comes close to both extreme values, and the divisor can
be -1, 0 or 1. -/
def nearExtremes : Expr :=
  .binary .div
    (.binary .mul (.binary .sub (.dice 2 6) (.const 7)) (.const 1844674407370955160))
    (.binary .sub (.dice 1 3) (.const 2))

theorem nearExtremes_roll_ok :
    nearExtremes.bounds = ⟨-9223372036854775800, 9223372036854775800⟩ ∧
      ∃ v, (nearExtremes.rollTimed Timer.never (Cycle.ofList [0, 0xffffffffffffffff])).1 = .ok v := by
  have h : nearExtremes.IsUnsaturated := ⟨by decide, by decide +kernel⟩
  exact ⟨by decide +kernel, rollTimed_ok_of_isUnsaturated h (fun _ => rfl) (Cycle.ofList [0, 0xffffffffffffffff])⟩

end Expr

end DiceNotation
