import DiceNotation.Expr.Basic
import DiceNotation.Text.Digits

/-!
# The grammar of expressions

An expression is one or more factors joined by additive operators, a factor one or more primaries joined by
multiplicative ones, and a primary is an operand or an expression in parentheses. `Derives leaf join n ts a` says that
the tokens `ts` are an `n` with the value `a`, where the operands have the values that `leaf` allows and `join` builds
the value of an operation. Chains of operators grow to the right of what is there already, so they associate to the
left. Whether an operator is additive or multiplicative is a matter of its token's kind alone, and which operator it is
a matter of the text alone.

`nesting ts` is how deep the parentheses of a token list nest. Derived lists close what they open
(`Derives.foldl_nest`), so the nesting of a chain is the greatest one of its parts (`deepest_append`).
-/

namespace DiceNotation

/-- An operator token of a level, which its kind tells. -/
def Token.IsOperator (kind : Token.Kind) (op : Operator) (t : Token) : Prop :=
  t.kind = kind ∧ t.text = op.symbol.toString

namespace Grammar

/-! ## Derivations -/

inductive Nonterminal where
  | expr
  | factor
  | primary

section

variable {α : Type} (leaf : Token → α → Prop) (join : α → Operator → α → α)

inductive Derives : Nonterminal → List Token → α → Prop
  | leaf {t : Token} {a : α} : leaf t a → Derives .primary [t] a
  | group {o c : Token} {ts : List Token} {a : α} :
      o.isOpening = true → Derives .expr ts a → c.isClosing = true → Derives .primary (o :: (ts ++ [c])) a
  | factor {ts : List Token} {a : α} : Derives .primary ts a → Derives .factor ts a
  | multiply {ts us : List Token} {t : Token} {op : Operator} {a b : α} :
      Derives .factor ts a → t.IsOperator .multiplicative op → Derives .primary us b →
        Derives .factor (ts ++ t :: us) (join a op b)
  | expr {ts : List Token} {a : α} : Derives .factor ts a → Derives .expr ts a
  | add {ts us : List Token} {t : Token} {op : Operator} {a b : α} :
      Derives .expr ts a → t.IsOperator .additive op → Derives .factor us b →
        Derives .expr (ts ++ t :: us) (join a op b)

end

/-- The operands: a numeral that is a value, or the count and the sides of dice, of which there is at least one. -/
inductive Operand : Token → Expr → Prop
  | const {t : Token} {v : Value} :
      t.kind = .number → Text.isNumeral t.text.toList = true → (Text.numeralValue t.text.toList : Int) = v.toInt →
        Operand t (.const v)
  | dice {t : Token} {n m : List Char} {count sides : UInt32} :
      t.kind = .dice → t.text.toList = n ++ 'd' :: m → Text.isNumeral n = true → Text.isNumeral m = true →
        Text.numeralValue n = count.toNat → Text.numeralValue m = sides.toNat → sides ≠ 0 →
          Operand t (.dice count sides)

/-- The tokens are an expression with this tree. -/
abbrev Spells : Nonterminal → List Token → Expr → Prop :=
  Derives Operand fun l op r => .binary op l r

/-! ## Nesting -/

/-- The number of open parentheses after a token, from the number before it. -/
def nest (depth : Nat) (t : Token) : Nat :=
  if t.isOpening then depth + 1 else if t.isClosing then depth - 1 else depth

/-- The greatest number of parentheses that are open at once, when `depth` are open at the start. -/
def deepest (depth : Nat) : List Token → Nat
  | [] => depth
  | t :: ts => max depth (deepest (nest depth t) ts)

def nesting (ts : List Token) : Nat :=
  deepest 0 ts

theorem le_deepest (depth : Nat) (ts : List Token) : depth ≤ deepest depth ts := by
  cases ts with
  | nil => exact Nat.le_refl depth
  | cons t ts => exact Nat.le_max_left _ _

theorem deepest_append (depth : Nat) (ts us : List Token) :
    deepest depth (ts ++ us) = max (deepest depth ts) (deepest (ts.foldl nest depth) us) := by
  induction ts generalizing depth with
  | nil => exact (Nat.max_eq_right (le_deepest depth us)).symm
  | cons t ts ih => simp only [List.cons_append, deepest, List.foldl_cons, ih, Nat.max_assoc]

theorem nest_opening {t : Token} (h : t.isOpening = true) (depth : Nat) : nest depth t = depth + 1 := by
  simp [nest, h]

theorem nest_closing {t : Token} (h : t.isClosing = true) (depth : Nat) : nest depth t = depth - 1 := by
  have : t.isOpening = false := by
    cases ho : t.isOpening with
    | false => rfl
    | true => rw [Token.not_isClosing_of_isOpening ho] at h; cases h
  simp [nest, h, this]

theorem nest_of_kind_ne {t : Token} (h : t.kind ≠ .paren) (depth : Nat) : nest depth t = depth := by
  simp [nest, Token.isOpening, Token.isClosing, h]

theorem nest_operator {kind : Token.Kind} {op : Operator} {t : Token} (h : t.IsOperator kind op) (hk : kind ≠ .paren)
    (depth : Nat) : nest depth t = depth :=
  nest_of_kind_ne (by rw [h.1]; exact hk) depth

theorem Operand.kind_ne {t : Token} {e : Expr} (h : Operand t e) : t.kind ≠ .paren := by
  cases h <;> simp [*]

section Balance

variable {α : Type} {leaf : Token → α → Prop} {join : α → Operator → α → α} {n : Nonterminal} {ts : List Token} {a : α}
  (hleaf : ∀ {t a}, leaf t a → t.kind ≠ .paren)
include hleaf

/-- Derived tokens close what they open. -/
theorem Derives.foldl_nest (h : Derives leaf join n ts a) (depth : Nat) : ts.foldl nest depth = depth := by
  induction h generalizing depth with
  | leaf h => exact nest_of_kind_ne (hleaf h) depth
  | group ho _ hc ih => simp [nest_opening ho, ih, nest_closing hc]
  | factor _ ih | expr _ ih => exact ih depth
  | multiply _ ht _ ihl ihr | add _ ht _ ihl ihr => simp [ihl, ihr, nest_operator ht]

theorem Derives.deepest_group {o c : Token} (h : Derives leaf join n ts a) (ho : o.isOpening = true)
    (hc : c.isClosing = true) (depth : Nat) : deepest depth (o :: (ts ++ [c])) = deepest (depth + 1) ts := by
  have := le_deepest (depth + 1) ts
  simp only [deepest, nest_opening ho, deepest_append, h.foldl_nest hleaf, nest_closing hc]
  omega

theorem Derives.deepest_chain {kind : Token.Kind} {op : Operator} {t : Token} (h : Derives leaf join n ts a)
    (ht : t.IsOperator kind op) (hk : kind ≠ .paren) (us : List Token) (depth : Nat) :
    deepest depth (ts ++ t :: us) = max (deepest depth ts) (deepest depth us) := by
  have := le_deepest depth ts
  simp only [deepest, deepest_append, h.foldl_nest hleaf, nest_operator ht hk]
  omega

end Balance

theorem Derives.ne_nil {α : Type} {leaf : Token → α → Prop} {join : α → Operator → α → α} {n : Nonterminal}
    {ts : List Token} {a : α} (h : Derives leaf join n ts a) : ts ≠ [] := by
  induction h with
  | leaf _ | group _ _ _ | multiply _ _ _ | add _ _ _ => simp
  | factor _ ih | expr _ ih => exact ih

end Grammar

end DiceNotation
