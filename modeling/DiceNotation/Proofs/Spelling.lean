import DiceNotation.Proofs.Grammar
import DiceNotation.Proofs.Lexing

/-!
# The tokens of an expression

`e.tokens` has the groups that the tree needs and no others. If the constants of `e` are not negative and its dice have
sides, `e.tokens` derives `e` as any nonterminal that binds no tighter than it does (`spells_tokens`), and a group makes
it any other (`spells_grouped`).

A derivation of `e` has a group wherever `e.tokens` has one: by induction on the derivation, **no regular token list
with the tree `e` nests less deeply than `e.tokens`** (`Grammar.Derives.deepest_tokens_le`).
-/

namespace DiceNotation

open Grammar

/-! ## The tokens of an expression -/

namespace Token

def opening : Token :=
  ⟨.paren, "("⟩

def closing : Token :=
  ⟨.paren, ")"⟩

def ofOperator (op : Operator) : Token :=
  ⟨op.kind, op.symbol.toString⟩

def ofNat (n : Nat) : Token :=
  ⟨.number, String.ofList (Nat.toDigits 10 n)⟩

/-- A sign is a token of its own. -/
def ofInt : Int → List Token
  | .ofNat n => [ofNat n]
  | .negSucc n => [ofOperator .sub, ofNat (n + 1)]

def ofDice (count sides : Nat) : Token :=
  ⟨.dice, String.ofList (Nat.toDigits 10 count ++ 'd' :: Nat.toDigits 10 sides)⟩

/-- The tokens of a part, in parentheses if it needs them. -/
def grouped (needed : Bool) (ts : List Token) : List Token :=
  if needed then opening :: (ts ++ [closing]) else ts

end Token

namespace Expr

/-- The tokens that the printed expression writes. -/
def tokens : Expr → List Token
  | const v => Token.grouped (v.toInt < 0) (Token.ofInt v.toInt)
  | dice count sides => [.ofDice count.toNat sides.toNat]
  | binary op l r =>
    Token.grouped (l.level < op.level) l.tokens ++ .ofOperator op :: Token.grouped (r.level ≤ op.level) r.tokens

end Expr

/-! ## Derivations of the tokens -/

namespace Expr

/-- No constant is negative and all dice have sides. -/
def IsReadable : Expr → Prop
  | const v => 0 ≤ v.toInt
  | dice _ sides => sides ≠ 0
  | binary _ l r => l.IsReadable ∧ r.IsReadable

end Expr

namespace Grammar

/-- How tightly a nonterminal binds. -/
def Nonterminal.level : Nonterminal → Nat
  | expr => 1
  | factor => 2
  | primary => 3

theorem Nonterminal.level_le (n : Nonterminal) : n.level ≤ Nonterminal.primary.level := by
  cases n <;> decide

variable {n m : Nonterminal} {ts us : List Token} {e : Expr}

theorem Derives.lift {α : Type} {leaf : Token → α → Prop} {join : α → Operator → α → α} {a : α}
    (h : Derives leaf join n ts a) (hm : m.level ≤ n.level) : Derives leaf join m ts a := by
  cases m with
  | expr =>
    cases n with
    | expr => exact h
    | factor => exact .expr h
    | primary => exact .expr (.factor h)
  | factor =>
    cases n with
    | expr => exact absurd hm (by decide)
    | factor => exact h
    | primary => exact .factor h
  | primary =>
    cases n with
    | expr | factor => exact absurd hm (by decide)
    | primary => exact h

theorem Derives.isReadable (h : Spells n ts e) : e.IsReadable := by
  induction h with
  | leaf h =>
    cases h with
    | const _ _ hv => show 0 ≤ _; omega
    | dice _ _ _ _ _ _ h0 => exact h0
  | group _ _ _ ih | factor _ ih | expr _ ih => exact ih
  | multiply _ _ _ ihl ihr | add _ _ _ ihl ihr => exact ⟨ihl, ihr⟩

end Grammar

namespace Operator

/-- What may stand on the left of an operator. -/
def left : Operator → Nonterminal
  | add | sub => .expr
  | mul | div => .factor

def right : Operator → Nonterminal
  | add | sub => .factor
  | mul | div => .primary

theorem level_left (op : Operator) : op.left.level = op.level := by
  cases op <;> rfl

theorem level_right (op : Operator) : op.right.level = op.level + 1 := by
  cases op <;> rfl

theorem spells (op : Operator) {ts us : List Token} {l r : Expr} (hl : Spells op.left ts l)
    (hr : Spells op.right us r) : Spells op.left (ts ++ .ofOperator op :: us) (.binary op l r) := by
  cases op with
  | add | sub => exact .add hl ⟨rfl, rfl⟩ hr
  | mul | div => exact .multiply hl ⟨rfl, rfl⟩ hr

end Operator

namespace Expr

theorem tokens_binary (op : Operator) (l r : Expr) :
    (binary op l r).tokens = Token.grouped (l.level < op.left.level) l.tokens ++
      .ofOperator op :: Token.grouped (r.level < op.right.level) r.tokens := by
  simp only [tokens, op.level_left, op.level_right, Nat.lt_add_one_iff]

theorem one_le_level (e : Expr) : 1 ≤ e.level := by
  cases e with
  | const | dice => exact (by decide : 1 ≤ 3)
  | binary op => cases op <;> simp [level, Operator.level]

/-- Nothing is grouped where a whole expression may stand. -/
theorem grouped_expr (e : Expr) : Token.grouped (e.level < Nonterminal.expr.level) e.tokens = e.tokens := by
  have : decide (e.level < Nonterminal.expr.level) = false := decide_eq_false (Nat.not_lt_of_le e.one_le_level)
  rw [this]
  rfl

theorem spells_grouped {e : Expr} (h : ∀ {n : Nonterminal}, n.level ≤ e.level → Spells n e.tokens e)
    (n : Nonterminal) : Spells n (Token.grouped (e.level < n.level) e.tokens) e := by
  by_cases hn : e.level < n.level
  · have hexpr : Spells .expr e.tokens e := h (one_le_level e)
    have hgroup : Spells .primary (Token.opening :: (e.tokens ++ [Token.closing])) e := .group rfl hexpr rfl
    simpa [Token.grouped, hn] using hgroup.lift n.level_le
  · simpa [Token.grouped, hn] using h (Nat.le_of_not_lt hn)

theorem tokens_const {v : Value} (h : 0 ≤ v.toInt) : (const v).tokens = [.ofNat v.toInt.toNat] := by
  obtain ⟨k, hk⟩ := Int.eq_ofNat_of_zero_le h
  simp [tokens, hk, Token.grouped, Token.ofInt]

/-- The tokens of a readable expression derive it as anything that binds no tighter. -/
theorem spells_tokens {e : Expr} (he : e.IsReadable) {n : Nonterminal} (hn : n.level ≤ e.level) :
    Spells n e.tokens e := by
  induction e generalizing n with
  | const v =>
    have hleaf : Operand (.ofNat v.toInt.toNat) (.const v) := by
      refine .const rfl ?_ ?_
      · simpa [Token.ofNat] using Text.isNumeral_toDigits v.toInt.toNat
      · rw [Token.ofNat, String.toList_ofList, Text.numeralValue_toDigits]
        exact Int.toNat_of_nonneg he
    rw [tokens_const he]
    exact Derives.lift (.leaf hleaf) n.level_le
  | dice count sides =>
    have hleaf : Operand (.ofDice count.toNat sides.toNat) (.dice count sides) := by
      refine .dice rfl String.toList_ofList (Text.isNumeral_toDigits _) (Text.isNumeral_toDigits _) ?_ ?_ he
      · exact Text.numeralValue_toDigits _
      · exact Text.numeralValue_toDigits _
    exact Derives.lift (.leaf hleaf) n.level_le
  | binary op l r ihl ihr =>
    have hl := spells_grouped (ihl he.1) op.left
    have hr := spells_grouped (ihr he.2) op.right
    have hlevel : n.level ≤ op.left.level := by rw [op.level_left]; exact hn
    rw [tokens_binary]
    exact (op.spells hl hr).lift hlevel

end Expr

/-! ## Nesting -/

namespace Token

theorem IsRegular.kind_eq {t : Token} {kind : Kind} {op : Operator} (h : t.IsRegular) (ht : t.IsOperator kind op) :
    kind = op.kind :=
  ht.1.symm.trans (h op ht.2)

end Token

namespace Grammar

theorem deepest_mono (ts : List Token) {d d' : Nat} (h : d ≤ d') : deepest d ts ≤ deepest d' ts := by
  induction ts generalizing d d' with
  | nil => exact h
  | cons t ts ih =>
    have hnest : nest d t ≤ nest d' t := by
      unfold nest
      split
      · omega
      · split <;> omega
    have := ih hnest
    simp only [deepest]
    omega

theorem deepest_of_kind_ne {t : Token} (h : t.kind ≠ .paren) (d : Nat) : deepest d [t] = d := by
  simp [deepest, nest_of_kind_ne h]

theorem Derives.deepest_grouped (h : Spells n ts e) (d : Nat) :
    deepest d (Token.grouped true ts) = deepest (d + 1) ts :=
  h.deepest_group Operand.kind_ne rfl rfl d

theorem Derives.deepest_grouped_mono (h : Spells n ts e) {p q : Bool} (hpq : p = true → q = true) (d : Nat) :
    deepest d (Token.grouped p ts) ≤ deepest d (Token.grouped q ts) := by
  cases p with
  | true => exact Nat.le_of_eq (by rw [hpq rfl])
  | false =>
    cases q with
    | false => exact Nat.le_refl _
    | true =>
      rw [h.deepest_grouped]
      exact deepest_mono ts (Nat.le_succ d)

/-- A chain prints no deeper than its parts, given that they do not. -/
theorem Derives.deepest_tokens_binary_le {l r : Expr} {t : Token} {kind : Token.Kind} {op : Operator}
    (hl : Spells n ts l) (ht : t.IsOperator kind op) (hk : kind ≠ .paren) (d : Nat)
    (ihl : deepest d (Token.grouped (l.level < op.left.level) l.tokens) ≤ deepest d ts)
    (ihr : deepest d (Token.grouped (r.level < op.right.level) r.tokens) ≤ deepest d us) :
    deepest d (Expr.binary op l r).tokens ≤ deepest d (ts ++ t :: us) := by
  have hleft := Expr.spells_grouped (Expr.spells_tokens hl.isReadable) op.left
  have hop : (Token.ofOperator op).IsOperator op.kind op := ⟨rfl, rfl⟩
  have hkind : op.kind ≠ .paren := by cases op <;> decide
  rw [hl.deepest_chain Operand.kind_ne ht hk, Expr.tokens_binary, hleft.deepest_chain Operand.kind_ne hop hkind]
  omega

theorem Operand.deepest_tokens {t : Token} (h : Operand t e) (n : Nonterminal) (d : Nat) :
    deepest d (Token.grouped (e.level < n.level) e.tokens) = d := by
  have hn := n.level_le
  have hlevel : e.level = Nonterminal.primary.level := by cases h <;> rfl
  have htokens : ∃ t', e.tokens = [t'] ∧ t'.kind ≠ .paren := by
    cases h with
    | const _ _ hv => exact ⟨_, Expr.tokens_const (by omega), by simp [Token.ofNat]⟩
    | dice => exact ⟨_, rfl, by simp [Token.ofDice]⟩
  obtain ⟨t', ht', hkind⟩ := htokens
  have hungrouped : decide (e.level < n.level) = false := decide_eq_false (by omega)
  rw [hungrouped, ht']
  exact deepest_of_kind_ne hkind d

theorem Derives.spells_tokens (h : Spells n ts e) : Spells .expr e.tokens e :=
  Expr.spells_tokens h.isReadable e.one_le_level

theorem Derives.deepest_tokens_anti (h : Spells n ts e) {m k : Nonterminal} (hm : m.level ≤ k.level) (d : Nat) :
    deepest d (Token.grouped (e.level < m.level) e.tokens) ≤ deepest d (Token.grouped (e.level < k.level) e.tokens) :=
  h.spells_tokens.deepest_grouped_mono
    (fun hlt => decide_eq_true (Nat.lt_of_lt_of_le (of_decide_eq_true hlt) hm)) d

/-- Printing a tree takes no deeper parentheses than any regular token list with that tree. -/
theorem Derives.deepest_tokens_le (h : Spells n ts e) (hregular : ∀ t ∈ ts, t.IsRegular) (d : Nat) :
    deepest d (Token.grouped (e.level < n.level) e.tokens) ≤ deepest d ts := by
  induction h generalizing d with
  | leaf h =>
    rw [h.deepest_tokens]
    exact le_deepest d _
  | @group o c ts e ho h hc ih =>
    have ih := ih (fun t ht => hregular t (by simp [ht])) (d + 1)
    have hexpr := h.spells_tokens
    rw [Expr.grouped_expr] at ih
    rw [h.deepest_group Operand.kind_ne ho hc]
    refine Nat.le_trans (hexpr.deepest_grouped_mono (q := true) (fun _ => rfl) d) ?_
    rw [hexpr.deepest_grouped]
    exact ih
  | factor h ih | expr h ih => exact Nat.le_trans (h.deepest_tokens_anti (by decide) d) (ih hregular d)
  -- The kind decides the level of a chain, and on a regular token the operator agrees with it.
  | @multiply ts us t op l r hl ht hr ihl ihr =>
    obtain ⟨hts, hreg, hus⟩ := (List.forall_mem_append.1 hregular).imp_right List.forall_mem_cons.1
    have hkind := hreg.kind_eq ht
    cases op with
    | add | sub => cases hkind
    | mul | div => exact hl.deepest_tokens_binary_le ht (by decide) d (ihl hts d) (ihr hus d)
  | @add ts us t op l r hl ht hr ihl ihr =>
    obtain ⟨hts, hreg, hus⟩ := (List.forall_mem_append.1 hregular).imp_right List.forall_mem_cons.1
    have hkind := hreg.kind_eq ht
    cases op with
    | add | sub => exact hl.deepest_tokens_binary_le ht (by decide) d (ihl hts d) (ihr hus d)
    | mul | div => cases hkind

end Grammar

end DiceNotation
