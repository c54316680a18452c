import Mathlib.Algebra.GroupWithZero.Nat
import DiceNotation.Proofs.Bounds
import DiceNotation.Proofs.ExactRolls
import DiceNotation.Proofs.OperandErrors
import DiceNotation.Proofs.Printing
import DiceNotation.Roll.Text

/-!
# How the roll of a text ends

A text that can not be read is answered by what is wrong with it. The expression of any other text has sides on all its
dice (`Derives.isReadable`) and as many dice as the dice tokens of the text say (`Spells.sum_dice`), at most as many as
the limits allow. The faces of so few dice always have a sum that is a value, so in the expression **only an operation
can fail** (`Visit.exists_operation`).

`rollText_ends` puts the stages together, for every text and every source.
-/

namespace DiceNotation

/-! ## The dice of a text -/

/-- The count of a dice token; other tokens have no dice. -/
def Token.dice (t : Token) : Nat :=
  if t.kind = .dice then t.diceCount else 0

namespace Grammar

theorem Operand.dice_eq {t : Token} {e : Expr} (h : Operand t e) : t.dice = e.diceCount := by
  cases h with
  | const hk _ _ => simp [Token.dice, hk, Expr.diceCount]
  | dice hk htext hn _ hcount _ _ => rw [Token.dice, if_pos hk, Token.diceCount_eq htext hn, hcount]; rfl

theorem dice_of_kind_ne {t : Token} (h : t.kind ≠ .dice) : t.dice = 0 := by
  simp [Token.dice, h]

/-- The dice tokens of an expression say how many dice it has. -/
theorem Spells.sum_dice {n : Nonterminal} {ts : List Token} {e : Expr} (h : Spells n ts e) :
    (ts.map Token.dice).sum = e.diceCount := by
  induction h with
  | leaf ht => simpa using ht.dice_eq
  | group ho _ hc ih =>
    have ho := dice_of_kind_ne (by rw [Parser.State.kind_of_isOpening ho]; decide)
    have hc := dice_of_kind_ne (by rw [Parser.State.kind_of_isClosing hc]; decide)
    simp [ho, hc, ih]
  | factor _ ih | expr _ ih => exact ih
  | multiply _ ht _ ihl ihr | add _ ht _ ihl ihr =>
    have ht := dice_of_kind_ne (by rw [ht.1]; decide)
    simp [ht, ihl, ihr, Expr.diceCount]

end Grammar

/-! ## Nodes that can fail -/

/-- A face is a 32-bit word. -/
theorem Die.Shows.lt {γ : Type} [WordSource γ] {ss : List UInt32} {ns : List Nat} {g g' : γ} (h : Shows ss g ns g') :
    ∀ n ∈ ns, n < 0x100000000 := by
  induction h with
  | nil => simp
  | @cons sides _ n _ _ _ _ _ hn _ ih =>
    intro m hm
    rcases List.mem_cons.1 hm with rfl | hm
    · have := sides.toNat_lt
      omega
    · exact ih m hm

theorem Evaluation.total_le {faces : List Nat} (h : ∀ n ∈ faces, n < 0x100000000) :
    total faces ≤ faces.length * 0xffffffff := by
  induction faces with
  | nil => simp
  | cons n ns ih =>
    have hn := h n List.mem_cons_self
    have hns := ih fun m hm => h m (List.mem_cons_of_mem _ hm)
    rw [total_cons, List.length_cons, Nat.add_mul]
    omega

theorem Expr.isReadable_of_mem_visits {e : Expr} (he : e.IsReadable) : ∀ x ∈ e.visits, x.node.IsReadable := by
  induction e with
  | const | dice => simpa [visits] using he
  | binary op l r ihl ihr =>
    intro x hx
    simp only [visits, List.mem_append, List.mem_map, List.mem_singleton] at hx
    rcases hx with (hx | ⟨y, hy, rfl⟩) | rfl
    · exact ihl he.1 x hx
    · exact ihr he.2 y hy
    · exact he

/-- In an expression that can be read, with few dice, only an operation can fail. -/
theorem Visit.exists_operation {e : Expr} {x : Visit} {faces : List Nat} {error : EvalError} (he : e.IsReadable)
    (hdice : e.diceCount ≤ 10000) (hfaces : ∀ n ∈ faces, n < 0x100000000) (hx : x ∈ e.visits)
    (h : x.failure? faces = some error) : error = .overflow ∧ ∃ op l r, x.node = .binary op l r := by
  have hnode := Expr.isReadable_of_mem_visits he x hx
  have hcount := Expr.visit_le hx
  rcases x with ⟨node, offset⟩
  unfold failure? at h
  cases node with
  | const v =>
    have hfits : Value.Fits ((Expr.const v).exactValue (faces.drop offset)) := Value.fits_toInt v
    simp [Expr.isSideless, hfits] at h
  | dice count sides =>
    have hnode : sides ≠ 0 := hnode
    have hsides : (Expr.dice count sides).isSideless = false := by simpa [Expr.isSideless] using hnode
    have htotal : Evaluation.total ((faces.drop offset).take count.toNat) ≤ 10000 * 0xffffffff := by
      have hbelow : ∀ n ∈ (faces.drop offset).take count.toNat, n < 0x100000000 := by
        intro n hn
        exact hfaces n (List.mem_of_mem_drop (List.mem_of_mem_take hn))
      have hle := Evaluation.total_le hbelow
      have hlength := List.length_take_le count.toNat (faces.drop offset)
      have hdice : count.toNat ≤ 10000 := Nat.le_trans (Nat.le_trans (Nat.le_add_left _ _) hcount) hdice
      exact Nat.le_trans hle (Nat.mul_le_mul_right _ (Nat.le_trans hlength hdice))
    have hfits : Value.Fits ((Expr.dice count sides).exactValue (faces.drop offset)) := by
      unfold Value.Fits Expr.exactValue
      omega
    simp [hsides, hfits] at h
  | binary op l r =>
    have hsides : (Expr.binary op l r).isSideless = false := rfl
    simp only [hsides, Bool.false_eq_true, ↓reduceIte] at h
    split at h
    · cases h
    · exact ⟨(Option.some.inj h).symm, op, l, r, rfl⟩

/-! ## Rolls of texts -/

variable {γ : Type} [WordSource γ]

theorem Expr.roll_of_isReadable {e : Expr} (he : e.IsReadable) (hdice : e.diceCount ≤ 10000) (g : γ) :
    (∀ x ∈ e.visits, ∀ error, x.failure? (e.facesThrown Timer.never g) = some error →
      error = .overflow ∧ ∃ op l r, x.node = .binary op l r) ∧
    ((∃ v, (e.roll g).1 = .ok v) ∧ (e.facesThrown Timer.never g).length = e.diceCount ∨
      (e.roll g).1 = .error .overflow ∧ e.Ends (e.facesThrown Timer.never g) (.error .overflow) ∧
        (e.facesThrown Timer.never g).length ≤ e.diceCount) := by
  obtain ⟨hshows, hends⟩ := e.roll_ends_facesThrown g
  have hfailure : ∀ x ∈ e.visits, ∀ error, x.failure? (e.facesThrown Timer.never g) = some error →
      error = .overflow ∧ ∃ op l r, x.node = .binary op l r := fun x hx error h =>
    Visit.exists_operation he hdice hshows.lt hx h
  refine ⟨hfailure, ?_⟩
  cases hresult : (e.roll g).1 with
  | ok v =>
    rw [hresult] at hends
    exact .inl ⟨⟨v, rfl⟩, hends.length_eq⟩
  | error error =>
    rw [hresult] at hends
    have hends : e.Ends (e.facesThrown Timer.never g) (.error error) := hends
    cases hends with
    | @failure before after x _ hvisits hbefore hx hlength =>
      have hmem : x ∈ e.visits := by simp [hvisits]
      obtain ⟨rfl, -⟩ := hfailure x hmem error hx
      refine .inr ⟨rfl, .failure hvisits hbefore hx hlength, ?_⟩
      rw [hlength]
      exact Expr.visit_le hmem

/-- **How the roll of a text ends.** If the text can not be read, with what is wrong with it and nothing drawn from the
source. Otherwise it throws the dice of its expression from left to right, at most 10000, and ends with a value after as
many dice as the text has, or with an overflow. Only an operation can fail: neither a constant nor a dice term does. -/
theorem rollText_ends (text : String) (g : γ) :
    (∀ error, (rollText text g).1 = .error (.read error) ↔ Expr.read {} text = .error error) ∧
    (∀ error, Expr.read {} text = .error error → (rollText text g).2 = g) ∧
    ∀ e, Expr.read {} text = .ok e →
      Die.Shows (e.diceList.take (e.facesThrown Timer.never g).length) g (e.facesThrown Timer.never g)
        (rollText text g).2 ∧
      (e.facesThrown Timer.never g).length ≤ 10000 ∧
      (∀ x ∈ e.visits, ∀ error, x.failure? (e.facesThrown Timer.never g) = some error →
        error = .overflow ∧ ∃ op l r, x.node = .binary op l r) ∧
      ((∃ v, (rollText text g).1 = .ok v) ∧
          (∃ ts, Token.tokenize text = .ok ts ∧ (e.facesThrown Timer.never g).length = (ts.map Token.dice).sum) ∨
        (rollText text g).1 = .error (.evaluation .overflow) ∧
          e.Ends (e.facesThrown Timer.never g) (.error .overflow)) := by
  refine ⟨?_, ?_, ?_⟩
  · intro error
    unfold rollText
    cases hread : Expr.read {} text with
    | error error' => simp
    | ok e =>
      cases hroll : (e.roll g).1 <;> simp [hroll, Except.mapError]
  · intro error hread
    rw [rollText, hread]
  · intro e hread
    obtain ⟨ts, hts, hparse⟩ := Expr.read_eq_ok_iff.1 hread
    obtain ⟨hspells, -, hsaturated⟩ := Parser.spells_of_parse hparse
    have hdice : e.diceCount ≤ 10000 := by
      unfold Parser.saturate at hsaturated
      simp at hsaturated
      omega
    have hroll : rollText text g = ((e.roll g).1.mapError .evaluation, (e.roll g).2) := by rw [rollText, hread]
    obtain ⟨hshows, -⟩ := e.roll_ends_facesThrown g
    obtain ⟨hfailure, hends⟩ := Expr.roll_of_isReadable hspells.isReadable hdice g
    rw [hroll]
    rcases hends with ⟨⟨v, hv⟩, hlength⟩ | ⟨herror, hends, hlength⟩
    · refine ⟨hshows, by omega, hfailure, .inl ⟨⟨v, by rw [hv]; rfl⟩, ts, hts, ?_⟩⟩
      rw [hlength, Grammar.Spells.sum_dice hspells]
    · exact ⟨hshows, by omega, hfailure, .inr ⟨by rw [herror]; rfl, hends⟩⟩

end DiceNotation
