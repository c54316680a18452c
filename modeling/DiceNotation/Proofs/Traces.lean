import DiceNotation.Expr.Render
import DiceNotation.Proofs.Lexing
import DiceNotation.Proofs.Outcomes

/-!
# Traces as printed expressions

The printed expression, its parentheses left out, is cut at its blanks into words, one for each operand and one for each
operator (`Trace.words_render`). `Trace.fillIn` puts the faces of a roll in place of the dice terms, from left to right,
and `Expr.hideZeroDivisions` one word in place of all words of an outermost division by zero.

**What comes out is the trace of every outcome on these faces** (`Outcome.trace_eq`): printing and evaluating go through
the expression in the same order, so an induction on the outcome takes both apart at the operator. The faces that stand
behind those of an operand change nothing in it, which carries the induction from the left operand to the right.
-/

namespace DiceNotation

open Text

namespace Trace

/-! ## Words -/

/-- The text without its parentheses. -/
def bare (text : String) : List Char :=
  text.toList.filter fun c => c ≠ '(' ∧ c ≠ ')'

/-- What stands between the blanks of the text without parentheses. -/
def words (text : String) : List (List Char) :=
  (bare text).splitOn ' '

def unwords (ws : List (List Char)) : List Char :=
  [' '].intercalate ws

/-- The faces with commas between them. -/
def listed (faces : List Nat) : List Char :=
  [',', ' '].intercalate (faces.map (Nat.toDigits 10))

/-- How the faces of a dice term are shown. -/
def group (faces : List Nat) : List Char :=
  '[' :: (listed faces ++ [']'])

/-- The words with the next `N` faces in place of each dice term `NdM`, from left to right. -/
def fillIn : List (List Char) → List Nat → List (List Char)
  | [], _ => []
  | w :: ws, faces =>
    match Token.dice? w with
    | some (count, _) => group (faces.take (numeralValue count)) :: fillIn ws (faces.drop (numeralValue count))
    | none => w :: fillIn ws faces

theorem unwords_singleton (w : List Char) : unwords [w] = w := by
  rw [unwords, List.intercalate_singleton]

theorem unwords_cons (w : List Char) {ws : List (List Char)} (h : ws ≠ []) :
    unwords (w :: ws) = w ++ ' ' :: unwords ws := by
  rw [unwords, List.intercalate_cons_of_ne_nil h, List.append_assoc]
  rfl

theorem unwords_append {ws us : List (List Char)} (hws : ws ≠ []) (hus : us ≠ []) :
    unwords (ws ++ us) = unwords ws ++ ' ' :: unwords us := by
  induction ws with
  | nil => exact absurd rfl hws
  | cons w ws ih =>
    by_cases h : ws = []
    · subst h
      rw [List.singleton_append, unwords_cons w hus, unwords_singleton]
    · rw [List.cons_append, unwords_cons w (List.append_ne_nil_of_left_ne_nil h us), ih h, unwords_cons w h,
        List.append_assoc, List.cons_append]

/-- An operator between two operands. -/
theorem unwords_between {ws us : List (List Char)} (hws : ws ≠ []) (hus : us ≠ []) (c : Char) :
    unwords (ws ++ [c] :: us) = unwords ws ++ [' ', c, ' '] ++ unwords us := by
  rw [unwords_append hws (List.cons_ne_nil _ _), unwords_cons _ hus, List.append_assoc]
  rfl

theorem length_fillIn (ws : List (List Char)) (faces : List Nat) : (fillIn ws faces).length = ws.length := by
  induction ws generalizing faces with
  | nil => rfl
  | cons w ws ih =>
    unfold fillIn
    split <;> simp [ih]

theorem fillIn_ne_nil {ws : List (List Char)} (h : ws ≠ []) (faces : List Nat) : fillIn ws faces ≠ [] := by
  intro hnil
  have := length_fillIn ws faces
  rw [hnil] at this
  exact h (List.length_eq_zero_iff.1 this.symm)

theorem fillIn_cons_of_not_mem {w : List Char} (h : 'd' ∉ w) (ws : List (List Char)) (faces : List Nat) :
    fillIn (w :: ws) faces = w :: fillIn ws faces := by
  have hnone : Token.dice? w = none := by
    rw [Option.eq_none_iff_forall_ne_some]
    rintro ⟨count, sides⟩ hdice
    obtain ⟨rfl, -⟩ := Token.dice?_eq_some_iff.1 hdice
    exact h (by simp)
  rw [fillIn, hnone]

theorem fillIn_cons_dice (count sides : Nat) (ws : List (List Char)) (faces : List Nat) :
    fillIn ((Nat.toDigits 10 count ++ 'd' :: Nat.toDigits 10 sides) :: ws) faces =
      group (faces.take count) :: fillIn ws (faces.drop count) := by
  have hdice := Token.dice?_eq_some_iff.2
    ⟨rfl, (isNumeral_iff.1 (isNumeral_toDigits count)).2, isNumeral_toDigits sides⟩
  rw [fillIn, hdice]
  simp only [numeralValue_toDigits]

/-! ## Characters of words -/

/-- A character of a word of a printed expression: no blank, no parenthesis and no bracket. -/
def IsPlain (c : Char) : Prop :=
  c ∉ ['(', ')', ' ', '[', ']']

theorem isPlain_of_isDigit {c : Char} (h : c.isDigit = true) : IsPlain c := by
  intro hc
  have hmarks : ['(', ')', ' ', '[', ']'].all (fun c => !c.isDigit) = true := by decide
  have := List.all_eq_true.1 hmarks c hc
  rw [h] at this
  cases this

theorem isPlain_symbol (op : Operator) : IsPlain op.symbol := by
  cases op <;> simp [IsPlain, Operator.symbol]

theorem isPlain_of_mem_toDigits {n : Nat} : ∀ c ∈ Nat.toDigits 10 n, IsPlain c :=
  fun c hc => isPlain_of_isDigit (Nat.isDigit_of_mem_toDigits (by decide) (by decide) hc)

/-- An integer is written in digits, after a minus sign if it is negative. -/
theorem isDigit_or_minus_of_mem_int {n : Int} {c : Char} (hc : c ∈ (toString n).toList) :
    c.isDigit = true ∨ c = '-' := by
  cases n with
  | ofNat n =>
    have hc : c ∈ n.repr.toList := hc
    rw [Nat.toList_repr] at hc
    exact .inl (Nat.isDigit_of_mem_toDigits (by decide) (by decide) hc)
  | negSucc n =>
    have hc : c ∈ ("-" ++ (n + 1).repr).toList := hc
    rw [String.toList_append, Nat.toList_repr] at hc
    rcases List.mem_append.1 hc with hc | hc
    · exact .inr (List.mem_singleton.1 hc)
    · exact .inl (Nat.isDigit_of_mem_toDigits (by decide) (by decide) hc)

theorem isPlain_of_mem_int {n : Int} : ∀ c ∈ (toString n).toList, IsPlain c := by
  intro c hc
  rcases isDigit_or_minus_of_mem_int hc with hdigit | rfl
  · exact isPlain_of_isDigit hdigit
  · exact isPlain_symbol .sub

theorem mem_of_mem_intercalate {α : Type} {sep : List α} {xs : List (List α)} {a : α}
    (h : a ∈ sep.intercalate xs) : a ∈ sep ∨ ∃ x ∈ xs, a ∈ x := by
  induction xs with
  | nil => cases h
  | cons x xs ih =>
    by_cases hxs : xs = []
    · subst hxs
      rw [List.intercalate_singleton] at h
      exact .inr ⟨x, List.mem_cons_self, h⟩
    · rw [List.intercalate_cons_of_ne_nil hxs, List.append_assoc] at h
      rcases List.mem_append.1 h with h | h
      · exact .inr ⟨x, List.mem_cons_self, h⟩
      · rcases List.mem_append.1 h with h | h
        · exact .inl h
        · exact (ih h).imp_right fun ⟨y, hy, ha⟩ => ⟨y, List.mem_cons_of_mem _ hy, ha⟩

/-- Faces are listed in digits, commas and blanks. -/
theorem mem_listed {faces : List Nat} {c : Char} (hc : c ∈ listed faces) : c.isDigit = true ∨ c = ',' ∨ c = ' ' := by
  rcases mem_of_mem_intercalate hc with hc | ⟨_, hx, hc⟩
  · exact .inr (by simpa using hc)
  · obtain ⟨n, -, rfl⟩ := List.mem_map.1 hx
    exact .inl (Nat.isDigit_of_mem_toDigits (by decide) (by decide) hc)

theorem isDigit_of_isAlpha {c : Char} (hc : c.isAlpha = true) : c.isDigit = false := by
  have hletter : 65 ≤ c.val := by
    rcases Bool.or_eq_true_iff.1 hc with hupper | hlower
    · exact (of_decide_eq_true hupper).1
    · obtain ⟨hlower, -⟩ := Bool.and_eq_true_iff.1 hlower
      exact UInt32.le_trans (by decide) (of_decide_eq_true hlower)
  rw [← Bool.not_eq_true]
  intro hdigit
  obtain ⟨-, hdigit⟩ := Bool.and_eq_true_iff.1 hdigit
  exact absurd (UInt32.le_trans hletter (of_decide_eq_true hdigit)) (by decide)

/-- No number has a letter. -/
theorem notMem_int_of_isAlpha {c : Char} (hc : c.isAlpha = true) (n : Int) : c ∉ (toString n).toList := by
  intro h
  rcases isDigit_or_minus_of_mem_int h with hdigit | rfl
  · cases (isDigit_of_isAlpha hc).symm.trans hdigit
  · cases hc

theorem notMem_symbol_of_isAlpha {c : Char} (hc : c.isAlpha = true) (op : Operator) : c ∉ [op.symbol] := by
  rw [List.mem_singleton]
  rintro rfl
  cases op <;> cases hc

theorem bare_append (s t : String) : bare (s ++ t) = bare s ++ bare t := by
  rw [bare, String.toList_append, List.filter_append]
  rfl

theorem bare_of_isPlain {text : String} (h : ∀ c ∈ text.toList, IsPlain c) : bare text = text.toList := by
  refine List.filter_eq_self.2 ?_
  intro c hc
  have := h c hc
  simp only [IsPlain, List.mem_cons, not_or] at this
  simp [this]

theorem bare_grouped (needed : Bool) (text : String) : bare (Expr.grouped needed text) = bare text := by
  cases needed with
  | false => rfl
  | true =>
    rw [Expr.grouped, if_pos rfl, bare_append, bare_append]
    simp [bare]

end Trace

/-! ## The words of an expression -/

namespace Expr

open Trace

/-- The operands and operators as they are printed. -/
def words : Expr → List (List Char)
  | const value => [(toString value.toInt).toList]
  | dice count sides => [Nat.toDigits 10 count.toNat ++ 'd' :: Nat.toDigits 10 sides.toNat]
  | binary op l r => l.words ++ [op.symbol] :: r.words

theorem words_ne_nil (e : Expr) : e.words ≠ [] := by
  cases e <;> simp [words]

theorem isPlain_of_mem_words {e : Expr} {w : List Char} (hw : w ∈ e.words) : ∀ c ∈ w, IsPlain c := by
  induction e with
  | const value =>
    cases List.mem_singleton.1 hw
    exact isPlain_of_mem_int
  | dice count sides =>
    cases List.mem_singleton.1 hw
    intro c hc
    rcases List.mem_append.1 hc with hc | hc
    · exact isPlain_of_mem_toDigits c hc
    · rcases List.mem_cons.1 hc with rfl | hc
      · simp [IsPlain]
      · exact isPlain_of_mem_toDigits c hc
  | binary op l r ihl ihr =>
    rcases List.mem_append.1 hw with hw | hw
    · exact ihl hw
    · rcases List.mem_cons.1 hw with rfl | hw
      · simpa using isPlain_symbol op
      · exact ihr hw

theorem bare_render (e : Expr) : bare e.render = unwords e.words := by
  induction e with
  | const value =>
    rw [render, bare_grouped, bare_of_isPlain isPlain_of_mem_int]
    exact (unwords_singleton _).symm
  | dice count sides =>
    have hword : (toString count.toNat ++ "d" ++ toString sides.toNat).toList =
        Nat.toDigits 10 count.toNat ++ 'd' :: Nat.toDigits 10 sides.toNat := by
      simp [Nat.toString_eq_repr, Nat.toList_repr]
    have hmem : (toString count.toNat ++ "d" ++ toString sides.toNat).toList ∈ (dice count sides).words := by
      rw [hword]
      exact List.mem_singleton_self _
    rw [render, bare_of_isPlain (isPlain_of_mem_words hmem), hword]
    exact (unwords_singleton _).symm
  | binary op l r ihl ihr =>
    have hop : bare op.symbol.toString = [op.symbol] := by
      cases op <;> rfl
    have hblank : bare " " = [' '] := rfl
    rw [render]
    simp only [bare_append, bare_grouped, ihl, ihr, hop, hblank]
    rw [words, unwords_between l.words_ne_nil r.words_ne_nil]
    simp

end Expr

namespace Trace

/-- A printed expression is cut into its operands and operators. -/
theorem words_render (e : Expr) : words e.render = e.words := by
  rw [words, e.bare_render]
  refine List.splitOn_intercalate ' ' ?_ e.words_ne_nil
  intro w hw hblank
  exact e.isPlain_of_mem_words hw ' ' hblank (by simp)

theorem fillIn_words (e : Expr) (ws : List (List Char)) (faces : List Nat) :
    fillIn (e.words ++ ws) faces = fillIn e.words faces ++ fillIn ws (faces.drop e.diceCount) := by
  induction e generalizing ws faces with
  | const value =>
    simp only [Expr.words, List.singleton_append, fillIn_cons_of_not_mem (notMem_int_of_isAlpha rfl _)]
    rfl
  | dice count sides =>
    simp only [Expr.words, List.singleton_append, fillIn_cons_dice]
    rfl
  | binary op l r ihl ihr =>
    simp only [Expr.words, List.append_assoc, List.cons_append, ihl,
      fillIn_cons_of_not_mem (notMem_symbol_of_isAlpha rfl op), ihr, Expr.diceCount, List.drop_drop]

theorem fillIn_binary (op : Operator) (l r : Expr) (faces : List Nat) :
    fillIn (Expr.binary op l r).words faces =
      fillIn l.words faces ++ [op.symbol] :: fillIn r.words (faces.drop l.diceCount) := by
  rw [Expr.words, fillIn_words, fillIn_cons_of_not_mem (notMem_symbol_of_isAlpha rfl op)]

end Trace

/-! ## Divisions by zero -/

namespace Expr

open Trace

/-- The number of words of the printed expression. -/
def width (e : Expr) : Nat :=
  (Trace.words e.render).length

/-- The words, which belong to the expression, with one in place of those of each outermost division by zero. -/
def hideZeroDivisions : Expr → List Nat → List (List Char) → List (List Char)
  | binary op l r, faces, ws =>
    if (binary op l r).isZeroDivision faces then [Evaluation.divisionByZero.toList]
    else
      l.hideZeroDivisions faces (ws.take l.width) ++ (ws.drop l.width).take 1 ++
        r.hideZeroDivisions (faces.drop l.diceCount) (ws.drop (l.width + 1))
  | _, _, ws => ws

theorem width_eq (e : Expr) : e.width = e.words.length := by
  rw [width, words_render]

theorem width_binary (op : Operator) (l r : Expr) : (binary op l r).width = l.width + (r.width + 1) := by
  simp only [width_eq, words, List.length_append, List.length_cons]

variable {op : Operator} {l r : Expr} {faces : List Nat} {ws us : List (List Char)}

theorem hideZeroDivisions_ne_nil {e : Expr} (h : ws.length = e.width) : e.hideZeroDivisions faces ws ≠ [] := by
  cases e with
  | const | dice =>
    intro hnil
    cases hnil
    rw [width_eq] at h
    cases h
  | binary op l r =>
    rw [hideZeroDivisions]
    split
    · exact List.cons_ne_nil _ _
    · have hmiddle : (ws.drop l.width).take 1 ≠ [] := by
        intro hnil
        have := congrArg List.length hnil
        rw [List.length_take, List.length_drop, h, width_binary, List.length_nil] at this
        omega
      exact List.append_ne_nil_of_left_ne_nil (List.append_ne_nil_of_right_ne_nil _ hmiddle) _

theorem hideZeroDivisions_between (hzero : (binary op l r).isZeroDivision faces = false) (h : ws.length = l.width)
    (w : List Char) :
    (binary op l r).hideZeroDivisions faces (ws ++ w :: us) =
      l.hideZeroDivisions faces ws ++ w :: r.hideZeroDivisions (faces.drop l.diceCount) us := by
  rw [hideZeroDivisions, hzero, if_neg Bool.false_ne_true, List.take_left' h, List.drop_left' h, ← List.drop_drop,
    List.drop_left' h]
  simp

/-- Without a division by zero nothing is hidden. -/
theorem hideZeroDivisions_eq_self {e : Expr} (h : ∀ x ∈ e.visits, x.isZeroDivision faces = false)
    (ws : List (List Char)) : e.hideZeroDivisions faces ws = ws := by
  induction e generalizing faces ws with
  | const | dice => rfl
  | binary op l r ihl ihr =>
    simp only [visits, List.forall_mem_append, List.forall_mem_map, List.forall_mem_singleton] at h
    obtain ⟨⟨hl, hr⟩, hzero⟩ := h
    have hr : ∀ x ∈ r.visits, x.isZeroDivision (faces.drop l.diceCount) = false := by
      intro x hx
      rw [← Visit.isZeroDivision_after]
      exact hr x hx
    have hzero : (binary op l r).isZeroDivision faces = false := hzero
    rw [hideZeroDivisions, hzero, if_neg Bool.false_ne_true, ihl hl, ihr hr, List.append_assoc, ← List.drop_drop,
      List.take_append_drop, List.take_append_drop]

end Expr

/-! ## Traces of outcomes -/

namespace Evaluation

theorem trace_of_ofFaces {faces : List Nat} {v : Evaluation} (h : ofFaces faces = .ok v) :
    v.trace.toList = Trace.group faces := by
  unfold ofFaces at h
  split at h
  · cases h
    simp [bracketed, Trace.group, Trace.listed, Function.comp_def, Nat.toString_eq_repr, Nat.toList_repr]
  · cases h

theorem trace_of_join {op : Operator} {a b v : Evaluation} (h : join op a b = .ok v) :
    v.trace = if op = .div ∧ b.value = 0 then divisionByZero
      else a.trace ++ " " ++ op.symbol.toString ++ " " ++ b.trace := by
  unfold join at h
  split at h
  · next hzero =>
    cases h
    rw [if_pos hzero]
  · next hzero =>
    rw [if_neg hzero]
    split at h <;> cases h
    rfl

end Evaluation

namespace Outcome

open Trace

variable {e : Expr} {faces : List Nat} {v : Evaluation}

/-- The trace is the printed expression with the faces filled in, whatever faces follow. -/
theorem trace_eq (h : Outcome e faces v) (more : List Nat) :
    v.trace.toList = unwords (e.hideZeroDivisions (faces ++ more) (fillIn e.words (faces ++ more))) := by
  induction h generalizing more with
  | const value =>
    rw [Expr.words, fillIn_cons_of_not_mem (notMem_int_of_isAlpha rfl _)]
    exact (unwords_singleton _).symm
  | @dice count sides faces v hlength hv =>
    rw [Evaluation.trace_of_ofFaces hv, Expr.words, fillIn_cons_dice, List.take_left' hlength]
    exact (unwords_singleton _).symm
  | @binary op l r fs gs a b v hl hr hv ihl ihr =>
    have hzero : (Expr.binary op l r).isZeroDivision (fs ++ gs ++ more) = true ↔ op = .div ∧ b.value = 0 :=
      Expr.isZeroDivision_binary hl hr more
    rw [Evaluation.trace_of_join hv]
    split
    · next h =>
      rw [Expr.hideZeroDivisions, if_pos (hzero.2 h)]
      exact (unwords_singleton _).symm
    · next h =>
      have hzero := Bool.eq_false_iff.2 (mt hzero.1 h)
      have hwidth : (fillIn l.words (fs ++ gs ++ more)).length = l.width := by
        rw [length_fillIn, l.width_eq]
      have hwidth' : (fillIn r.words (gs ++ more)).length = r.width := by
        rw [length_fillIn, r.width_eq]
      have hdrop : (fs ++ gs ++ more).drop l.diceCount = gs ++ more := by
        rw [List.append_assoc, hl.drop_append]
      rw [fillIn_binary, Expr.hideZeroDivisions_between hzero hwidth, hdrop,
        unwords_between (Expr.hideZeroDivisions_ne_nil hwidth) (Expr.hideZeroDivisions_ne_nil hwidth'),
        List.append_assoc fs, ← ihl, ← ihr]
      simp

end Outcome

end DiceNotation
