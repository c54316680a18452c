import Mathlib.Control.Monad.Basic
import DiceNotation.Proofs.Traces

/-!
# Rolls read back from their traces

`Trace.faceGroups` reads the numbers in the brackets of a text. Words other than groups have no brackets, so of a trace
it gives the faces of each dice term, in the order of the terms (`Trace.faceGroups_fillIn`). `Expr.deal` hands faces out
to the dice terms in that order, and `Expr.settle` puts the sum of its group in place of each dice term.

**A trace is the printed expression with the faces of its dice** (`Expr.rollTimed_trace`). If there was no division by
zero it tells the whole roll: which faces were thrown for which term, and with them the value.
-/

namespace DiceNotation

open Text

namespace Trace

/-! ## Bracket groups -/

/-- What stands behind each opening bracket, up to the next closing one. -/
def insideBrackets : List Char → List (List Char)
  | [] => []
  | c :: cs => if c = '[' then cs.takeWhile (· ≠ ']') :: insideBrackets cs else insideBrackets cs

/-- The numbers between the commas. -/
def numbers (inside : List Char) : List Nat :=
  if inside = [] then [] else ((inside.filter (· ≠ ' ')).splitOn ',').map numeralValue

/-- The faces that the brackets of a trace list, group by group. -/
def faceGroups (text : List Char) : List (List Nat) :=
  (insideBrackets text).map numbers

theorem listed_cons (n : Nat) {faces : List Nat} (h : faces ≠ []) :
    listed (n :: faces) = Nat.toDigits 10 n ++ [',', ' '] ++ listed faces := by
  have hmap : faces.map (Nat.toDigits 10) ≠ [] := by simpa using h
  rw [listed, List.map_cons, List.intercalate_cons_of_ne_nil hmap]
  rfl

theorem listed_ne_nil {faces : List Nat} (h : faces ≠ []) : listed faces ≠ [] := by
  cases faces with
  | nil => exact absurd rfl h
  | cons n faces =>
    by_cases h : faces = []
    · subst h
      simp [listed, Nat.toDigits_ne_nil]
    · rw [listed_cons n h]
      simp

theorem filter_listed (faces : List Nat) :
    (listed faces).filter (· ≠ ' ') = [','].intercalate (faces.map (Nat.toDigits 10)) := by
  induction faces with
  | nil => rfl
  | cons n faces ih =>
    have hdigits : (Nat.toDigits 10 n).filter (· ≠ ' ') = Nat.toDigits 10 n := by
      refine List.filter_eq_self.2 ?_
      intro c hc
      have := isPlain_of_mem_toDigits c hc
      simp only [IsPlain, List.mem_cons, not_or] at this
      simp [this]
    by_cases h : faces = []
    · subst h
      simpa [listed] using hdigits
    · have hmap : faces.map (Nat.toDigits 10) ≠ [] := by simpa using h
      rw [listed_cons n h, List.filter_append, List.filter_append, hdigits, ih, List.map_cons,
        List.intercalate_cons_of_ne_nil hmap]
      rfl

theorem numbers_listed (faces : List Nat) : numbers (listed faces) = faces := by
  by_cases h : faces = []
  · subst h
    rfl
  · have hmap : faces.map (Nat.toDigits 10) ≠ [] := by simpa using h
    have hne : listed faces ≠ [] := listed_ne_nil h
    have hread : numeralValue ∘ Nat.toDigits 10 = id := funext numeralValue_toDigits
    have hcomma : ∀ w ∈ faces.map (Nat.toDigits 10), ',' ∉ w := by
      intro w hw hcomma
      obtain ⟨n, -, rfl⟩ := List.mem_map.1 hw
      have : Char.isDigit ',' = true := Nat.isDigit_of_mem_toDigits (by decide) (by decide) hcomma
      cases this
    rw [numbers, if_neg hne, filter_listed, List.splitOn_intercalate ',' hcomma hmap, List.map_map, hread, List.map_id]

theorem insideBrackets_append {cs : List Char} (h : '[' ∉ cs) (more : List Char) :
    insideBrackets (cs ++ more) = insideBrackets more := by
  induction cs with
  | nil => rfl
  | cons c cs ih =>
    obtain ⟨hc, hcs⟩ := List.ne_and_not_mem_of_not_mem_cons h
    rw [List.cons_append, insideBrackets, if_neg hc.symm, ih hcs]

theorem faceGroups_append {cs : List Char} (h : '[' ∉ cs) (more : List Char) :
    faceGroups (cs ++ more) = faceGroups more := by
  rw [faceGroups, insideBrackets_append h, faceGroups]

theorem faceGroups_group (faces : List Nat) (more : List Char) :
    faceGroups (group faces ++ more) = faces :: faceGroups more := by
  have hgroup : group faces ++ more = '[' :: (listed faces ++ ']' :: more) := by
    simp [group]
  have hopening : '[' ∉ listed faces := by
    intro h
    have := mem_listed h
    revert this
    decide
  have hclosing : ∀ c ∈ listed faces, decide (c ≠ ']') = true := by
    intro c hc
    have := mem_listed hc
    rw [decide_eq_true_iff]
    rintro rfl
    revert this
    decide
  have htake : (listed faces ++ ']' :: more).takeWhile (· ≠ ']') = listed faces := by
    rw [List.takeWhile_append_of_pos hclosing]
    simp
  have hskip : insideBrackets (']' :: more) = insideBrackets more := rfl
  rw [hgroup, faceGroups, insideBrackets, if_pos rfl, htake, insideBrackets_append hopening, hskip, List.map_cons,
    numbers_listed, faceGroups]

end Trace

/-! ## Faces by dice terms -/

namespace Expr

/-- How many dice each dice term has, from left to right. -/
def counts : Expr → List Nat
  | const _ => []
  | dice count _ => [count.toNat]
  | binary _ l r => l.counts ++ r.counts

/-- The faces that each dice term gets of these, from left to right. -/
def deal : Expr → List Nat → List (List Nat)
  | const _, _ => []
  | dice count _, faces => [faces.take count.toNat]
  | binary _ l r, faces => l.deal faces ++ r.deal (faces.drop l.diceCount)

/-- The expression with the sum of its group in place of each dice term. -/
def settle : Expr → List (List Nat) → Expr
  | const value, _ => const value
  | dice _ _, groups => const (.ofInt (Evaluation.total (groups.headD [])))
  | binary op l r, groups => binary op (l.settle groups) (r.settle (groups.drop l.counts.length))

theorem length_deal (e : Expr) (faces : List Nat) : (e.deal faces).length = e.counts.length := by
  induction e generalizing faces with
  | const | dice => rfl
  | binary op l r ihl ihr => rw [deal, counts, List.length_append, List.length_append, ihl, ihr]

theorem flatten_deal (e : Expr) (faces : List Nat) : (e.deal faces).flatten = faces.take e.diceCount := by
  induction e generalizing faces with
  | const => simp [deal, diceCount]
  | dice => simp [deal, diceCount]
  | binary op l r ihl ihr => rw [deal, diceCount, List.flatten_append, ihl, ihr, List.take_add]

theorem map_length_deal {e : Expr} {faces : List Nat} (h : e.diceCount ≤ faces.length) :
    (e.deal faces).map List.length = e.counts := by
  induction e generalizing faces with
  | const => rfl
  | dice count sides =>
    have h : count.toNat ≤ faces.length := h
    simp [deal, counts, h]
  | binary op l r ihl ihr =>
    have h : l.diceCount + r.diceCount ≤ faces.length := h
    have hl : l.diceCount ≤ faces.length := by omega
    have hr : r.diceCount ≤ (faces.drop l.diceCount).length := by rw [List.length_drop]; omega
    rw [deal, counts, List.map_append, ihl hl, ihr hr]

end Expr

/-- The brackets of a trace list the faces of each dice term. -/
theorem Trace.faceGroups_fillIn (e : Expr) (faces : List Nat) (more : List Char) :
    faceGroups (unwords (fillIn e.words faces) ++ more) = e.deal faces ++ faceGroups more := by
  induction e generalizing faces more with
  | const value =>
    have hplain : '[' ∉ (toString value.toInt).toList := by
      intro h
      exact isPlain_of_mem_int _ h (by simp)
    rw [Expr.words, fillIn_cons_of_not_mem (notMem_int_of_isAlpha rfl _), fillIn, unwords_singleton,
      faceGroups_append hplain]
    rfl
  | dice count sides =>
    rw [Expr.words, fillIn_cons_dice, fillIn, unwords_singleton, faceGroups_group]
    rfl
  | binary op l r ihl ihr =>
    have hplain : '[' ∉ [' ', op.symbol, ' '] := by
      cases op <;> decide
    have hl : fillIn l.words faces ≠ [] := fillIn_ne_nil l.words_ne_nil faces
    have hr : fillIn r.words (faces.drop l.diceCount) ≠ [] := fillIn_ne_nil r.words_ne_nil _
    rw [fillIn_binary, unwords_between hl hr, List.append_assoc, List.append_assoc, ihl, faceGroups_append hplain, ihr,
      Expr.deal, List.append_assoc]

/-! ## Replays -/

open Rolling

variable {γ : Type} [WordSource γ]

theorem Evaluation.join_of_value {op : Operator} {a b v : Evaluation} (h : join op a b = .ok v) (s t : String) :
    ∃ trace, join op ⟨a.value, s⟩ ⟨b.value, t⟩ = .ok ⟨v.value, trace⟩ := by
  have hnumber := number_join op ⟨a.value, s⟩ ⟨b.value, t⟩
  rw [← value_of_join h] at hnumber
  exact ok_of_number hnumber

/-- With the sums of its groups in place of its dice, an expression has its value again and throws nothing. -/
theorem Outcome.eval_settle {e : Expr} {faces : List Nat} {v : Evaluation} (h : Outcome e faces v) (more : List Nat)
    (groups : List (List Nat)) (g : γ) (polls : Nat) :
    ∃ trace polls', (e.settle (e.deal (faces ++ more) ++ groups)).eval ⟨g, Timer.never, polls⟩ =
      (.ok ⟨v.value, trace⟩, (⟨g, Timer.never, polls'⟩ : TimedSource γ)) := by
  induction h generalizing more groups polls with
  | const value => exact ⟨_, polls + 1, rfl⟩
  | @dice count sides faces v hlength hv =>
    have hvalue : v.value = .ofInt (Evaluation.total faces) := by
      rw [← Evaluation.value_of_ofFaces hv, Int64.ofInt_toInt]
    rw [Expr.deal, Expr.settle, List.take_left' hlength, hvalue]
    exact ⟨_, polls + 1, rfl⟩
  | @binary op l r fs gs a b v hl hr hv ihl ihr =>
    rw [Expr.deal, Expr.settle, List.append_assoc, ← l.length_deal, List.drop_left, List.append_assoc, hl.drop_append]
    obtain ⟨s, polls₁, hl⟩ := ihl (gs ++ more) (r.deal (gs ++ more) ++ groups) (polls + 1)
    obtain ⟨t, polls₂, hr⟩ := ihr more groups polls₁
    obtain ⟨trace, hjoin⟩ := Evaluation.join_of_value hv s t
    refine ⟨trace, polls₂, ?_⟩
    rw [Expr.eval, bind_of_ok (checkTime_never g polls), bind_of_ok hl, bind_of_ok hr, run_liftExcept, hjoin]

namespace Expr

open Trace

/-- **A trace is the printed expression with the faces of its dice**, of which those of each outermost division by zero
are hidden together with its operands. If there is none, the groups of the trace are the faces that were thrown, as many
for each term as it has dice, and the expression with their sums in place of its dice has the value of the roll. -/
theorem rollTimed_trace {timer : Nat → Bool} {e : Expr} {g : γ} {v : Evaluation}
    (h : (e.rollTimed timer g).1 = .ok v) :
    v.trace.toList = unwords (e.hideZeroDivisions (e.facesThrown timer g)
      (fillIn (Trace.words e.render) (e.facesThrown timer g))) ∧
    ((∀ x ∈ e.visits, x.isZeroDivision (e.facesThrown timer g) = false) →
      v.trace.toList = unwords (fillIn (Trace.words e.render) (e.facesThrown timer g)) ∧
      (faceGroups v.trace.toList).flatten = e.facesThrown timer g ∧
      (faceGroups v.trace.toList).map List.length = e.counts ∧
      ∀ (δ : Type) [WordSource δ] (g' : δ),
        ∃ trace, (e.settle (faceGroups v.trace.toList)).roll g' = (.ok ⟨v.value, trace⟩, g')) := by
  have houtcome := rollTimed_outcome h
  have hlength := houtcome.length_eq
  have htrace := houtcome.trace_eq []
  rw [List.append_nil] at htrace
  rw [words_render]
  refine ⟨htrace, ?_⟩
  intro hzero
  rw [hideZeroDivisions_eq_self hzero] at htrace
  have hgroups : faceGroups v.trace.toList = e.deal (e.facesThrown timer g) := by
    have := faceGroups_fillIn e (e.facesThrown timer g) []
    rw [List.append_nil, ← htrace] at this
    rw [this]
    exact List.append_nil _
  rw [hgroups]
  refine ⟨htrace, ?_, map_length_deal (Nat.le_of_eq hlength.symm), ?_⟩
  · rw [flatten_deal, List.take_of_length_le (Nat.le_of_eq hlength)]
  · intro δ _ g'
    obtain ⟨trace, polls, heval⟩ := houtcome.eval_settle [] [] g' 0
    rw [List.append_nil, List.append_nil] at heval
    refine ⟨trace, ?_⟩
    rw [roll, rollTimed, heval]

/-- `(2d6 - (0d4 + (-7))) * 1d20`. -/
def groupedProduct : Expr :=
  .binary .mul (.binary .sub (.dice 2 6) (.binary .add (.dice 0 4) (.const (-7)))) (.dice 1 20)

/-- `1d6 + 1d4 / 0 / (1d1 - 1)`: of the two divisions by zero the first is inside the second. -/
def nestedQuotient : Expr :=
  .binary .add (.dice 1 6) (.binary .div (.binary .div (.dice 1 4) (.const 0)) (.binary .sub (.dice 1 1) (.const 1)))

/-- Of three dice the first shows its greatest face, the second its least and the third the one above the middle. -/
def spreadWords : Cycle :=
  Cycle.ofList [0xffffffffffffffff, 0, 0x8000000000000000]

theorem groupedProduct_trace :
    (∃ v, (groupedProduct.rollTimed Timer.never spreadWords).1 = .ok v ∧
      v.trace.toList = "[6, 1] - [] + -7 * [11]".toList ∧
      (faceGroups v.trace.toList).flatten = [6, 1, 11] ∧ (faceGroups v.trace.toList).map List.length = [2, 0, 1] ∧
      ∃ trace, (groupedProduct.settle (faceGroups v.trace.toList)).roll (Cycle.ofList []) =
        (.ok ⟨154, trace⟩, Cycle.ofList [])) ∧
    ∃ v, (nestedQuotient.rollTimed Timer.never spreadWords).1 = .ok v ∧
      v.trace.toList = "[6] + ERROR: DIVIDE BY ZERO".toList := by
  have hproduct : (groupedProduct.rollTimed Timer.never spreadWords).1 = .ok ⟨154, "[6, 1] - [] + -7 * [11]"⟩ := by
    decide +kernel
  have hquotient : (nestedQuotient.rollTimed Timer.never spreadWords).1 = .ok ⟨6, "[6] + ERROR: DIVIDE BY ZERO"⟩ := by
    decide +kernel
  have hfaces : groupedProduct.facesThrown Timer.never spreadWords = [6, 1, 11] := by decide +kernel
  obtain ⟨-, hshown⟩ := rollTimed_trace hproduct
  obtain ⟨htrace, hflatten, hlengths, hvalue⟩ := hshown (by decide +kernel)
  obtain ⟨hhidden, -⟩ := rollTimed_trace hquotient
  refine ⟨⟨_, hproduct, ?_, ?_, hlengths, hvalue Cycle (Cycle.ofList [])⟩, _, hquotient, ?_⟩
  · rw [htrace]
  · rw [hflatten, hfaces]
  · rw [hhidden]

end Expr

end DiceNotation
