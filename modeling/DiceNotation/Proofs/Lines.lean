import DiceNotation.Text.Lines

/-!
# What the lines of a text are

`Lines text ls` says what the lines are without saying how they are found: each line but the last is ended by a line
feed, one carriage return right before it belongs to the ending, and no line has a line feed in it. Every text has such
lines and only these (`lines_eq_iff`).
-/

namespace DiceNotation.Text

variable {α : Type} [DecidableEq α] {lf cr : α} {text rest cs : List α} {ls : List (List α)}

/-- The text consists of these lines. -/
inductive Lines (lf cr : α) : List α → List (List α) → Prop
  | last {cs : List α} : lf ∉ cs → Lines lf cr cs [cs]
  | ended {cs rest : List α} {ls : List (List α)} :
      lf ∉ cs → cs.getLast? ≠ some cr → Lines lf cr rest ls → Lines lf cr (cs ++ lf :: rest) (cs :: ls)
  | returned {cs rest : List α} {ls : List (List α)} :
      lf ∉ cs → Lines lf cr rest ls → Lines lf cr (cs ++ cr :: lf :: rest) (cs :: ls)

/-! ## Finding them -/

theorem linesAfter_of_notMem (h : lf ∉ cs) (pending : List α) :
    linesAfter lf cr pending cs = [pending.reverse ++ cs] := by
  induction cs generalizing pending with
  | nil => simp [linesAfter]
  | cons c cs ih =>
    have hc : c ≠ lf := (List.ne_of_not_mem_cons h).symm
    rw [linesAfter, if_neg hc, ih (List.not_mem_of_not_mem_cons h), List.reverse_cons, List.append_assoc,
      List.singleton_append]

theorem linesAfter_append (h : lf ∉ cs) (pending rest : List α) :
    linesAfter lf cr pending (cs ++ lf :: rest) = endedLine cr (cs.reverse ++ pending) :: linesAfter lf cr [] rest := by
  induction cs generalizing pending with
  | nil => rw [List.nil_append, linesAfter, if_pos rfl, List.reverse_nil, List.nil_append]
  | cons c cs ih =>
    have hc : c ≠ lf := (List.ne_of_not_mem_cons h).symm
    rw [List.cons_append, linesAfter, if_neg hc, ih (List.not_mem_of_not_mem_cons h), List.reverse_cons,
      List.append_assoc, List.singleton_append]

theorem endedLine_reverse (h : cs.getLast? ≠ some cr) : endedLine cr cs.reverse = cs := by
  cases hcs : cs.reverse with
  | nil =>
    obtain rfl := List.reverse_eq_nil_iff.1 hcs
    rfl
  | cons c ds =>
    have hc : c ≠ cr := by
      rintro rfl
      rw [← List.head?_reverse, hcs] at h
      exact h rfl
    rw [endedLine, if_neg hc, ← hcs, List.reverse_reverse]

theorem lines_of_notMem (h : lf ∉ cs) : lines lf cr cs = [cs] :=
  linesAfter_of_notMem h []

theorem lines_ended (h : lf ∉ cs) (hcr : cs.getLast? ≠ some cr) (rest : List α) :
    lines lf cr (cs ++ lf :: rest) = cs :: lines lf cr rest := by
  rw [lines, linesAfter_append h, List.append_nil, endedLine_reverse hcr]
  rfl

theorem lines_returned (hne : cr ≠ lf) (h : lf ∉ cs) (rest : List α) :
    lines lf cr (cs ++ cr :: lf :: rest) = cs :: lines lf cr rest := by
  have hcr : lf ∉ cs ++ [cr] := by simp [h, Ne.symm hne]
  have hcut : cs ++ cr :: lf :: rest = (cs ++ [cr]) ++ lf :: rest := by simp
  rw [hcut, lines, linesAfter_append hcr]
  simp [endedLine, lines]

/-! ## All lines -/

theorem lines_linesAfter (lf cr : α) {pending : List α} (h : lf ∉ pending) (text : List α) :
    Lines lf cr (pending.reverse ++ text) (linesAfter lf cr pending text) := by
  have hreverse : ∀ {cs : List α}, lf ∉ cs → lf ∉ cs.reverse := by simp
  induction text generalizing pending with
  | nil =>
    rw [List.append_nil]
    exact .last (hreverse h)
  | cons c text ih =>
    by_cases hc : c = lf
    · subst hc
      have hrest := ih List.not_mem_nil
      rw [linesAfter, if_pos rfl]
      cases pending with
      | nil =>
        have hlast : ([] : List α).getLast? ≠ some cr := by simp
        exact .ended List.not_mem_nil hlast hrest
      | cons d pending =>
        by_cases hd : d = cr
        · subst hd
          rw [endedLine, if_pos rfl, List.reverse_cons, List.append_assoc, List.singleton_append]
          exact .returned (hreverse (List.not_mem_of_not_mem_cons h)) hrest
        · rw [endedLine, if_neg hd]
          exact .ended (hreverse h) (by simpa using hd) hrest
    · have hpending : lf ∉ c :: pending := by simp [Ne.symm hc, h]
      have htext := ih hpending
      rw [List.reverse_cons, List.append_assoc, List.singleton_append] at htext
      rw [linesAfter, if_neg hc]
      exact htext

/-- **The lines that are found are those that the text consists of.** -/
theorem lines_eq_iff (hne : cr ≠ lf) : lines lf cr text = ls ↔ Lines lf cr text ls := by
  constructor
  · rintro rfl
    exact lines_linesAfter lf cr List.not_mem_nil text
  · intro h
    induction h with
    | last hcs => exact lines_of_notMem hcs
    | ended hcs hcr _ ih => rw [lines_ended hcs hcr, ih]
    | returned hcs _ ih => rw [lines_returned hne hcs, ih]

end DiceNotation.Text
