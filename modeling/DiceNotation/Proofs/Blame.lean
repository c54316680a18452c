import Mathlib.Data.List.NodupEquivFin
import DiceNotation.Proofs.Recovery
import DiceNotation.Proofs.Steps

/-!
# Which tokens are blamed

A step blames its own token at most once (`Steps.blames`), also where it reports the token in place of an operand and
then goes on with it. So the texts that the errors name are those of a part of the tokens, in order
(`run_blames`). An error about a left-over token ends the reading and is the last one (`run_trailing`).

The number of errors is bounded by a potential: each group that is still open stands for one error to come, and a step
adds at most one to the errors and the open groups together (`Steps.length_errors_le`).
-/

namespace DiceNotation

/-- The text of the token that an error names. -/
def ParseError.tokenText? : ParseError → Option String
  | malformedDice text | noSides text | diceOutOfRange text | tooManyDice text _ | numberOutOfRange text
  | unexpectedToken text | trailingToken text => some text
  | _ => none

/-- If the token is an operator by its kind, it is one by its text. -/
def Token.IsNamed (t : Token) : Prop :=
  t.kind = .additive ∨ t.kind = .multiplicative → t.text ∈ ["+", "-", "*", "/"]

instance (t : Token) : Decidable t.IsNamed :=
  inferInstanceAs (Decidable (_ → _))

namespace Parser

open ParseError

variable {limits : Limits} {s s' : State} {t : Token} {ts : List Token} {errors : List ParseError} {read : Option Expr}

/-! ## The tokens that errors name -/

theorem operator_blames {text : String} {op : Option Operator} (h : State.operator text = (errors, op)) :
    errors.filterMap tokenText? = [] := by
  obtain ⟨-, -, rfl, -⟩ | ⟨-, rfl, -⟩ := operator_eq h
  · rfl
  · rfl

theorem unmatched_blames (s : State) : s.unmatched.filterMap tokenText? = [] := by
  refine List.filterMap_eq_nil_iff.2 fun error h => ?_
  rw [eq_of_mem_unmatched h]
  rfl

theorem Yields.blames {dice dice' : Nat} {x : Option Expr} (h : Yields limits t dice errors x dice') :
    (errors.filterMap tokenText?).Sublist [t.text] := by
  obtain ⟨e, rfl, -⟩ | ⟨error, hmem, rfl, -⟩ := h.errors_eq
  · exact List.nil_sublist _
  · have htext : error.tokenText? = none ∨ error.tokenText? = some t.text := by
      simp only [faults, List.mem_cons, List.not_mem_nil, or_false] at hmem
      rcases hmem with rfl | rfl | rfl | rfl | rfl | rfl | rfl <;> simp [tokenText?]
    rcases htext with h | h
    · simp [h]
    · simp [h]

/-- A token that is blamed already is not blamed again. -/
theorem Continues.blames {blamed : Bool} (h : Continues s read blamed t errors s') :
    (errors.filterMap tokenText?).Sublist (if blamed then [] else [t.text]) := by
  cases h with
  | additive _ ho | multiplicative _ ho =>
    rw [operator_blames ho]
    exact List.nil_sublist _
  | closing _ _ => exact List.nil_sublist _
  | last _ _ _ =>
    rw [List.filterMap_append, unmatched_blames, List.nil_append]
    cases blamed with
    | true => exact List.nil_sublist _
    | false => exact List.Sublist.refl _

theorem Steps.blames (h : Steps limits s t errors s') : (errors.filterMap tokenText?).Sublist [t.text] := by
  cases h with
  | operand _ h => exact h.blames
  | operator _ h => exact h.blames
  | misplaced _ _ _ _ h =>
    have hrest := List.sublist_nil.1 h.blames
    simp [tokenText?, hrest]
  | tooDeep _ _ _ | opening _ _ _ | innerOpening _ _ | innerClosing _ _ | skipped _ _ | passed _ _ _ | ignored _ =>
    exact List.nil_sublist _

theorem run_blames (limits : Limits) (s : State) (ts : List Token) :
    ((s.run limits ts).1.filterMap tokenText?).Sublist (ts.map Token.text) := by
  induction ts generalizing s with
  | nil => exact List.Sublist.refl _
  | cons t ts ih =>
    have hstep : ((s.step limits t).1.filterMap tokenText?).Sublist [t.text] := (steps_of_step rfl).blames
    simp only [State.run, List.filterMap_append, List.map_cons]
    exact hstep.append (ih _)

theorem finish_blames (s : State) : s.finish.1.filterMap tokenText? = [] := by
  refine List.filterMap_eq_nil_iff.2 fun error h => ?_
  rcases eq_of_mem_finish h with rfl | rfl
  · rfl
  · rfl

/-! ## Left-over tokens -/

theorem Yields.not_trailing {dice dice' : Nat} {x : Option Expr} (h : Yields limits t dice errors x dice')
    (text : String) : .trailingToken text ∉ errors := by
  obtain ⟨e, rfl, -⟩ | ⟨error, hmem, rfl, -⟩ := h.errors_eq
  · exact List.not_mem_nil
  · rw [List.mem_singleton]
    rintro rfl
    exact trailingToken_not_mem_faults _ _ _ hmem

theorem unmatched_not_trailing (s : State) (text : String) : .trailingToken text ∉ s.unmatched := by
  intro h
  cases eq_of_mem_unmatched h

theorem operator_not_trailing {text : String} {op : Option Operator} (h : State.operator text = (errors, op))
    (text' : String) : .trailingToken text' ∉ errors := by
  obtain ⟨-, -, rfl, -⟩ | ⟨-, rfl, -⟩ := operator_eq h
  · simp
  · simp

theorem Continues.trailing {blamed : Bool} {text : String} (h : Continues s read blamed t errors s')
    (hmem : .trailingToken text ∈ errors) :
    blamed = false ∧ errors = s.unmatched ++ [.trailingToken t.text] ∧ ∃ tree, s'.phase = .done tree := by
  cases h with
  | additive _ ho | multiplicative _ ho => exact absurd hmem (operator_not_trailing ho text)
  | closing _ _ => cases hmem
  | last _ _ _ =>
    cases blamed with
    | true => exact absurd (by simpa using hmem) (unmatched_not_trailing s text)
    | false => exact ⟨rfl, rfl, _, rfl⟩

/-- An error about a left-over token ends the expression. -/
theorem Steps.trailing {text : String} (h : Steps limits s t errors s') (hmem : .trailingToken text ∈ errors) :
    errors = s.unmatched ++ [.trailingToken t.text] ∧ ∃ tree, s'.phase = .done tree := by
  cases h with
  | operand _ h => exact absurd hmem (h.not_trailing text)
  | operator _ h => exact (h.trailing hmem).2
  | misplaced _ _ _ _ h =>
    have hmem : ParseError.trailingToken text ∈ _ := (List.mem_cons.1 hmem).resolve_left (by simp)
    cases (h.trailing hmem).1
  | tooDeep _ _ _ => simp at hmem
  | opening _ _ _ | innerOpening _ _ | innerClosing _ _ | skipped _ _ | passed _ _ _ | ignored _ => cases hmem

theorem finish_not_trailing (s : State) (text : String) : .trailingToken text ∉ s.finish.1 := by
  intro h
  rcases eq_of_mem_finish h with h | h
  · cases h
  · cases h

theorem mem_dropLast_append {α : Type} {a : α} {as bs : List α} (h : a ∈ (as ++ bs).dropLast) :
    a ∈ as ∨ a ∈ bs.dropLast := by
  rw [List.dropLast_append] at h
  split at h
  · exact .inl (List.dropLast_subset _ h)
  · exact List.mem_append.1 h

theorem run_trailing (limits : Limits) (s : State) (ts : List Token) (text : String) :
    .trailingToken text ∉ ((s.run limits ts).1 ++ (s.run limits ts).2.finish.1).dropLast := by
  induction ts generalizing s with
  | nil => exact fun h => finish_not_trailing s text (List.dropLast_subset _ h)
  | cons t ts ih =>
    rcases hstep : s.step limits t with ⟨errors, s'⟩
    simp only [State.run, hstep, List.append_assoc]
    intro hmem
    by_cases htrailing : ∃ text', .trailingToken text' ∈ errors
    · obtain ⟨text', htext'⟩ := htrailing
      obtain ⟨rfl, tree, hp⟩ := (steps_of_step hstep).trailing htext'
      rw [run_done hp, State.finish, hp] at hmem
      exact unmatched_not_trailing s text (by simpa using hmem)
    · rcases mem_dropLast_append hmem with h | h
      · exact htrailing ⟨text, h⟩
      · exact ih s' h

/-! ## The number of errors -/

/-- The groups that are one error each if they are not closed. -/
def State.unclosed (s : State) : Nat :=
  match s.phase with
  | .done _ => 0
  | _ => s.outer.length

theorem Yields.length_errors_le {dice dice' : Nat} {x : Option Expr} (h : Yields limits t dice errors x dice') :
    errors.length ≤ 1 := by
  obtain ⟨e, rfl, -⟩ | ⟨error, -, rfl, -⟩ := h.errors_eq
  · exact Nat.zero_le 1
  · exact Nat.le_refl 1

theorem operator_of_isNamed {op : Option Operator} (ht : t.IsNamed) (hk : t.kind = .additive ∨ t.kind = .multiplicative)
    (h : State.operator t.text = (errors, op)) : errors = [] := by
  have htext := ht hk
  simp only [List.mem_cons, List.not_mem_nil, or_false] at htext
  obtain ⟨-, -, h, -⟩ | ⟨hnone, -, -⟩ := operator_eq h
  · exact h
  · rcases htext with h | h | h | h <;> simp [h, Operator.ofSymbol?] at hnone

theorem Continues.length_errors_le {blamed : Bool} (h : Continues s read blamed t errors s') (ht : t.IsNamed) :
    errors.length + s'.unclosed ≤ s.outer.length + if blamed then 0 else 1 := by
  cases h with
  | additive hk ho =>
    rw [operator_of_isNamed ht (.inl hk) ho]
    simp [State.unclosed]
  | multiplicative hk ho =>
    rw [operator_of_isNamed ht (.inr hk) ho]
    simp [State.unclosed]
  | closing _ houter =>
    simp only [State.unclosed, houter, List.length_nil, List.length_cons]
    omega
  | last _ _ _ => cases blamed <;> simp [State.unclosed, State.unmatched]

/-- A step adds at most one to the errors and the open groups together. -/
theorem Steps.length_errors_le (h : Steps limits s t errors s') (ht : t.IsNamed) :
    errors.length + s'.unclosed ≤ s.unclosed + 1 := by
  cases h with
  | operand hp h =>
    have := h.length_errors_le
    simp only [State.unclosed, hp]
    omega
  | opening hp _ _ => simp [State.unclosed, hp]
  | tooDeep hp _ _ => simp [State.unclosed, hp]; omega
  | misplaced hp _ _ _ h =>
    have := h.length_errors_le ht
    simp [State.unclosed, hp] at this ⊢
    omega
  | operator hp h =>
    have := h.length_errors_le ht
    simp [State.unclosed, hp] at this ⊢
    omega
  | innerOpening hp _ | innerClosing hp _ | skipped hp _ => simp [State.unclosed, hp]
  | passed _ _ _ | ignored _ => simp

theorem run_length_errors_le (limits : Limits) (s : State) (ts : List Token) (hts : ∀ t ∈ ts, t.IsNamed) :
    (s.run limits ts).1.length + (s.run limits ts).2.unclosed ≤ s.unclosed + ts.length := by
  induction ts generalizing s with
  | nil => simp [State.run]
  | cons t ts ih =>
    obtain ⟨ht, hts⟩ := List.forall_mem_cons.1 hts
    rcases hstep : s.step limits t with ⟨errors, s'⟩
    have hfirst := (steps_of_step hstep).length_errors_le ht
    have hrest := ih s' hts
    simp only [State.run, hstep, List.length_append, List.length_cons]
    omega

/-- The end of the input adds one error to those of the open groups. -/
theorem finish_length_le (s : State) : s.finish.1.length ≤ s.unclosed + 1 := by
  cases hp : s.phase <;> simp [State.finish, State.unclosed, State.unmatched, hp]

/-! ## Whole token lists -/

theorem collect_blames (limits : Limits) (ts : List Token) :
    ((collect limits ts).1.filterMap tokenText?).Sublist (ts.map Token.text) := by
  cases ts with
  | nil => exact List.Sublist.refl _
  | cons t ts =>
    rw [collect_of_run (by simp) rfl, List.filterMap_append, finish_blames, List.append_nil]
    exact run_blames limits {} (t :: ts)

theorem collect_trailing (limits : Limits) (ts : List Token) (text : String) :
    .trailingToken text ∉ (collect limits ts).1.dropLast := by
  cases ts with
  | nil => exact List.not_mem_nil
  | cons t ts =>
    rw [collect_of_run (by simp) rfl]
    exact run_trailing limits {} (t :: ts) text

theorem collect_length_le (limits : Limits) (ts : List Token) (hts : ∀ t ∈ ts, t.IsNamed) :
    (collect limits ts).1.length ≤ ts.length + 1 := by
  cases ts with
  | nil => exact Nat.le_refl 1
  | cons t ts =>
    have hrun := run_length_errors_le limits {} (t :: ts) hts
    have hfinish := finish_length_le (State.run limits {} (t :: ts)).2
    have hstart : State.unclosed {} = 0 := rfl
    rw [collect_of_run (by simp) rfl, List.length_append]
    omega

/-- **Every token is blamed at most once and in input order.** The errors that name a token name tokens at ascending
positions, and only the last error of all can be about a left-over token. If the operator tokens are operators, there is
at most one error for each token and one more. -/
theorem collect_blames_in_order (limits : Limits) (ts : List Token) :
    (∃ position : Nat → Nat, StrictMono position ∧
      ∀ j, ((collect limits ts).1.filterMap tokenText?)[j]? = ts[position j]?.map Token.text) ∧
    (∀ text, .trailingToken text ∉ (collect limits ts).1.dropLast) ∧
    ((∀ t ∈ ts, t.IsNamed) → (collect limits ts).1.length ≤ ts.length + 1) := by
  refine ⟨?_, collect_trailing limits ts, collect_length_le limits ts⟩
  obtain ⟨position, hposition⟩ := List.sublist_iff_exists_orderEmbedding_getElem?_eq.1 (collect_blames limits ts)
  refine ⟨position, position.strictMono, fun j => ?_⟩
  rw [hposition j, List.getElem?_map]

/-- The tokens of `(3d0 * + 1 2) 4`. -/
def brokenGroup : List Token :=
  [⟨.paren, "("⟩, ⟨.dice, "3d0"⟩, ⟨.multiplicative, "*"⟩, ⟨.additive, "+"⟩, ⟨.number, "1"⟩, ⟨.number, "2"⟩,
    ⟨.paren, ")"⟩, ⟨.number, "4"⟩]

/-- `3d0`, `+` and `2` are blamed, which are the tokens 1, 3 and 5. -/
theorem brokenGroup_blames :
    (∀ t ∈ brokenGroup, t.IsNamed) ∧
    (collect ⟨1, 10⟩ brokenGroup).1 =
      [.noSides "3d0", .unexpectedToken "+", .unmatchedParenthesis, .trailingToken "2"] ∧
    (∃ position : Nat → Nat, StrictMono position ∧
      ∀ j, ["3d0", "+", "2"][j]? = brokenGroup[position j]?.map Token.text) ∧
    (∀ text, .trailingToken text ∉ (collect ⟨1, 10⟩ brokenGroup).1.dropLast) ∧
    (collect ⟨1, 10⟩ brokenGroup).1.length ≤ brokenGroup.length + 1 := by
  have hnamed : ∀ t ∈ brokenGroup, t.IsNamed := by decide
  have herrors : (collect ⟨1, 10⟩ brokenGroup).1 =
      [.noSides "3d0", .unexpectedToken "+", .unmatchedParenthesis, .trailingToken "2"] := by decide +kernel
  obtain ⟨hposition, htrailing, hlength⟩ := collect_blames_in_order ⟨1, 10⟩ brokenGroup
  rw [herrors] at hposition
  exact ⟨hnamed, herrors, hposition, htrailing, hlength hnamed⟩

end Parser

end DiceNotation
