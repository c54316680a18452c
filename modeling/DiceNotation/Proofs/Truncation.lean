import DiceNotation.Proofs.Recovery

/-!
# Input that ends too early

When an accepted list of tokens is cut off, the part before the cut is read without an error and the machine knows what
it still waits for: one closing parenthesis for each open group, and an operand if the last token was an operator or an
opening parenthesis. The number of open groups can be seen from what completes the list, since each closing parenthesis
closes one (`length_outer_of_closings`). So the end of the input reports exactly what is missing (`collect_truncated`).
-/

namespace DiceNotation.Parser

open Grammar State

/-- The token `)`. -/
def closing : Token :=
  ⟨.paren, ")"⟩

variable {limits : Limits} {s s' : State} {t : Token} {ts us : List Token} {m : Nat} {e : Expr}

theorem run_append_eq_nil {last : State} :
    s.run limits (ts ++ us) = ([], last) ↔ ∃ s', s.run limits ts = ([], s') ∧ s'.run limits us = ([], last) := by
  induction ts generalizing s with
  | nil =>
    constructor
    · intro h
      exact ⟨s, rfl, h⟩
    · rintro ⟨s', h, h'⟩
      cases h
      exact h'
  | cons t ts ih =>
    simp only [List.cons_append, run_cons_eq_nil, ih]
    constructor
    · rintro ⟨s₁, ht, s₂, hts, hus⟩
      exact ⟨s₂, ⟨s₁, ht, hts⟩, hus⟩
    · rintro ⟨s₂, ⟨s₁, ht, hts⟩, hus⟩
      exact ⟨s₁, ht, s₂, hts, hus⟩

/-! ## Moves by kind of token -/

theorem Moves.of_closing (h : Moves limits s t s') (ht : t.isClosing = true) :
    (∃ read, s.phase = .operator read) ∧ s.outer.length = s'.outer.length + 1 := by
  have hkind := kind_of_isClosing ht
  cases h with
  | const _ h | dice _ h _ => exact absurd hkind h.kind_ne
  | opening _ h _ => rw [Token.not_isClosing_of_isOpening h] at ht; cases ht
  | additive _ h | multiplicative _ h => rw [h.1] at hkind; cases hkind
  | closing hp _ houter => exact ⟨⟨_, hp⟩, by rw [houter]; rfl⟩

theorem Moves.of_number (h : Moves limits s t s') (ht : t.kind = .number) :
    s.phase = .operand ∧ s'.outer = s.outer := by
  cases h with
  | const hp _ | dice hp _ _ => exact ⟨hp, rfl⟩
  | opening _ h _ => rw [kind_of_isOpening h] at ht; cases ht
  | closing _ h _ => rw [kind_of_isClosing h] at ht; cases ht
  | additive _ h | multiplicative _ h => rw [h.1] at ht; cases ht

/-- Each closing parenthesis closes a group. -/
theorem length_outer_of_closings (hs : s.IsOpen) (h : s.run limits (List.replicate m closing) = ([], s')) :
    s.outer.length = s'.outer.length + m := by
  induction m generalizing s with
  | zero =>
    cases h
    rfl
  | succ m ih =>
    obtain ⟨s₁, hstep, hrun⟩ := run_cons_eq_nil.1 h
    have hm := (step_eq_nil_iff hs).1 hstep
    have := (hm.of_closing rfl).2
    have := ih hm.isOpen_after hrun
    omega

/-! ## What is missing -/

/-- What is known of an accepted list that is cut in two: the first part ends in a state from which the second part
leads on without an error to the end of all groups. -/
theorem exists_state_of_append (h : parse limits (ts ++ us) = .ok e) :
    ∃ s last read, State.run limits {} ts = ([], s) ∧ s.IsOpen ∧ s.run limits us = ([], last) ∧
      last.phase = .operator read ∧ last.outer = [] ∧ last.frame.total read = some e := by
  obtain ⟨-, last, read, hrun, hphase, houter, htotal⟩ := collect_eq_ok.1 (parse_eq_ok.1 h)
  obtain ⟨s, hts, hus⟩ := run_append_eq_nil.1 hrun
  exact ⟨s, last, read, hts, (hasRead_run hts).2.2, hus, hphase, houter, htotal⟩

theorem collect_of_unclosed (h : parse limits (ts ++ List.replicate (m + 1) closing) = .ok e) :
    collect limits ts = (List.replicate (m + 1) .unmatchedParenthesis, none) := by
  obtain ⟨s, last, -, hts, hopen, hrun, -, houter, -⟩ := exists_state_of_append h
  have hlength : s.outer.length = m + 1 := by
    rw [length_outer_of_closings hopen hrun, houter]
    exact Nat.zero_add _
  -- The next token would close a group, so an operand stands before the cut.
  obtain ⟨s₁, hstep, -⟩ := run_cons_eq_nil.1 hrun
  obtain ⟨read, hphase⟩ := (((step_eq_nil_iff hopen).1 hstep).of_closing rfl).1
  have hne : ts ≠ [] := by
    rintro rfl
    cases hts
    cases hphase
  have hsome : s.outer.isEmpty = false := by
    cases hs : s.outer with
    | nil => rw [hs] at hlength; cases hlength
    | cons f fs => rfl
  rw [collect_of_run hne hts]
  simp [finish, hphase, unmatched, tree, hlength, hsome]

theorem collect_of_unfinished (hts : ts ≠ [])
    (h : parse limits (ts ++ ⟨.number, "1"⟩ :: List.replicate m closing) = .ok e) :
    collect limits ts = (.unexpectedEnd :: List.replicate m .unmatchedParenthesis, none) := by
  obtain ⟨s, last, -, hrun, hopen, hus, -, houter, -⟩ := exists_state_of_append h
  obtain ⟨s₁, hstep, hclosings⟩ := run_cons_eq_nil.1 hus
  have hm := (step_eq_nil_iff hopen).1 hstep
  obtain ⟨hphase, houter₁⟩ := hm.of_number rfl
  have hlength : s.outer.length = m := by
    rw [← houter₁, length_outer_of_closings hm.isOpen_after hclosings, houter]
    exact Nat.zero_add _
  rw [collect_of_run hts hrun]
  simp [finish, hphase, unmatched, hlength]

/-- **The end of the input reports what is missing, and nothing else**: one unmatched parenthesis for each closing
parenthesis that would complete the tokens, after an unexpected end if they need an operand first. -/
theorem collect_truncated (limits : Limits) (ts : List Token) (m : Nat) (e : Expr) :
    (parse limits (ts ++ List.replicate m closing) = .ok e →
      collect limits ts = (List.replicate m .unmatchedParenthesis, if m = 0 then some e else none) ∧
        (m = 0 → parse limits ts = .ok e)) ∧
    (ts ≠ [] → parse limits (ts ++ ⟨.number, "1"⟩ :: List.replicate m closing) = .ok e →
      collect limits ts = (.unexpectedEnd :: List.replicate m .unmatchedParenthesis, none)) := by
  refine ⟨fun h => ?_, collect_of_unfinished⟩
  cases m with
  | zero =>
    rw [List.replicate_zero, List.append_nil] at h
    exact ⟨parse_eq_ok.1 h, fun _ => h⟩
  | succ m => exact ⟨collect_of_unclosed h, fun hm => by cases hm⟩

/-- The tokens of `2 * (3d6 + (`. -/
def unfinishedProduct : List Token :=
  [⟨.number, "2"⟩, ⟨.multiplicative, "*"⟩, ⟨.paren, "("⟩, ⟨.dice, "3d6"⟩, ⟨.additive, "+"⟩, ⟨.paren, "("⟩]

/-- The tokens of `2 * (3d6 + (1`. -/
def unclosedProduct : List Token :=
  unfinishedProduct ++ [⟨.number, "1"⟩]

theorem unclosedProduct_truncated :
    parse ⟨2, 3⟩ (unclosedProduct ++ List.replicate 2 closing) =
      .ok (.binary .mul (.const 2) (.binary .add (.dice 3 6) (.const 1))) ∧
    collect ⟨2, 3⟩ unclosedProduct = ([.unmatchedParenthesis, .unmatchedParenthesis], none) ∧
    collect ⟨2, 3⟩ unfinishedProduct =
      ([.unexpectedEnd, .unmatchedParenthesis, .unmatchedParenthesis], none) := by
  have h : parse ⟨2, 3⟩ (unclosedProduct ++ List.replicate 2 closing) =
      .ok (.binary .mul (.const 2) (.binary .add (.dice 3 6) (.const 1))) := parse_eq_ok.2 (by decide +kernel)
  obtain ⟨hunclosed, -⟩ := (collect_truncated ⟨2, 3⟩ unclosedProduct 2 _).1 h
  exact ⟨h, hunclosed, (collect_truncated ⟨2, 3⟩ unfinishedProduct 2 _).2 (by decide) h⟩

end DiceNotation.Parser
