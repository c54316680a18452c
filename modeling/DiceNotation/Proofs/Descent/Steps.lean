import DiceNotation.Expr.Descent

/-!
# Every step of a descent

`Step limits tokens s s'` says how a descent goes on from one point to the next, one constructor for each way, with all
that has to hold for it. Every step is of one of these kinds (`step_of_next`), and a descent ends with an empty list of
tokens or at the exit of the outermost expression (`eq_of_finished`). Only a group can be where a counter would go below
zero (`of_underflow`).
-/

namespace DiceNotation.Parser.Descent

variable {limits : Limits} {tokens : List Token} {s s' : State} {t : Token}

inductive Step (limits : Limits) (tokens : List Token) (s : State) : State → Prop
  | start : s.point = .start → tokens ≠ [] → Step limits tokens s { s with point := .entry .expression }
  | expression : s.point = .entry .expression →
      Step limits tokens s { s with calls := .expression :: s.calls, point := .entry (.chain .term) }
  | chain {c : Chain} : s.point = .entry (.chain c) →
      Step limits tokens s { s with calls := .chain c none :: s.calls, point := .entry c.operand }
  | operand {t : Token} {errors : List ParseError} {x : Option Expr} {dice : Nat} : s.point = .entry .primary →
      s.peek tokens = some t → operand? limits t s.dice = some (errors, x, dice) →
      Step limits tokens s
        { s with cursor := s.cursor + 1, dice, errors := s.errors ++ errors, point := .exit .primary x }
  | missing : s.point = .entry .primary → s.peek tokens = none →
      Step limits tokens s { s with errors := s.errors ++ [.unexpectedEnd], point := .exit .primary none }
  | opening {t : Token} : s.point = .entry .primary → s.peek tokens = some t → t.isOpening = true →
      Step limits tokens s
        { s with cursor := s.cursor + 1, calls := .primary :: s.calls, point := .entry .group }
  | misplaced {t : Token} : s.point = .entry .primary → s.peek tokens = some t → t.kind ≠ .number → t.kind ≠ .dice →
      t.isOpening = false →
      Step limits tokens s
        { s with
          reported := some s.cursor
          errors := s.errors ++ [.unexpectedToken t.text]
          point := .exit .primary none }
  | deeper : s.point = .entry .group → s.depth < limits.maxDepth →
      Step limits tokens s
        { s with depth := s.depth + 1, calls := .group :: s.calls, point := .entry .expression }
  | tooDeep : s.point = .entry .group → limits.maxDepth ≤ s.depth →
      Step limits tokens s
        { s with errors := s.errors ++ [.nestingTooDeep limits.maxDepth], point := .skipping 1 }
  | operator {c : Chain} {read : Option Expr} {t : Token} {errors : List ParseError} {op : Option Operator} :
      s.point = .loop c read → s.peek tokens = some t → t.kind = c.kind →
      Parser.State.operator t.text = (errors, op) →
      Step limits tokens s
        { s with
          cursor := s.cursor + 1
          errors := s.errors ++ errors
          calls := .chain c (some ⟨read, op⟩) :: s.calls
          point := .entry c.operand }
  | chainEnd {c : Chain} {read : Option Expr} : s.point = .loop c read → (∀ t ∈ s.peek tokens, t.kind ≠ c.kind) →
      Step limits tokens s { s with point := .exit (.chain c) read }
  | skipOpening {opened : Nat} {t : Token} : s.point = .skipping opened → s.peek tokens = some t →
      t.isOpening = true → Step limits tokens s { s with cursor := s.cursor + 1, point := .skipping (opened + 1) }
  | skipClosing {opened : Nat} {t : Token} : s.point = .skipping (opened + 2) → s.peek tokens = some t →
      t.isClosing = true → Step limits tokens s { s with cursor := s.cursor + 1, point := .skipping (opened + 1) }
  | skipped {t : Token} : s.point = .skipping 1 → s.peek tokens = some t → t.isClosing = true →
      Step limits tokens s { s with cursor := s.cursor + 1, point := .exit .group none }
  | skipOther {opened : Nat} {t : Token} : s.point = .skipping opened → s.peek tokens = some t →
      t.isOpening = false → t.isClosing = false →
      Step limits tokens s { s with cursor := s.cursor + 1, point := .skipping opened }
  | skipEnd {opened : Nat} : s.point = .skipping opened → s.peek tokens = none →
      Step limits tokens s { s with errors := s.errors ++ [.unmatchedParenthesis], point := .exit .group none }
  | expressionExit {p : Procedure} {x : Option Expr} {calls : List Call} : s.point = .exit p x →
      s.calls = .expression :: calls → Step limits tokens s { s with calls, point := .exit .expression x }
  | operandExit {p : Procedure} {x : Option Expr} {c : Chain} {pending : Option Pending} {calls : List Call} :
      s.point = .exit p x → s.calls = .chain c pending :: calls →
      Step limits tokens s { s with calls, point := .loop c (Pending.complete pending x) }
  | primaryExit {p : Procedure} {x : Option Expr} {calls : List Call} : s.point = .exit p x →
      s.calls = .primary :: calls → Step limits tokens s { s with calls, point := .exit .primary x }
  | closed {p : Procedure} {x : Option Expr} {calls : List Call} {depth : Nat} {t : Token} : s.point = .exit p x →
      s.calls = .group :: calls → s.depth = depth + 1 → s.peek tokens = some t → t.isClosing = true →
      Step limits tokens s { s with cursor := s.cursor + 1, depth, calls, point := .exit .group x }
  | unclosed {p : Procedure} {x : Option Expr} {calls : List Call} {depth : Nat} : s.point = .exit p x →
      s.calls = .group :: calls → s.depth = depth + 1 → (∀ t ∈ s.peek tokens, t.isClosing = false) →
      Step limits tokens s
        { s with depth, errors := s.errors ++ [.unmatchedParenthesis], calls, point := .exit .group none }

/-! ## Consuming a token -/

theorem cursor_lt_of_peek (h : s.peek tokens = some t) : s.cursor < tokens.length :=
  (List.getElem?_eq_some_iff.1 h).1

theorem consume_of_peek (h : s.peek tokens = some t) : s.consume tokens = { s with cursor := s.cursor + 1 } := by
  rw [State.consume, if_pos (cursor_lt_of_peek h)]

theorem operation_of_peek (h : s.peek tokens = some t) :
    (s.consume tokens).operation tokens = Parser.State.operator t.text := by
  have hprevious : (s.consume tokens).previous tokens = some t := by rw [consume_of_peek h]; exact h
  rw [State.operation, hprevious]

theorem eq_false_of_peek {p : Token → Bool} (h : ¬ (s.peek tokens).any p = true) (ht : t ∈ s.peek tokens) :
    p t = false :=
  Bool.eq_false_iff.2 fun hp => h ((Option.any_eq_true _ _).2 ⟨t, ht, hp⟩)

/-! ## The steps of each procedure -/

theorem kind_ne_of_operand? {dice : Nat} (h : operand? limits t dice = none) : t.kind ≠ .number ∧ t.kind ≠ .dice := by
  unfold operand? at h
  split at h
  · split at h <;> cases h
  · split at h
    · cases h
    · dsimp only at h
      split at h <;> cases h
  · next hnumber hdice => exact ⟨hnumber, hdice⟩

theorem step_of_primary (hp : s.point = .entry .primary) : Step limits tokens s (s.primary limits tokens) := by
  unfold State.primary
  split
  · next hpeek => exact .missing hp hpeek
  · next t hpeek =>
    split
    · next errors x dice hoperand =>
      rw [consume_of_peek hpeek]
      exact .operand hp hpeek hoperand
    · next hoperand =>
      obtain ⟨hnumber, hdice⟩ := kind_ne_of_operand? hoperand
      split
      · next hopening =>
        rw [consume_of_peek hpeek]
        exact .opening hp hpeek hopening
      · next hopening => exact .misplaced hp hpeek hnumber hdice (Bool.eq_false_iff.2 hopening)

theorem step_of_group (hp : s.point = .entry .group) : Step limits tokens s (s.group limits) := by
  unfold State.group
  split
  · next hdepth => exact .tooDeep hp hdepth
  · next hdepth => exact .deeper hp (Nat.lt_of_not_le hdepth)

theorem step_of_loop {c : Chain} {read : Option Expr} (hp : s.point = .loop c read) :
    Step limits tokens s (s.loop tokens c read) := by
  unfold State.loop
  split
  · next hkind =>
    obtain ⟨t, hpeek, hkind⟩ := (Option.any_eq_true _ _).1 hkind
    rcases hoperator : Parser.State.operator t.text with ⟨errors, op⟩
    simp only [operation_of_peek hpeek, hoperator]
    rw [consume_of_peek hpeek]
    exact .operator hp hpeek (of_decide_eq_true hkind) hoperator
  · next hkind => exact .chainEnd hp fun t ht => of_decide_eq_false (eq_false_of_peek hkind ht)

theorem step_of_skip {opened : Nat} (hp : s.point = .skipping opened) (h : s.skip tokens opened = .next s') :
    Step limits tokens s s' := by
  unfold State.skip at h
  split at h
  · next hpeek =>
    cases h
    exact .skipEnd hp hpeek
  · next t hpeek =>
    rw [consume_of_peek hpeek] at h
    dsimp only at h
    split at h
    · next hopening =>
      cases h
      exact .skipOpening hp hpeek hopening
    · next hopening =>
      split at h
      · next hclosing =>
        split at h
        · cases h
        · cases h
          exact .skipped hp hpeek hclosing
        · cases h
          exact .skipClosing hp hpeek hclosing
      · next hclosing =>
        cases h
        exact .skipOther hp hpeek (Bool.eq_false_iff.2 hopening) (Bool.eq_false_iff.2 hclosing)

theorem step_of_resume {p : Procedure} {x : Option Expr} (hp : s.point = .exit p x)
    (h : s.resume tokens x = .next s') : Step limits tokens s s' := by
  unfold State.resume at h
  split at h
  · cases h
  · next calls hcalls =>
    cases h
    exact .expressionExit hp hcalls
  · next c pending calls hcalls =>
    cases h
    exact .operandExit hp hcalls
  · next calls hcalls =>
    cases h
    exact .primaryExit hp hcalls
  · next calls hcalls =>
    unfold State.close at h
    split at h
    · cases h
    · next depth hdepth =>
      dsimp only at h hdepth
      split at h
      · next hclosing =>
        obtain ⟨t, hpeek, hclosing⟩ := (Option.any_eq_true _ _).1 hclosing
        rw [consume_of_peek hpeek] at h
        cases h
        exact .closed hp hcalls hdepth hpeek hclosing
      · next hclosing =>
        cases h
        exact .unclosed hp hcalls hdepth fun t ht => eq_false_of_peek hclosing ht

theorem step_of_next (h : s.step limits tokens = .next s') : Step limits tokens s s' := by
  unfold State.step at h
  split at h
  · next hp =>
    split at h
    · cases h
    · next htokens =>
      cases h
      exact .start hp (by simpa using htokens)
  · next hp =>
    cases h
    exact .expression hp
  · next c hp =>
    cases h
    exact .chain hp
  · next hp =>
    cases h
    exact step_of_primary hp
  · next hp =>
    cases h
    exact step_of_group hp
  · next c read hp =>
    cases h
    exact step_of_loop hp
  · next opened hp => exact step_of_skip hp h
  · next p x hp => exact step_of_resume hp h

/-! ## The other outcomes -/

/-- A descent ends before an empty list of tokens, or with its outermost expression. -/
theorem eq_of_finished {result : List ParseError × Option Expr} (h : s.step limits tokens = .finished result) :
    s.point = .start ∧ tokens = [] ∧ result = ([.empty], none) ∨
      ∃ p x, s.point = .exit p x ∧ s.calls = [] ∧ result = s.finish tokens x := by
  unfold State.step at h
  split at h
  case h_1 hp =>
    split at h
    · next htokens =>
      cases h
      exact .inl ⟨hp, by simpa using htokens, rfl⟩
    · cases h
  case h_7 opened hp =>
    unfold State.skip at h
    repeat' split at h
    all_goals cases h
  case h_8 p x hp =>
    unfold State.resume at h
    split at h
    case h_1 hcalls =>
      cases h
      exact .inr ⟨p, x, hp, hcalls, rfl⟩
    case h_5 =>
      unfold State.close at h
      split at h
      · cases h
      · dsimp only at h
        split at h <;> cases h
    all_goals cases h
  all_goals cases h

/-- A counter would go below zero only where no group is open. -/
theorem of_underflow (h : s.step limits tokens = .underflow) :
    s.point = .skipping 0 ∨ s.depth = 0 ∧ ∃ calls, s.calls = .group :: calls := by
  unfold State.step at h
  split at h
  case h_1 => split at h <;> cases h
  case h_7 opened hp =>
    unfold State.skip at h
    repeat' split at h
    all_goals cases h
    exact .inl hp
  case h_8 p x hp =>
    unfold State.resume at h
    split at h
    case h_5 calls hcalls =>
      unfold State.close at h
      split at h
      · next hdepth => exact .inr ⟨hdepth, calls, hcalls⟩
      · dsimp only at h
        split at h <;> cases h
    all_goals cases h
  all_goals cases h

end DiceNotation.Parser.Descent
