import DiceNotation.Expr.Parser

/-!
# Every step

`Steps limits s t errors s'` says what the machine does with the token `t`, in every phase and with every token, one
constructor for each kind of step:

- an operand yields a value or one error (`Yields`);
- a token after an operand is an operator, closes a group or ends the expression (`Continues`). In place of an operand
  it is reported and then handled as if an operand with no value stood before it;
- inside a group that is passed over only parentheses count, and after the end of the expression nothing does.

The machine takes these steps (`steps_of_step`), so what each of them preserves a run preserves (`run_preserves`), and
every error of a run is one of a step (`exists_step_of_mem_run`). The end of the input adds only errors about what is
missing (`eq_of_mem_finish`).
-/

namespace DiceNotation.Parser

variable {limits : Limits} {s s' : State} {t : Token} {ts : List Token} {errors : List ParseError}

/-! ## Operands -/

/-- The errors and the value of an operand after `dice` dice, and the number of dice with it. -/
inductive Yields (limits : Limits) (t : Token) (dice : Nat) : List ParseError → Option Expr → Nat → Prop
  | const {e : Expr} : t.kind = .number → constant t.text = .ok e → Yields limits t dice [] (some e) dice
  | dice {count sides : UInt32} :
      t.kind = .dice → diceTerm t.text = .ok (count, sides) → State.countDice dice count ≤ limits.maxDice →
        Yields limits t dice [] (some (.dice count sides)) (State.countDice dice count)
  | constFault {error : ParseError} :
      t.kind = .number → constant t.text = .error error → Yields limits t dice [error] none dice
  | diceFault {error : ParseError} :
      t.kind = .dice → diceTerm t.text = .error error → Yields limits t dice [error] none dice
  | tooMany {count sides : UInt32} :
      t.kind = .dice → diceTerm t.text = .ok (count, sides) → limits.maxDice < State.countDice dice count →
        Yields limits t dice [.tooManyDice t.text limits.maxDice] none (State.countDice dice count)

theorem yields_of_readConstant (limits : Limits) (hk : t.kind = .number) (h : s.readConstant t.text = (errors, s')) :
    ∃ x, s' = { s with phase := .operator x } ∧ Yields limits t s.dice errors x s.dice := by
  unfold State.readConstant at h
  split at h
  · next e he =>
    cases h
    exact ⟨some e, rfl, .const hk he⟩
  · next error he =>
    cases h
    exact ⟨none, rfl, .constFault hk he⟩

theorem yields_of_readDice (hk : t.kind = .dice) (h : s.readDice limits t.text = (errors, s')) :
    ∃ x dice, s' = { s with phase := .operator x, dice := dice } ∧ Yields limits t s.dice errors x dice := by
  unfold State.readDice at h
  split at h
  · next error he =>
    cases h
    exact ⟨none, s.dice, rfl, .diceFault hk he⟩
  · next count sides he =>
    dsimp only at h
    split at h
    · next hlt =>
      cases h
      exact ⟨none, _, rfl, .tooMany hk he hlt⟩
    · next hle =>
      cases h
      exact ⟨some (.dice count sides), _, rfl, .dice hk he (Nat.not_lt.1 hle)⟩

/-- All that can be wrong with an operand. -/
def faults (maxDice : Nat) (text : String) : List ParseError :=
  [.numberNotNumeral text, .numberOutOfRange text, .malformedDice text, .diceCountNotNumeral text, .noSides text,
    .diceOutOfRange text, .tooManyDice text maxDice]

theorem constant_mem_faults {text : String} {error : ParseError} (h : constant text = .error error) (maxDice : Nat) :
    error ∈ faults maxDice text := by
  unfold constant at h
  repeat' split at h
  all_goals cases h <;> simp [faults]

theorem diceTerm_mem_faults {text : String} {error : ParseError} (h : diceTerm text = .error error) (maxDice : Nat) :
    error ∈ faults maxDice text := by
  unfold diceTerm at h
  dsimp only at h
  repeat' split at h
  all_goals cases h <;> simp [faults]

theorem trailingToken_not_mem_faults (maxDice : Nat) (text text' : String) :
    .trailingToken text' ∉ faults maxDice text := by
  simp [faults]

/-- An operand has a value or one error. -/
theorem Yields.errors_eq {dice dice' : Nat} {x : Option Expr} (h : Yields limits t dice errors x dice') :
    (∃ e, errors = [] ∧ x = some e) ∨ ∃ error ∈ faults limits.maxDice t.text, errors = [error] ∧ x = none := by
  cases h with
  | const _ _ | dice _ _ _ => exact .inl ⟨_, rfl, rfl⟩
  | constFault _ h => exact .inr ⟨_, constant_mem_faults h _, rfl, rfl⟩
  | diceFault _ h => exact .inr ⟨_, diceTerm_mem_faults h _, rfl, rfl⟩
  | tooMany _ _ _ => exact .inr ⟨_, by simp [faults], rfl, rfl⟩

/-! ## After an operand -/

/-- What an operator token, or one that is none, leaves behind. -/
theorem operator_eq {text : String} {op : Option Operator} (h : State.operator text = (errors, op)) :
    (∃ o, Operator.ofSymbol? text = some o ∧ errors = [] ∧ op = some o) ∨
      Operator.ofSymbol? text = none ∧ errors = [.notAnOperator text] ∧ op = none := by
  unfold State.operator at h
  split at h
  · next o ho =>
    cases h
    exact .inl ⟨o, ho, rfl, rfl⟩
  · next ho =>
    cases h
    exact .inr ⟨ho, rfl, rfl⟩

theorem eq_of_mem_unmatched {error : ParseError} (h : error ∈ s.unmatched) : error = .unmatchedParenthesis :=
  List.eq_of_mem_replicate h

/-- A token after the operand `read`. If it is `blamed` already, it stands in place of one. -/
inductive Continues (s : State) (read : Option Expr) (blamed : Bool) (t : Token) : List ParseError → State → Prop
  | additive {errors : List ParseError} {op : Option Operator} :
      t.kind = .additive → State.operator t.text = (errors, op) →
        Continues s read blamed t errors { s with frame := ⟨some ⟨s.frame.total read, op⟩, none⟩, phase := .operand }
  | multiplicative {errors : List ParseError} {op : Option Operator} :
      t.kind = .multiplicative → State.operator t.text = (errors, op) →
        Continues s read blamed t errors
          { s with frame := ⟨s.frame.sum, some ⟨s.frame.term read, op⟩⟩, phase := .operand }
  | closing {f : Frame} {fs : List Frame} :
      t.isClosing = true → s.outer = f :: fs →
        Continues s read blamed t [] { s with frame := f, outer := fs, phase := .operator (s.frame.total read) }
  | last :
      t.kind ≠ .additive → t.kind ≠ .multiplicative → (t.isClosing = true → s.outer = []) →
        Continues s read blamed t (s.unmatched ++ if blamed then [] else [.trailingToken t.text])
          { s with phase := .done (s.tree read) }

theorem continues_of_continueWith {read : Option Expr} {blamed : Bool}
    (h : s.continueWith read blamed t = (errors, s')) : Continues s read blamed t errors s' := by
  unfold State.continueWith at h
  split at h
  · next hk =>
    rcases ho : State.operator t.text with ⟨es, op⟩
    rw [ho] at h
    cases h
    exact .additive hk ho
  · next hk =>
    rcases ho : State.operator t.text with ⟨es, op⟩
    rw [ho] at h
    cases h
    exact .multiplicative hk ho
  · next hadd hmul =>
    split at h
    · next f fs ht houter =>
      cases h
      exact .closing ht houter
    · next hnot =>
      cases h
      refine .last hadd hmul fun ht => ?_
      cases houter : s.outer with
      | nil => rfl
      | cons f fs => exact absurd houter (hnot f fs ht)

/-! ## All steps -/

inductive Steps (limits : Limits) (s : State) (t : Token) : List ParseError → State → Prop
  | operand {errors : List ParseError} {x : Option Expr} {dice : Nat} :
      s.phase = .operand → Yields limits t s.dice errors x dice →
        Steps limits s t errors { s with phase := .operator x, dice := dice }
  | opening :
      s.phase = .operand → t.isOpening = true → s.outer.length < limits.maxDepth →
        Steps limits s t [] { s with frame := {}, outer := s.frame :: s.outer, phase := .operand }
  | tooDeep :
      s.phase = .operand → t.isOpening = true → limits.maxDepth ≤ s.outer.length →
        Steps limits s t [.nestingTooDeep limits.maxDepth] { s with phase := .skipping 0 }
  | misplaced {errors : List ParseError} {s' : State} :
      s.phase = .operand → t.kind ≠ .number → t.kind ≠ .dice → t.isOpening = false →
        Continues s none true t errors s' → Steps limits s t (.unexpectedToken t.text :: errors) s'
  | operator {read : Option Expr} {errors : List ParseError} {s' : State} :
      s.phase = .operator read → Continues s read false t errors s' → Steps limits s t errors s'
  | innerOpening {inner : Nat} :
      s.phase = .skipping inner → t.isOpening = true → Steps limits s t [] { s with phase := .skipping (inner + 1) }
  | innerClosing {inner : Nat} :
      s.phase = .skipping (inner + 1) → t.isClosing = true → Steps limits s t [] { s with phase := .skipping inner }
  | skipped :
      s.phase = .skipping 0 → t.isClosing = true → Steps limits s t [] { s with phase := .operator none }
  | passed {inner : Nat} :
      s.phase = .skipping inner → t.isOpening = false → t.isClosing = false → Steps limits s t [] s
  | ignored {tree : Option Expr} : s.phase = .done tree → Steps limits s t [] s

theorem steps_of_operand (hp : s.phase = .operand) (h : s.step limits t = (errors, s')) :
    Steps limits s t errors s' := by
  unfold State.step at h
  rw [hp] at h
  dsimp only at h
  split at h
  · next hk =>
    obtain ⟨x, rfl, hx⟩ := yields_of_readConstant limits hk h
    exact .operand hp hx
  · next hk =>
    obtain ⟨x, dice, rfl, hx⟩ := yields_of_readDice hk h
    exact .operand hp hx
  · next hnumber hdice =>
    split at h
    · next ht =>
      unfold State.openGroup at h
      split at h
      · next hdepth =>
        cases h
        exact .tooDeep hp ht hdepth
      · next hdepth =>
        cases h
        exact .opening hp ht (Nat.not_le.1 hdepth)
    · next ht =>
      rcases hc : s.continueWith none true t with ⟨es, last⟩
      rw [hc] at h
      cases h
      exact .misplaced hp hnumber hdice (Bool.eq_false_iff.2 ht) (continues_of_continueWith hc)

theorem steps_of_skipping {inner : Nat} (hp : s.phase = .skipping inner) (h : s.step limits t = (errors, s')) :
    Steps limits s t errors s' := by
  unfold State.step at h
  rw [hp] at h
  dsimp only at h
  split at h
  · next ht =>
    cases h
    exact .innerOpening hp ht
  · next hopening =>
    split at h
    · next ht =>
      cases inner with
      | zero =>
        cases h
        exact .skipped hp ht
      | succ inner =>
        cases h
        exact .innerClosing hp ht
    · next hclosing =>
      cases h
      exact .passed hp (Bool.eq_false_iff.2 hopening) (Bool.eq_false_iff.2 hclosing)

theorem steps_of_step (h : s.step limits t = (errors, s')) : Steps limits s t errors s' := by
  cases hp : s.phase with
  | operand => exact steps_of_operand hp h
  | operator read =>
    simp only [State.step, hp] at h
    exact .operator hp (continues_of_continueWith h)
  | skipping inner => exact steps_of_skipping hp h
  | done tree =>
    simp only [State.step, hp] at h
    cases h
    exact .ignored hp

/-! ## Runs -/

/-- What every step preserves, a run preserves. -/
theorem run_preserves {P : State → Prop}
    (hstep : ∀ {s t errors s'}, Steps limits s t errors s' → P s → P s') (hs : P s) : P (s.run limits ts).2 := by
  induction ts generalizing s with
  | nil => exact hs
  | cons t ts ih => exact ih (hstep (steps_of_step rfl) hs)

/-- After the end of the expression nothing is read. -/
theorem run_done {tree : Option Expr} (hp : s.phase = .done tree) (ts : List Token) :
    s.run limits ts = ([], s) := by
  induction ts with
  | nil => rfl
  | cons t ts ih => simp [State.run, State.step, hp, ih]

theorem exists_step_of_mem_run {error : ParseError} (h : error ∈ (s.run limits ts).1) :
    ∃ t ∈ ts, ∃ s₁ errors s₂, Steps limits s₁ t errors s₂ ∧ error ∈ errors := by
  induction ts generalizing s with
  | nil => cases h
  | cons t ts ih =>
    rcases List.mem_append.1 h with h | h
    · exact ⟨t, List.mem_cons_self, s, _, _, steps_of_step rfl, h⟩
    · obtain ⟨u, hu, hstep⟩ := ih h
      exact ⟨u, List.mem_cons_of_mem t hu, hstep⟩

/-- All that can be missing at the end of the input. -/
theorem eq_of_mem_finish {error : ParseError} (h : error ∈ s.finish.1) :
    error = .unexpectedEnd ∨ error = .unmatchedParenthesis := by
  unfold State.finish at h
  split at h
  · exact (List.mem_cons.1 h).imp_right eq_of_mem_unmatched
  · exact .inr (eq_of_mem_unmatched h)
  · exact .inr ((List.mem_cons.1 h).elim id eq_of_mem_unmatched)
  · cases h

end DiceNotation.Parser
