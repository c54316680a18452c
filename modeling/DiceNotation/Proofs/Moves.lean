import DiceNotation.Proofs.Operands
import DiceNotation.Proofs.Steps

/-!
# Steps without errors

`Moves limits s t s'` says what a step that reports nothing does, one constructor for each kind of token. In a state
that expects an operand or an operator these are all such steps (`step_eq_nil_iff`), so a run without errors is a chain
of moves, and whatever a move preserves such a run preserves.
-/

namespace DiceNotation

theorem Operator.ofSymbol?_eq_some_iff {text : String} {op : Operator} :
    ofSymbol? text = some op ↔ text = op.symbol.toString := by
  constructor
  · intro h
    unfold ofSymbol? at h
    split at h <;> cases h <;> rfl
  · rintro rfl
    exact ofSymbol?_symbol op

namespace Parser

open Grammar

inductive Moves (limits : Limits) : State → Token → State → Prop
  | const {s : State} {t : Token} {v : Value} :
      s.phase = .operand → Operand t (.const v) → Moves limits s t { s with phase := .operator (some (.const v)) }
  | dice {s : State} {t : Token} {count sides : UInt32} :
      s.phase = .operand → Operand t (.dice count sides) → State.countDice s.dice count ≤ limits.maxDice →
        Moves limits s t
          { s with phase := .operator (some (.dice count sides)), dice := State.countDice s.dice count }
  | opening {s : State} {t : Token} :
      s.phase = .operand → t.isOpening = true → s.outer.length < limits.maxDepth →
        Moves limits s t { s with frame := {}, outer := s.frame :: s.outer, phase := .operand }
  | additive {s : State} {t : Token} {op : Operator} {read : Option Expr} :
      s.phase = .operator read → t.IsOperator .additive op →
        Moves limits s t { s with frame := ⟨some ⟨s.frame.total read, some op⟩, none⟩, phase := .operand }
  | multiplicative {s : State} {t : Token} {op : Operator} {read : Option Expr} :
      s.phase = .operator read → t.IsOperator .multiplicative op →
        Moves limits s t { s with frame := ⟨s.frame.sum, some ⟨s.frame.term read, some op⟩⟩, phase := .operand }
  | closing {s : State} {t : Token} {read : Option Expr} {f : Frame} {fs : List Frame} :
      s.phase = .operator read → t.isClosing = true → s.outer = f :: fs →
        Moves limits s t { s with frame := f, outer := fs, phase := .operator (s.frame.total read) }

/-- A state that has met no token out of place. -/
def State.IsOpen (s : State) : Prop :=
  s.phase = .operand ∨ ∃ read, s.phase = .operator read

variable {limits : Limits} {s s' : State} {t : Token}

theorem Moves.isOpen_after (h : Moves limits s t s') : s'.IsOpen := by
  cases h with
  | const | dice | closing => exact .inr ⟨_, rfl⟩
  | opening | additive | multiplicative => exact .inl rfl

namespace State

theorem kind_of_isOpening (h : t.isOpening = true) : t.kind = .paren := by
  simp only [Token.isOpening, Bool.and_eq_true, beq_iff_eq] at h
  exact h.1

theorem kind_of_isClosing (h : t.isClosing = true) : t.kind = .paren := by
  simp only [Token.isClosing, Bool.and_eq_true, beq_iff_eq] at h
  exact h.1

theorem step_of_moves (h : Moves limits s t s') : s.step limits t = ([], s') := by
  cases h with
  | const hp ht =>
    cases ht with
    | const hk hn hv =>
      have := constant_eq_ok_iff.2 ⟨hn, _, hv, rfl⟩
      simp [step, hp, hk, readConstant, this]
  | dice hp ht hle =>
    cases ht with
    | dice hk htext hn hm hcount hsides h0 =>
      have := diceTerm_eq_ok_iff.2 ⟨_, _, htext, hn, hm, hcount, hsides, h0⟩
      simp [step, hp, hk, readDice, this, Nat.not_lt.2 hle]
  | opening hp ht hlt => simp [step, hp, kind_of_isOpening ht, ht, openGroup, Nat.not_le.2 hlt]
  | additive hp ht => simp [step, hp, continueWith, ht.1, operator, Operator.ofSymbol?_eq_some_iff.2 ht.2]
  | multiplicative hp ht => simp [step, hp, continueWith, ht.1, operator, Operator.ofSymbol?_eq_some_iff.2 ht.2]
  | closing hp ht houter => simp [step, hp, continueWith, kind_of_isClosing ht, ht, houter]

theorem moves_of_yields {read : Option Expr} {dice : Nat} (hp : s.phase = .operand)
    (h : Yields limits t s.dice [] read dice) :
    Moves limits s t { s with phase := .operator read, dice := dice } := by
  cases h with
  | const hk he =>
    obtain ⟨hn, v, hv, rfl⟩ := constant_eq_ok_iff.1 he
    exact .const hp (.const hk hn hv)
  | dice hk he hle =>
    obtain ⟨n, m, htext, hn, hm, hcount, hsides, h0⟩ := diceTerm_eq_ok_iff.1 he
    exact .dice hp (.dice hk htext hn hm hcount hsides h0) hle

theorem moves_of_continues {read : Option Expr} (hp : s.phase = .operator read)
    (h : Continues s read false t [] s') : Moves limits s t s' := by
  generalize hes : ([] : List ParseError) = es at h
  cases h with
  | additive hk ho =>
    obtain ⟨o, htext, -, rfl⟩ | ⟨-, rfl, -⟩ := operator_eq ho
    · exact .additive hp ⟨hk, Operator.ofSymbol?_eq_some_iff.1 htext⟩
    · cases hes
  | multiplicative hk ho =>
    obtain ⟨o, htext, -, rfl⟩ | ⟨-, rfl, -⟩ := operator_eq ho
    · exact .multiplicative hp ⟨hk, Operator.ofSymbol?_eq_some_iff.1 htext⟩
    · cases hes
  | closing ht houter => exact .closing hp ht houter
  | last _ _ _ => simp at hes

/-- The moves are the steps without errors, as long as no token was out of place. -/
theorem step_eq_nil_iff (hs : s.IsOpen) : s.step limits t = ([], s') ↔ Moves limits s t s' := by
  refine ⟨fun h => ?_, step_of_moves⟩
  have hphase : (∀ inner, s.phase ≠ .skipping inner) ∧ ∀ tree, s.phase ≠ .done tree := by
    rcases hs with hp | ⟨read, hp⟩ <;> simp [hp]
  cases steps_of_step h with
  | operand hp hx => exact moves_of_yields hp hx
  | opening hp ht hlt => exact .opening hp ht hlt
  | operator hp hc => exact moves_of_continues hp hc
  | innerOpening hp _ | innerClosing hp _ | skipped hp _ | passed hp _ _ => exact absurd hp (hphase.1 _)
  | ignored hp => exact absurd hp (hphase.2 _)

/-! ## Runs without errors -/

theorem run_cons_eq_nil {ts : List Token} {last : State} :
    s.run limits (t :: ts) = ([], last) ↔ ∃ s', s.step limits t = ([], s') ∧ s'.run limits ts = ([], last) := by
  simp only [run]
  rcases s.step limits t with ⟨errors, s'⟩
  rcases hr : s'.run limits ts with ⟨later, last'⟩
  constructor
  · intro h
    obtain ⟨he, rfl⟩ := Prod.mk.inj h
    obtain ⟨rfl, rfl⟩ := List.append_eq_nil_iff.1 he
    exact ⟨s', rfl, hr⟩
  · rintro ⟨s'', hs, hr'⟩
    obtain ⟨rfl, rfl⟩ := Prod.mk.inj hs
    obtain ⟨rfl, rfl⟩ := Prod.mk.inj (hr.symm.trans hr')
    rfl

/-- What every move preserves, a run without errors preserves. -/
theorem run_induction {P : State → List Token → Prop}
    (hstep : ∀ {s ts t s'}, P s ts → Moves limits s t s' → P s' (ts ++ [t])) {ts us : List Token} (h : P s ts)
    (hs : s.IsOpen) (hr : s.run limits us = ([], s')) : P s' (ts ++ us) ∧ s'.IsOpen := by
  induction us generalizing s ts with
  | nil =>
    cases hr
    exact ⟨by simpa using h, hs⟩
  | cons u us ih =>
    obtain ⟨s₁, hu, hr⟩ := run_cons_eq_nil.1 hr
    have hm := (step_eq_nil_iff hs).1 hu
    simpa using ih (hstep h hm) hm.isOpen_after hr

end State

end Parser

end DiceNotation
