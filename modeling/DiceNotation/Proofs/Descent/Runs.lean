import DiceNotation.Proofs.Descent.Counters

/-!
# Runs of a descent

Every token can give rise to a few steps only (`Step.potential_lt`), so sound states can be proved about from the end of
a descent backwards (`Sound.induction`). A descent comes to its end (`exists_finished`), and every call returns to the
calls that it has found (`exists_exit`).

As steps consume a token or lower the rank, so do runs (`run_ahead`). A point that has a rank of its own can thus not be
reached again without a token in between, unless calls have ended.
-/

namespace DiceNotation.Parser.Descent

variable {limits : Limits} {tokens : List Token} {s s' s'' : State} {calls : List Call} {n : Nat}

/-! ## Runs -/

theorem run_succ (h : s.step limits tokens = .next s') (n : Nat) :
    s.run limits tokens (n + 1) = s'.run limits tokens n := by
  rw [State.run, h]

theorem exists_of_run_succ (h : s.run limits tokens (n + 1) = .next s'') :
    ∃ s', Step limits tokens s s' ∧ s'.run limits tokens n = .next s'' := by
  rw [State.run] at h
  split at h
  · next s' hstep => exact ⟨s', step_of_next hstep, h⟩
  · next hstep => exact absurd h (hstep s'')

/-- What every step preserves, a run preserves. -/
theorem run_preserves {P : State → Prop} (hstep : ∀ {s s'}, Step limits tokens s s' → P s → P s') (hs : P s)
    (h : s.run limits tokens n = .next s') : P s' := by
  induction n generalizing s with
  | zero =>
    cases h
    exact hs
  | succ n ih =>
    obtain ⟨t, ht, h⟩ := exists_of_run_succ h
    exact ih (hstep ht hs) h

theorem sound_of_run (hs : Sound limits tokens s) (h : s.run limits tokens n = .next s') : Sound limits tokens s' :=
  run_preserves Step.sound hs h

theorem run_ne_underflow (hs : Sound limits tokens s) : s.run limits tokens n ≠ .underflow := by
  induction n generalizing s with
  | zero => nofun
  | succ n ih =>
    rw [State.run]
    split
    · next s' hstep => exact ih ((step_of_next hstep).sound hs)
    · exact hs.ne_underflow

/-! ## Tokens between two points -/

/-- A later state of a descent. -/
def Ahead (s s' : State) : Prop :=
  s.cursor < s'.cursor ∨ s'.cursor = s.cursor ∧ s'.rank < s.rank

theorem Step.ahead (h : Step limits tokens s s') : Ahead s s' :=
  h.progress.imp (fun h => by omega) id

theorem run_ahead (h : s.run limits tokens (n + 1) = .next s') : Ahead s s' := by
  induction n generalizing s with
  | zero =>
    obtain ⟨_, hstep, ⟨⟩⟩ := exists_of_run_succ h
    exact hstep.ahead
  | succ n ih =>
    obtain ⟨t, hstep, h⟩ := exists_of_run_succ h
    have hfirst := hstep.ahead
    have hrest := ih h
    unfold Ahead at *
    omega

theorem cursor_le_of_run (h : s.run limits tokens n = .next s') : s.cursor ≤ s'.cursor := by
  cases n with
  | zero =>
    cases h
    exact Nat.le_refl _
  | succ n =>
    have hahead := run_ahead h
    unfold Ahead at hahead
    omega

/-! ## The end -/

/-- More than the number of steps that can follow. -/
def State.potential (tokens : List Token) (s : State) : Nat :=
  15 * (tokens.length - s.cursor) + s.rank

theorem Step.potential_lt (h : Step limits tokens s s') : s'.potential tokens < s.potential tokens := by
  have hprogress := h.progress
  unfold State.potential
  omega

/-- What holds of the states in which a descent ends, and of a state if it does of the next one, holds of all. -/
theorem Sound.induction {motive : (s : State) → Sound limits tokens s → Prop}
    (finished : ∀ s result hs, s.step limits tokens = .finished result → motive s hs)
    (next : ∀ s s' hs (hstep : s.step limits tokens = .next s'),
      motive s' ((step_of_next hstep).sound hs) → motive s hs)
    (s : State) (hs : Sound limits tokens s) : motive s hs := by
  induction hpotential : s.potential tokens using Nat.strongRecOn generalizing s with
  | _ k ih =>
    cases hstep : s.step limits tokens with
    | next s' =>
      have hs' := step_of_next hstep
      exact next s s' hs hstep (ih _ (hpotential ▸ hs'.potential_lt) s' (hs'.sound hs) rfl)
    | finished result => exact finished s result hs hstep
    | underflow => exact absurd hstep hs.ne_underflow

theorem exists_finished (hs : Sound limits tokens s) :
    ∃ n ≤ s.potential tokens, ∃ result, s.run limits tokens (n + 1) = .finished result := by
  induction s, hs using Sound.induction with
  | finished s result _ hstep => exact ⟨0, Nat.zero_le _, result, by rw [State.run, hstep]⟩
  | next s s' _ hstep ih =>
    obtain ⟨n, hn, result, hrun⟩ := ih
    have hlt := (step_of_next hstep).potential_lt
    exact ⟨n + 1, by omega, result, by rw [run_succ hstep, hrun]⟩

/-! ## Calls -/

theorem Step.point_ne_start (h : Step limits tokens s s') : s'.point ≠ .start := by
  cases h <;> nofun

/-- Calls stay where they are until a procedure ends right above them. -/
theorem Step.calls_suffix (h : Step limits tokens s s') (hcalls : calls <:+ s.calls)
    (hne : ∀ p x, s.point = .exit p x → s.calls ≠ calls) : calls <:+ s'.calls := by
  have hpop {call : Call} {rest : List Call} {p : Procedure} {x : Option Expr} (hp : s.point = .exit p x)
      (hrest : s.calls = call :: rest) : calls <:+ rest := by
    have hne := hne p x hp
    rw [hrest] at hcalls hne
    exact (List.suffix_cons_iff.1 hcalls).resolve_left hne.symm
  cases h with
  | expression | chain | opening | deeper | operator => exact List.suffix_cons_iff.2 (.inr hcalls)
  | expressionExit hp hrest | operandExit hp hrest | primaryExit hp hrest | closed hp hrest _ _ _
  | unclosed hp hrest _ _ => exact hpop hp hrest
  | _ => exact hcalls

theorem exists_exit_of_suffix (hs : Sound limits tokens s) (hstart : s.point ≠ .start) (hcalls : calls <:+ s.calls) :
    ∃ n s' p x, s.run limits tokens n = .next s' ∧ s'.point = .exit p x ∧ s'.calls = calls := by
  induction s, hs using Sound.induction with
  | finished s result _ hstep =>
    rcases eq_of_finished hstep with ⟨hp, -, -⟩ | ⟨p, x, hp, hempty, -⟩
    · exact absurd hp hstart
    · rw [hempty] at hcalls
      exact ⟨0, s, p, x, rfl, hp, hempty.trans (List.suffix_nil.1 hcalls).symm⟩
  | next s s' _ hstep ih =>
    by_cases hexit : ∃ p x, s.point = .exit p x ∧ s.calls = calls
    · obtain ⟨p, x, hp, hcalls⟩ := hexit
      exact ⟨0, s, p, x, rfl, hp, hcalls⟩
    · have hs' := step_of_next hstep
      obtain ⟨n, t, p, x, hrun, hp, ht⟩ :=
        ih hs'.point_ne_start (hs'.calls_suffix hcalls fun p x hp heq => hexit ⟨p, x, hp, heq⟩)
      exact ⟨n + 1, t, p, x, by rw [run_succ hstep, hrun], hp, ht⟩

/-- Every call returns. -/
theorem exists_exit {p : Procedure} (hs : Sound limits tokens s) (hp : s.point = .entry p) :
    ∃ n s' x, s.run limits tokens n = .next s' ∧ s'.point = .exit p x ∧ s'.calls = s.calls := by
  obtain ⟨n, s', q, x, hrun, hq, hcalls⟩ :=
    exists_exit_of_suffix hs (by rw [hp]; nofun) (List.suffix_refl s.calls)
  have hp' := hs.waiting
  have hq' := (sound_of_run hs hrun).waiting
  rw [hp] at hp'
  rw [hq, hcalls] at hq'
  obtain rfl : p = q := hp'.unique hq'
  exact ⟨n, s', x, hrun, hq, hcalls⟩

end DiceNotation.Parser.Descent
