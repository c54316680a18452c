import DiceNotation.Proofs.Descent.Answers

/-!
# Every descent ends

A descent reads any list of tokens to its end in a number of steps that is linear in the length of the list, without a
counter ever going below zero, and gives what the machine gives (**`descent_safe`**). All the states on its way are
`Orderly`: the cursor never goes back, no loop comes round and no procedure calls itself without a token in between,
the depth counts the open groups, and every call returns with the depth that it found.
-/

namespace DiceNotation.Parser.Descent

variable {limits : Limits} {tokens : List Token} {s s' : State} {n : Nat}

/-- Where a loop begins its next round. -/
def Point.IsHead : Point → Prop
  | loop _ _ | skipping _ => True
  | _ => False

/-- What holds of a state of a descent and of those that follow it. Until the procedure that is running returns, no
fewer calls wait than now, so what is said of later states with as many calls is said of all its rounds and of all that
it calls. -/
structure Orderly (limits : Limits) (tokens : List Token) (s : State) : Prop where
  cursor_le : s.cursor ≤ tokens.length
  depth_eq : s.depth = s.openGroups
  depth_le : s.depth ≤ limits.maxDepth
  forward : ∀ n s', s.run limits tokens n = .next s' → s.cursor ≤ s'.cursor
  /-- Every round of a loop consumes a token. -/
  round : ∀ n s', s.run limits tokens (n + 1) = .next s' → s.point.IsHead → s'.point.IsHead →
    s.calls.length ≤ s'.calls.length → s.cursor < s'.cursor
  /-- Going into a group consumes its parenthesis. -/
  group : ∀ s', s.step limits tokens = .next s' → s'.point = .entry .group → s.cursor < s'.cursor
  /-- A procedure that is called again inside itself comes after a token that has been consumed. -/
  recursion : ∀ p n s', s.run limits tokens (n + 1) = .next s' → s.point = .entry p → s'.point = .entry p →
    s.calls.length ≤ s'.calls.length → s.cursor < s'.cursor
  returns : ∀ p, s.point = .entry p →
    ∃ n s' x, s.run limits tokens n = .next s' ∧ s'.point = .exit p x ∧ s'.calls = s.calls
  /-- A call leaves the depth that it has found, whatever its result is. -/
  restored : ∀ p n s' q x, s.run limits tokens n = .next s' → s.point = .entry p → s'.point = .exit q x →
    s'.calls = s.calls → q = p ∧ s'.depth = s.depth

theorem rank_of_isHead (h : s.point.IsHead) : s.rank = 2 * s.calls.length + 1 := by
  unfold State.rank
  split <;> simp_all [Point.IsHead]

theorem rank_le_of_point_eq (hpoint : s'.point = s.point) (hcalls : s.calls.length ≤ s'.calls.length) :
    s.rank ≤ s'.rank := by
  unfold State.rank
  rw [hpoint]
  omega

/-- Without a token in between, the rank is lower. -/
theorem cursor_lt_of_rank_le (h : s.run limits tokens (n + 1) = .next s') (hrank : s.rank ≤ s'.rank) :
    s.cursor < s'.cursor :=
  (run_ahead h).resolve_right fun hahead => Nat.not_lt_of_le hrank hahead.2

theorem Step.cursor_lt_of_group (h : Step limits tokens s s') (hgroup : s'.point = .entry .group) :
    s.cursor < s'.cursor := by
  cases h with
  | opening _ _ _ => exact Nat.lt_succ_self _
  | @chain c _ => cases c <;> cases hgroup
  | @operator c _ _ _ _ _ _ _ => cases c <;> cases hgroup
  | _ => cases hgroup

theorem Sound.orderly (hs : Sound limits tokens s) : Orderly limits tokens s where
  cursor_le := hs.cursor_le
  depth_eq := hs.depth_eq
  depth_le := hs.depth_le
  forward _ _ h := cursor_le_of_run h
  round n s' h hhead hhead' hcalls := by
    refine cursor_lt_of_rank_le h ?_
    rw [rank_of_isHead hhead, rank_of_isHead hhead']
    omega
  group s' h hgroup := (step_of_next h).cursor_lt_of_group hgroup
  recursion p n s' h hp hp' hcalls := cursor_lt_of_rank_le h (rank_le_of_point_eq (hp'.trans hp.symm) hcalls)
  returns _ hp := exists_exit hs hp
  restored p n s' q x h hp hq hcalls := by
    have hs' := sound_of_run hs h
    have hwaits := hs.waiting
    have hwaits' := hs'.waiting
    rw [hp] at hwaits
    rw [hq, hcalls] at hwaits'
    exact ⟨hwaits'.unique hwaits, by rw [hs'.depth_eq, hs.depth_eq, State.openGroups, State.openGroups, hcalls]⟩

/-- **A descent ends safely.** -/
theorem descent_safe (limits : Limits) (tokens : List Token) :
    (∃ n ≤ 15 * tokens.length + 12, State.run limits tokens n {} = .finished (collect limits tokens)) ∧
      (∀ n, State.run limits tokens n {} ≠ .underflow) ∧
        ∀ n s, State.run limits tokens n {} = .next s → Orderly limits tokens s := by
  refine ⟨?_, fun n => run_ne_underflow sound_start, fun n s h => (sound_of_run sound_start h).orderly⟩
  obtain ⟨n, hn, result, h⟩ := exists_finished (@sound_start limits tokens)
  exact ⟨n + 1, Nat.succ_le_succ hn, result_eq_collect h ▸ h⟩

/-- The tokens of `(1 + (2d6)`. -/
def unclosedSum : List Token :=
  [⟨.paren, "("⟩, ⟨.number, "1"⟩, ⟨.additive, "+"⟩, ⟨.paren, "("⟩, ⟨.dice, "2d6"⟩, ⟨.paren, ")"⟩]

/-- The inner group is nested too deep, and the outer one is not closed. The loop of the term between them goes round
once and passes over the inner group. -/
theorem unclosedSum_safe :
    (∃ n ≤ 102, State.run ⟨1, 10⟩ unclosedSum n {} =
      .finished ([.nestingTooDeep 1, .unmatchedParenthesis], none)) ∧
    ∃ s s' : State, State.run ⟨1, 10⟩ unclosedSum 13 {} = .next s ∧ s.run ⟨1, 10⟩ unclosedSum 10 = .next s' ∧
      s.point.IsHead ∧ s'.point.IsHead ∧ s'.calls = s.calls ∧ s.depth = 1 ∧ s.cursor < s'.cursor := by
  obtain ⟨hend, -, horderly⟩ := descent_safe ⟨1, 10⟩ unclosedSum
  have hcollect : collect ⟨1, 10⟩ unclosedSum = ([.nestingTooDeep 1, .unmatchedParenthesis], none) := by
    decide +kernel
  rw [hcollect] at hend
  exact ⟨hend, _, _, rfl, rfl, trivial, trivial, rfl, rfl,
    (horderly 13 _ rfl).round 9 _ rfl trivial trivial (Nat.le_refl _)⟩

end DiceNotation.Parser.Descent
