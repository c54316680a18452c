import DiceNotation.Proofs.Descent.Steps

/-!
# The counters of a descent

A step consumes a token or takes the descent nearer to its next one: `rank` counts how many steps it can be away from
it, and sinks as long as the cursor stays (`Step.progress`).

A state is `Sound` if the cursor is not past the end, the depth is the number of open groups and within the limit, the
procedures that wait are those that can wait for the running one, and no chain has stopped before an operator of its
own. Every step keeps this (`Step.sound`), so no counter ever goes below zero (`Sound.ne_underflow`).
-/

namespace DiceNotation.Parser.Descent

variable {limits : Limits} {tokens : List Token} {s s' : State}

def Call.isGroup : Call → Bool
  | group => true
  | _ => false

/-- How many groups that were not too deep are active. -/
def State.openGroups (s : State) : Nat :=
  s.calls.countP Call.isGroup

/-! ## Who waits for whom -/

/-- The procedure that is running, or was running last. -/
def Point.procedure : Point → Procedure
  | start => .expression
  | entry p => p
  | loop c _ => .chain c
  | skipping _ => .group
  | exit p _ => p

/-- The calls that can wait while a procedure runs. -/
inductive Waiting : Procedure → List Call → Prop
  | outermost : Waiting .expression []
  | expression {calls : List Call} : Waiting .group calls → Waiting .expression (.group :: calls)
  | term {calls : List Call} : Waiting .expression calls → Waiting (.chain .term) (.expression :: calls)
  | factor {pending : Option Pending} {calls : List Call} : Waiting (.chain .term) calls →
      Waiting (.chain .factor) (.chain .term pending :: calls)
  | primary {pending : Option Pending} {calls : List Call} : Waiting (.chain .factor) calls →
      Waiting .primary (.chain .factor pending :: calls)
  | group {calls : List Call} : Waiting .primary calls → Waiting .group (.primary :: calls)

namespace Waiting

variable {p q : Procedure} {c : Chain} {pending : Option Pending} {calls : List Call}

theorem operand (h : Waiting (.chain c) calls) : Waiting c.operand (.chain c pending :: calls) := by
  cases c with
  | term => exact .factor h
  | factor => exact .primary h

theorem of_operand (h : Waiting p (.chain c pending :: calls)) : p = c.operand ∧ Waiting (.chain c) calls := by
  cases h with
  | factor h => exact ⟨rfl, h⟩
  | primary h => exact ⟨rfl, h⟩

theorem unique (h : Waiting p calls) (h' : Waiting q calls) : p = q := by
  cases h <;> cases h' <;> rfl

end Waiting

/-! ## Progress -/

/-- A bound on the steps before the next token is consumed: those until the procedure at this point returns, and two for
every call that may return after it. -/
def State.rank (s : State) : Nat :=
  -- A procedure stands three above the one that it calls: one for the step, two for the call that waits.
  2 * s.calls.length + match s.point with
    | .start => 11
    | .entry .group => 13
    | .entry .expression => 10
    | .entry (.chain .term) => 7
    | .entry (.chain .factor) => 4
    | .entry .primary | .loop _ _ | .skipping _ => 1
    | .exit _ _ => 0

theorem Step.progress (h : Step limits tokens s s') :
    s.cursor < tokens.length ∧ s'.cursor = s.cursor + 1 ∧ s'.rank ≤ s.rank + 14 ∨
      s'.cursor = s.cursor ∧ s'.rank < s.rank := by
  cases h with
  | operand hp hpeek _ | opening hp hpeek _ | skipOpening hp hpeek _ | skipClosing hp hpeek _
  | skipped hp hpeek _ | skipOther hp hpeek _ _ =>
    refine .inl ⟨cursor_lt_of_peek hpeek, rfl, ?_⟩
    simp only [State.rank, hp, List.length_cons]
    omega
  | @operator c _ _ _ _ hp hpeek _ _ =>
    refine .inl ⟨cursor_lt_of_peek hpeek, rfl, ?_⟩
    cases c <;> simp only [State.rank, hp, List.length_cons, Chain.operand] <;> omega
  | closed hp hcalls _ hpeek _ =>
    refine .inl ⟨cursor_lt_of_peek hpeek, rfl, ?_⟩
    simp only [State.rank, hp, hcalls, List.length_cons]
    omega
  | @chain c hp =>
    refine .inr ⟨rfl, ?_⟩
    cases c <;> simp only [State.rank, hp, List.length_cons, Chain.operand] <;> omega
  | expressionExit hp hcalls | operandExit hp hcalls | primaryExit hp hcalls | unclosed hp hcalls _ _ =>
    refine .inr ⟨rfl, ?_⟩
    simp only [State.rank, hp, hcalls, List.length_cons]
    omega
  | start hp _ | expression hp | missing hp _ | misplaced hp _ _ _ _ | deeper hp _ | tooDeep hp _ | chainEnd hp _
  | skipEnd hp _ =>
    refine .inr ⟨rfl, ?_⟩
    simp only [State.rank, hp, List.length_cons]
    omega

/-! ## Soundness -/

/-- Kinds of tokens that cannot stand at a point, since a chain has just gone on as long as it could. -/
def Point.refused : Point → List Token.Kind
  | loop .term _ | exit (.chain .factor) _ => [.multiplicative]
  | exit (.chain .term) _ | exit .expression _ => [.additive, .multiplicative]
  | _ => []

structure Sound (limits : Limits) (tokens : List Token) (s : State) : Prop where
  cursor_le : s.cursor ≤ tokens.length
  depth_eq : s.depth = s.openGroups
  depth_le : s.depth ≤ limits.maxDepth
  reported_le : ∀ c ∈ s.reported, c ≤ s.cursor
  skipping_ne : s.point ≠ .skipping 0
  waiting : Waiting s.point.procedure s.calls
  refused : ∀ t ∈ s.peek tokens, t.kind ∉ s.point.refused

theorem sound_start : Sound limits tokens {} where
  cursor_le := Nat.zero_le _
  depth_eq := rfl
  depth_le := Nat.zero_le _
  reported_le := nofun
  skipping_ne := nofun
  waiting := .outermost
  refused := fun _ _ => List.not_mem_nil

theorem Step.depth_eq (h : Step limits tokens s s') (hs : s.depth = s.openGroups) : s'.depth = s'.openGroups := by
  unfold State.openGroups at hs ⊢
  cases h with
  | deeper _ _ => rw [List.countP_cons_of_pos rfl, hs]
  | closed _ hcalls hdepth _ _ | unclosed _ hcalls hdepth _ =>
    rw [hcalls, hdepth, List.countP_cons_of_pos rfl] at hs
    exact Nat.succ.inj hs
  | expression _ | chain _ | opening _ _ _ | operator _ _ _ _ => simp [hs, Call.isGroup]
  | expressionExit _ hcalls | operandExit _ hcalls | primaryExit _ hcalls => simp [hs, hcalls, Call.isGroup]
  | _ => exact hs

theorem Step.depth_le (h : Step limits tokens s s') (hs : s.depth ≤ limits.maxDepth) : s'.depth ≤ limits.maxDepth := by
  cases h with
  | deeper _ hdepth => exact hdepth
  | closed _ _ hdepth _ _ | unclosed _ _ hdepth _ =>
    rw [hdepth] at hs
    exact Nat.le_of_succ_le hs
  | _ => exact hs

theorem Step.reported_le (h : Step limits tokens s s') (hs : ∀ c ∈ s.reported, c ≤ s.cursor) :
    ∀ c ∈ s'.reported, c ≤ s'.cursor := by
  cases h with
  | misplaced => simp
  | operand | opening | operator | skipOpening | skipClosing | skipped | skipOther | closed =>
    exact fun c hc => Nat.le_succ_of_le (hs c hc)
  | _ => exact hs

theorem Step.waiting (h : Step limits tokens s s') (hs : Waiting s.point.procedure s.calls) :
    Waiting s'.point.procedure s'.calls := by
  have hwaiting {point : Point} {calls : List Call} (hp : s.point = point) (hcalls : s.calls = calls) :
      Waiting point.procedure calls := hp ▸ hcalls ▸ hs
  cases h with
  | expression hp => exact .term (hwaiting hp rfl)
  | chain hp => exact .operand (hwaiting hp rfl)
  | opening hp _ _ => exact .group (hwaiting hp rfl)
  | deeper hp _ => exact .expression (hwaiting hp rfl)
  | operator hp _ _ _ => exact .operand (hwaiting hp rfl)
  | operandExit hp hcalls => exact (hwaiting hp hcalls).of_operand.2
  | expressionExit hp hcalls =>
    cases hwaiting hp hcalls with
    | term h => exact h
  | primaryExit hp hcalls =>
    cases hwaiting hp hcalls with
    | group h => exact h
  | closed hp hcalls _ _ _ | unclosed hp hcalls _ _ =>
    cases hwaiting hp hcalls with
    | expression h => exact h
  | start hp _ | operand hp _ _ | missing hp _ | misplaced hp _ _ _ _ | tooDeep hp _ | chainEnd hp _
  | skipOpening hp _ _ | skipClosing hp _ _ | skipped hp _ _ | skipOther hp _ _ _ | skipEnd hp _ =>
    exact (hwaiting hp rfl :)

theorem Step.skipping_ne (h : Step limits tokens s s') (hs : s.point ≠ .skipping 0) : s'.point ≠ .skipping 0 := by
  cases h with
  | skipOther hp _ _ _ => exact hp ▸ hs
  | _ => simp

/-- A chain stops before its own operators only if they are not there. -/
theorem Step.refused (h : Step limits tokens s s') (hwaiting : Waiting s.point.procedure s.calls)
    (hs : ∀ t ∈ s.peek tokens, t.kind ∉ s.point.refused) : ∀ t ∈ s'.peek tokens, t.kind ∉ s'.point.refused := by
  have hwaits {p : Procedure} {x : Option Expr} {calls : List Call} (hp : s.point = .exit p x)
      (hcalls : s.calls = calls) : Waiting p calls := by
    rw [hp, hcalls] at hwaiting
    exact hwaiting
  cases h with
  | @chainEnd c read hp hkind =>
    rw [hp] at hs
    intro t ht
    cases c with
    | term => exact List.not_mem_cons_of_ne_of_not_mem (hkind t ht) (hs t ht)
    | factor => exact List.not_mem_cons_of_ne_of_not_mem (hkind t ht) List.not_mem_nil
  | expressionExit hp hcalls =>
    cases hwaits hp hcalls with
    | term _ =>
      rw [hp] at hs
      exact hs
  | operandExit hp hcalls =>
    cases hwaits hp hcalls with
    | factor _ =>
      rw [hp] at hs
      exact hs
    | primary _ => exact fun _ _ => List.not_mem_nil
  | @chain c hp => cases c <;> exact fun _ _ => List.not_mem_nil
  | @operator c => cases c <;> exact fun _ _ => List.not_mem_nil
  | _ => exact fun _ _ => List.not_mem_nil

theorem Step.sound (h : Step limits tokens s s') (hs : Sound limits tokens s) : Sound limits tokens s' where
  cursor_le := by
    have hle := hs.cursor_le
    have hprogress := h.progress
    omega
  depth_eq := h.depth_eq hs.depth_eq
  depth_le := h.depth_le hs.depth_le
  reported_le := h.reported_le hs.reported_le
  skipping_ne := h.skipping_ne hs.skipping_ne
  waiting := h.waiting hs.waiting
  refused := h.refused hs.waiting hs.refused

/-- No counter goes below zero. -/
theorem Sound.ne_underflow (hs : Sound limits tokens s) : s.step limits tokens ≠ .underflow := by
  intro h
  rcases of_underflow h with hp | ⟨hdepth, calls, hcalls⟩
  · exact hs.skipping_ne hp
  · have hopen := hs.depth_eq
    rw [hdepth, State.openGroups, hcalls, List.countP_cons_of_pos rfl] at hopen
    cases hopen

end DiceNotation.Parser.Descent
