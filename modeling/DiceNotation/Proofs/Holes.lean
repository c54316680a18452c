import DiceNotation.Proofs.Recovery
import DiceNotation.Proofs.Steps

/-!
# Trees and errors

A state has a hole where some part of the tree that it builds is missing. Every step keeps a hole
(`Steps.hasHole`), and the first error of a run makes one, unless it is about a token after a complete expression
(`Steps.first_error`). So a token list has one of three ends (`collect_cases`): a tree and no error, a tree and an error
about the first token that is left over, or no tree and an error of another kind in front.

Which of them it is can be told without the machine (`collect_tree_iff`): there is a tree if and only if the whole list
is accepted, or a part of it up to a token that is no operator.
-/

namespace DiceNotation.Parser

variable {limits : Limits} {s s' : State} {t : Token} {ts : List Token} {errors : List ParseError} {read : Option Expr}

/-! ## Holes -/

/-- An operation whose left operand or operator is missing. -/
def Pending.HasHole : Option Pending → Prop
  | none => False
  | some p => p.left = none ∨ p.op = none

def Frame.HasHole (f : Frame) : Prop :=
  Pending.HasHole f.sum ∨ Pending.HasHole f.product

def Phase.HasHole : Phase → Prop
  | .operand => False
  | .operator read => read = none
  | .skipping _ => True
  | .done tree => tree = none

/-- A hole in the group being read or in one around it. -/
def State.GroupHasHole (s : State) : Prop :=
  ∃ f ∈ s.frame :: s.outer, f.HasHole

/-- Groups matter as long as the expression goes on. -/
def State.HasHole (s : State) : Prop :=
  s.phase.HasHole ∨ s.IsOpen ∧ s.GroupHasHole

theorem combine_none_left (op : Option Operator) (r : Option Expr) : combine none op r = none := by
  simp [combine]

theorem combine_none_op (l r : Option Expr) : combine l none r = none := by
  cases l <;> simp [combine]

theorem combine_none_right (l : Option Expr) (op : Option Operator) : combine l op none = none := by
  cases l <;> cases op <;> simp [combine]

theorem Pending.complete_eq_none {p : Option Pending} (h : Pending.HasHole p ∨ read = none) :
    Pending.complete p read = none := by
  cases p with
  | none => exact h.resolve_left id
  | some p =>
    obtain (h | h) | rfl := h
    · rw [Pending.complete, h, combine_none_left]
    · rw [Pending.complete, h, combine_none_op]
    · exact combine_none_right p.left p.op

theorem Frame.term_eq_none {f : Frame} (h : Pending.HasHole f.product ∨ read = none) : f.term read = none :=
  Pending.complete_eq_none h

theorem Frame.total_eq_none {f : Frame} (h : f.HasHole ∨ read = none) : f.total read = none := by
  refine Pending.complete_eq_none ?_
  obtain (h | h) | h := h
  · exact .inl h
  · exact .inr (f.term_eq_none (.inl h))
  · exact .inr (f.term_eq_none (.inr h))

theorem State.tree_eq_none (h : read = none ∨ s.GroupHasHole) : s.tree read = none := by
  unfold State.tree
  split
  · next houter =>
    rcases h with h | ⟨f, hf, h⟩
    · exact Frame.total_eq_none (.inr h)
    · rw [List.isEmpty_iff.1 houter, List.mem_singleton] at hf
      exact Frame.total_eq_none (.inl (hf ▸ h))
  · rfl

theorem State.HasHole.of_operand (h : s.HasHole) (hp : s.phase = .operand) : s.GroupHasHole := by
  rcases h with h | ⟨-, h⟩
  · rw [hp] at h
    cases h
  · exact h

theorem State.HasHole.of_operator (h : s.HasHole) (hp : s.phase = .operator read) :
    read = none ∨ s.GroupHasHole := by
  rcases h with h | ⟨-, h⟩
  · rw [hp] at h
    exact .inl h
  · exact .inr h

theorem State.HasHole.of_done {tree : Option Expr} (h : s.HasHole) (hp : s.phase = .done tree) : tree = none := by
  rcases h with h | ⟨hopen | ⟨read, hopen⟩, -⟩
  · rw [hp] at h
    exact h
  · rw [hp] at hopen
    cases hopen
  · rw [hp] at hopen
    cases hopen

/-! ## Steps keep holes -/

theorem Continues.hasHole {blamed : Bool} (h : Continues s read blamed t errors s')
    (hs : read = none ∨ s.GroupHasHole) : s'.HasHole := by
  cases h with
  | additive _ _ =>
    refine .inr ⟨.inl rfl, ?_⟩
    rcases hs with h | ⟨f, hf, h⟩
    · exact ⟨_, List.mem_cons_self, .inl (.inl (Frame.total_eq_none (.inr h)))⟩
    · rcases List.mem_cons.1 hf with rfl | hf
      · exact ⟨_, List.mem_cons_self, .inl (.inl (Frame.total_eq_none (.inl h)))⟩
      · exact ⟨f, List.mem_cons_of_mem _ hf, h⟩
  | multiplicative _ _ =>
    refine .inr ⟨.inl rfl, ?_⟩
    rcases hs with h | ⟨f, hf, h⟩
    · exact ⟨_, List.mem_cons_self, .inr (.inl (Frame.term_eq_none (.inr h)))⟩
    · rcases List.mem_cons.1 hf with rfl | hf
      · rcases h with h | h
        · exact ⟨_, List.mem_cons_self, .inl h⟩
        · exact ⟨_, List.mem_cons_self, .inr (.inl (Frame.term_eq_none (.inl h)))⟩
      · exact ⟨f, List.mem_cons_of_mem _ hf, h⟩
  | closing _ houter =>
    rcases hs with h | ⟨f, hf, h⟩
    · exact .inl (Frame.total_eq_none (.inr h))
    · rcases List.mem_cons.1 hf with rfl | hf
      · exact .inl (Frame.total_eq_none (.inl h))
      · rw [houter] at hf
        exact .inr ⟨.inr ⟨_, rfl⟩, f, hf, h⟩
  | last _ _ _ => exact .inl (State.tree_eq_none hs)

theorem Steps.hasHole (h : Steps limits s t errors s') (hs : s.HasHole) : s'.HasHole := by
  cases h with
  | operand hp _ => exact .inr ⟨.inr ⟨_, rfl⟩, hs.of_operand hp⟩
  | opening hp _ _ =>
    obtain ⟨f, hf, h⟩ := hs.of_operand hp
    exact .inr ⟨.inl rfl, f, List.mem_cons_of_mem _ hf, h⟩
  | misplaced _ _ _ _ h => exact h.hasHole (.inl rfl)
  | operator hp h => exact h.hasHole (hs.of_operator hp)
  | tooDeep | innerOpening | innerClosing => exact .inl trivial
  | skipped => exact .inl rfl
  | passed | ignored => exact hs

/-! ## Errors make holes -/

theorem Yields.first_error {dice dice' : Nat} {error : ParseError} {x : Option Expr}
    (h : Yields limits t dice (error :: errors) x dice') : x = none ∧ ∀ text, error ≠ .trailingToken text := by
  obtain ⟨e, h, -⟩ | ⟨error', hmem, h, hx⟩ := h.errors_eq
  · cases h
  · cases h
    refine ⟨hx, ?_⟩
    rintro text rfl
    exact trailingToken_not_mem_faults _ _ _ hmem

/-- Where no group is open, a token after the operand `read` that is no operator is left over. -/
structure Ends (s : State) (read : Option Expr) (t : Token) (error : ParseError) (s' : State) : Prop where
  outer_eq : s.outer = []
  ne_additive : t.kind ≠ .additive
  ne_multiplicative : t.kind ≠ .multiplicative
  error_eq : error = .trailingToken t.text
  phase_eq : s'.phase = .done (s.frame.total read)

theorem Continues.first_error {blamed : Bool} {error : ParseError}
    (h : Continues s read blamed t (error :: errors) s') :
    (s'.HasHole ∧ ∀ text, error ≠ .trailingToken text) ∨ Ends s read t error s' ∧ errors = [] := by
  generalize hes : error :: errors = es at h
  cases h with
  | additive _ ho =>
    obtain ⟨-, -, rfl, -⟩ | ⟨-, rfl, rfl⟩ := operator_eq ho
    · cases hes
    · cases hes
      exact .inl ⟨.inr ⟨.inl rfl, _, List.mem_cons_self, .inl (.inr rfl)⟩, by simp⟩
  | multiplicative _ ho =>
    obtain ⟨-, -, rfl, -⟩ | ⟨-, rfl, rfl⟩ := operator_eq ho
    · cases hes
    · cases hes
      exact .inl ⟨.inr ⟨.inl rfl, _, List.mem_cons_self, .inr (.inr rfl)⟩, by simp⟩
  | closing _ _ => cases hes
  | last hadd hmul _ =>
    cases houter : s.outer with
    | cons f fs =>
      have htree : s.tree read = none := by simp [State.tree, houter]
      have herror : error = .unmatchedParenthesis := by
        simp only [State.unmatched, houter, List.length_cons, List.replicate_succ, List.cons_append] at hes
        cases hes
        rfl
      exact .inl ⟨.inl htree, by simp [herror]⟩
    | nil =>
      have htree : s.tree read = s.frame.total read := by simp [State.tree, houter]
      simp only [State.unmatched, houter, List.length_nil, List.replicate_zero, List.nil_append] at hes
      cases blamed with
      | true => cases hes
      | false =>
        cases hes
        exact .inr ⟨⟨houter, hadd, hmul, rfl, by rw [← htree]⟩, rfl⟩

theorem Steps.first_error {error : ParseError} (h : Steps limits s t (error :: errors) s') :
    (s'.HasHole ∧ ∀ text, error ≠ .trailingToken text) ∨
      ∃ read, s.phase = .operator read ∧ Ends s read t error s' ∧ errors = [] := by
  cases h with
  | operand _ h =>
    obtain ⟨rfl, hne⟩ := h.first_error
    exact .inl ⟨.inl rfl, hne⟩
  | tooDeep _ _ _ => exact .inl ⟨.inl trivial, by simp⟩
  | misplaced _ _ _ _ h => exact .inl ⟨h.hasHole (.inl rfl), by simp⟩
  | @operator read _ _ hp h => exact h.first_error.imp_right fun h => ⟨read, hp, h⟩

/-! ## The three ends -/

theorem State.HasHole.finish_eq_none (h : s.HasHole) : s.finish.2 = none := by
  unfold State.finish
  split
  · rfl
  · next read hp => exact State.tree_eq_none (h.of_operator hp)
  · rfl
  · next tree hp => exact h.of_done hp

/-- The first step with an error. -/
theorem exists_first_error {error : ParseError} {last : State} (h : s.run limits ts = (error :: errors, last)) :
    ∃ us t vs s₁ es s₂ fs, ts = us ++ t :: vs ∧ s.run limits us = ([], s₁) ∧ Steps limits s₁ t (error :: es) s₂ ∧
      s₂.run limits vs = (fs, last) ∧ errors = es ++ fs := by
  induction ts generalizing s with
  | nil => cases h
  | cons t ts ih =>
    rcases hstep : s.step limits t with ⟨_ | ⟨error', es⟩, s₁⟩
    · simp only [State.run, hstep, List.nil_append] at h
      obtain ⟨us, u, vs, s₂, es, s₃, fs, rfl, hus, hu, hvs⟩ := ih h
      exact ⟨t :: us, u, vs, s₂, es, s₃, fs, rfl, State.run_cons_eq_nil.2 ⟨s₁, hstep, hus⟩, hu, hvs⟩
    · simp only [State.run, hstep, List.cons_append] at h
      cases h
      exact ⟨[], t, ts, s, es, s₁, _, rfl, rfl, steps_of_step hstep, rfl, rfl⟩

/-- The tokens before `t` are accepted as `e`, and `t` is no operator that could go on with them. -/
def LeavesOver (limits : Limits) (e : Expr) (t : Token) (ts : List Token) : Prop :=
  ∃ us vs, ts = us ++ t :: vs ∧ parse limits us = .ok e ∧ t.kind ≠ .additive ∧ t.kind ≠ .multiplicative

theorem collect_of_leavesOver {e : Expr} (h : LeavesOver limits e t ts) :
    collect limits ts = ([.trailingToken t.text], some e) := by
  obtain ⟨us, vs, rfl, hparse, hadd, hmul⟩ := h
  obtain ⟨-, s, read, hrun, hp, houter, htotal⟩ := collect_eq_ok.1 (parse_eq_ok.1 hparse)
  have hstep : s.step limits t = ([.trailingToken t.text], { s with phase := .done (some e) }) := by
    simp only [State.step, hp]
    unfold State.continueWith
    split
    · next hk => exact absurd hk hadd
    · next hk => exact absurd hk hmul
    · simp [houter, State.unmatched, State.tree, htotal]
  have hdone : State.run limits { s with phase := .done (some e) } vs = ([], { s with phase := .done (some e) }) :=
    run_done rfl vs
  rw [collect_of_run (by simp) (State.run_append_of_eq hrun (State.run_cons_of_eq hstep hdone))]
  simp [State.finish]

/-- Without an error there is a value. -/
theorem exists_total_of_run (h : State.run limits {} ts = ([], s)) (hp : s.phase = .operator read) :
    ∃ e, s.frame.total read = some e := by
  obtain ⟨⟨-, hframe, hphase, -⟩, -, -⟩ := hasRead_run h
  rw [hp] at hphase
  cases hphase with
  | operator he =>
    obtain ⟨x, hx, -, -⟩ := hframe.exists_total he
    exact ⟨x, hx⟩

theorem collect_cases (limits : Limits) (ts : List Token) :
    (∃ e, collect limits ts = ([], some e)) ∨ (∃ e t, LeavesOver limits e t ts) ∨
      ∃ error later, collect limits ts = (error :: later, none) ∧ ∀ text, error ≠ .trailingToken text := by
  by_cases hts : ts = []
  · subst hts
    exact .inr (.inr ⟨.empty, [], rfl, by simp⟩)
  rcases hrun : State.run limits {} ts with ⟨_ | ⟨error, later⟩, s⟩
  · rw [collect_of_run hts hrun]
    obtain ⟨-, -, hp | ⟨read, hp⟩⟩ := hasRead_run hrun
    · exact .inr (.inr ⟨.unexpectedEnd, s.unmatched, by simp [State.finish, hp], by simp⟩)
    · cases houter : s.outer with
      | nil =>
        obtain ⟨e, htotal⟩ := exists_total_of_run hrun hp
        exact .inl ⟨e, by simp [State.finish, hp, State.unmatched, State.tree, houter, htotal]⟩
      | cons f fs =>
        refine .inr (.inr ⟨.unmatchedParenthesis, List.replicate fs.length .unmatchedParenthesis, ?_, by simp⟩)
        simp [State.finish, hp, State.unmatched, State.tree, houter, List.replicate_succ]
  · obtain ⟨us, t, vs, s₁, es, s₂, fs, rfl, hus, hstep, hvs, rfl⟩ := exists_first_error hrun
    rcases hstep.first_error with ⟨hhole, hne⟩ | ⟨read, hp, hends, -⟩
    · have htree : s.finish.2 = none := by
        have hlast : (s₂.run limits vs).2.HasHole := run_preserves Steps.hasHole hhole
        rw [hvs] at hlast
        exact hlast.finish_eq_none
      refine .inr (.inr ⟨error, es ++ fs ++ s.finish.1, ?_, hne⟩)
      rw [collect_of_run hts hrun, htree]
      rfl
    · obtain ⟨e, htotal⟩ := exists_total_of_run hus hp
      have hne : us ≠ [] := by
        rintro rfl
        cases hus
        cases hp
      have hparse : parse limits us = .ok e :=
        parse_eq_ok.2 (collect_eq_ok.2 ⟨hne, s₁, read, hus, hp, hends.outer_eq, htotal⟩)
      exact .inr (.inl ⟨e, t, us, vs, rfl, hparse, hends.ne_additive, hends.ne_multiplicative⟩)

/-- **There is a tree if and only if the tokens are accepted, or those before a token that is left over.** The tree is
that of the accepted tokens, and the token that is left over is the only error. In all other cases the first error is of
another kind. -/
theorem collect_tree_iff (limits : Limits) (ts : List Token) :
    (∀ e, (collect limits ts).2 = some e ∧ (collect limits ts).1 ≠ [] ↔ ∃ t, LeavesOver limits e t ts) ∧
    (∀ e t, LeavesOver limits e t ts → (collect limits ts).1 = [.trailingToken t.text]) ∧
    (∀ e, collect limits ts = ([], some e) ↔ parse limits ts = .ok e) ∧
    ((∀ e t, ¬ LeavesOver limits e t ts) → (∀ e, parse limits ts ≠ .ok e) →
      ∃ error later, collect limits ts = (error :: later, none) ∧ ∀ text, error ≠ .trailingToken text) := by
  refine ⟨fun e => ⟨fun ⟨htree, herrors⟩ => ?_, fun ⟨t, h⟩ => ?_⟩, fun e t h => ?_, fun e => parse_eq_ok.symm,
    fun hover hparse => ?_⟩
  · rcases collect_cases limits ts with ⟨e', h⟩ | ⟨e', t, h⟩ | ⟨error, later, h, -⟩
    · exact absurd (congrArg Prod.fst h) herrors
    · rw [collect_of_leavesOver h] at htree
      cases htree
      exact ⟨t, h⟩
    · rw [h] at htree
      cases htree
  · simp [collect_of_leavesOver h]
  · rw [collect_of_leavesOver h]
  · rcases collect_cases limits ts with ⟨e, h⟩ | ⟨e, t, h⟩ | h
    · exact absurd (parse_eq_ok.2 h) (hparse e)
    · exact absurd h (hover e t)
    · exact h

/-- The tokens of `2 * (d6 - 1)`. -/
def closedOnce : List Token :=
  [⟨.number, "2"⟩, ⟨.multiplicative, "*"⟩, ⟨.paren, "("⟩, ⟨.dice, "1d6"⟩, ⟨.additive, "-"⟩, ⟨.number, "1"⟩,
    ⟨.paren, ")"⟩]

/-- The tokens of `2 * (d6 - 1)) + `. -/
def closedTwice : List Token :=
  closedOnce ++ [⟨.paren, ")"⟩, ⟨.additive, "+"⟩]

/-- The list that is left over has a tree, and the same list without its first token has none. -/
theorem closedTwice_ends :
    LeavesOver ⟨1, 1⟩ (.binary .mul (.const 2) (.binary .sub (.dice 1 6) (.const 1))) ⟨.paren, ")"⟩ closedTwice ∧
    (collect ⟨1, 1⟩ closedTwice).1 = [.trailingToken ")"] ∧
    (∀ e t, ¬ LeavesOver ⟨1, 1⟩ e t closedTwice.tail) ∧ (∀ e, parse ⟨1, 1⟩ closedTwice.tail ≠ .ok e) ∧
    ∃ error later, collect ⟨1, 1⟩ closedTwice.tail = (error :: later, none) ∧
      ∀ text, error ≠ .trailingToken text := by
  have hparse : parse ⟨1, 1⟩ closedOnce = .ok (.binary .mul (.const 2) (.binary .sub (.dice 1 6) (.const 1))) :=
    parse_eq_ok.2 (by decide +kernel)
  have hover : LeavesOver ⟨1, 1⟩ (.binary .mul (.const 2) (.binary .sub (.dice 1 6) (.const 1))) ⟨.paren, ")"⟩
      closedTwice := ⟨closedOnce, [⟨.additive, "+"⟩], rfl, hparse, by decide, by decide⟩
  have htree : (collect ⟨1, 1⟩ closedTwice.tail).2 = none := by decide +kernel
  have hno (e : Expr) (t : Token) : ¬ LeavesOver ⟨1, 1⟩ e t closedTwice.tail := by
    intro h
    rw [collect_of_leavesOver h] at htree
    cases htree
  have hrejected (e : Expr) : parse ⟨1, 1⟩ closedTwice.tail ≠ .ok e := by
    intro h
    rw [parse_eq_ok.1 h] at htree
    cases htree
  have hleft := (collect_tree_iff ⟨1, 1⟩ closedTwice).2.1 _ _ hover
  exact ⟨hover, hleft, hno, hrejected, (collect_tree_iff ⟨1, 1⟩ closedTwice.tail).2.2.2 hno hrejected⟩

end DiceNotation.Parser
