import DiceNotation.Proofs.Acceptance

/-!
# Reading on after an error

`Reads limits n ts depth dice errors x dice'` says how the machine reads the tokens of an `n` of the grammar, whatever
it has read before: the errors it reports, the value, which is a hole where an error left no operand, and how the number
of dice goes on. Each rule of the grammar has its lemma, so a list of tokens is read along its derivation, and the
errors of the whole are those of its parts in order (`Reads.chain`). A group within the depth limit is read like its
content (`Reads.group`). One beyond the limit is passed over up to its own closing parenthesis (`run_skipping`) and is a
single error (`Reads.tooDeep`).
-/

namespace DiceNotation.Parser

open Grammar

variable {limits : Limits}

theorem isSome_combine {l r : Option Expr} (op : Operator) :
    (combine l (some op) r).isSome = true ↔ l.isSome = true ∧ r.isSome = true := by
  cases l <;> cases r <;> simp [combine]

namespace State

theorem run_singleton (s : State) (t : Token) : s.run limits [t] = s.step limits t := by
  simp [run]

theorem run_append_of_eq {s s₁ s₂ : State} {ts us : List Token} {es fs : List ParseError}
    (h₁ : s.run limits ts = (es, s₁)) (h₂ : s₁.run limits us = (fs, s₂)) :
    s.run limits (ts ++ us) = (es ++ fs, s₂) := by
  rw [run_append, h₁, h₂]

theorem run_cons_of_eq {s s₁ s₂ : State} {t : Token} {us : List Token} {es fs : List ParseError}
    (h₁ : s.step limits t = (es, s₁)) (h₂ : s₁.run limits us = (fs, s₂)) :
    s.run limits (t :: us) = (es ++ fs, s₂) := by
  simp only [run, h₁, h₂]

end State

open State

/-- The two levels of operators: those of a kind make an `n` out of an `n` and an `m`. -/
inductive Joins : Token.Kind → (n m : Nonterminal) → Prop
  | multiplicative : Joins .multiplicative .factor .primary
  | additive : Joins .additive .expr .factor

theorem Joins.kind_ne {kind : Token.Kind} {n m : Nonterminal} (h : Joins kind n m) : kind ≠ .paren := by
  cases h <;> decide

/-! ## Parts of an expression -/

/-- What a frame and the operand `read` after it hold where a part with the value `x` ends that began at `before`. -/
def Leaves (before after : Frame) (read x : Option Expr) : Nonterminal → Prop
  | .expr => after.total read = x
  | .factor => after.sum = before.sum ∧ after.term read = x
  | .primary => after = before ∧ read = x

def Reads (limits : Limits) (n : Nonterminal) (ts : List Token) (depth dice : Nat) (errors : List ParseError)
    (x : Option Expr) (dice' : Nat) : Prop :=
  ∀ (f₀ : Frame) (outer : List Frame), IsFresh n f₀ → outer.length = depth →
    ∃ f read, Leaves f₀ f read x n ∧
      run limits ⟨f₀, outer, .operand, dice⟩ ts = (errors, ⟨f, outer, .operator read, dice'⟩)

namespace Reads

variable {ts us : List Token} {o c t : Token} {op : Operator} {depth dice dice₁ dice₂ : Nat} {es fs : List ParseError}
  {x y : Option Expr}

theorem of_step (h : ∀ (f : Frame) (outer : List Frame),
    step limits ⟨f, outer, .operand, dice⟩ t = (es, ⟨f, outer, .operator x, dice₁⟩)) :
    Reads limits .primary [t] depth dice es x dice₁ := by
  intro f₀ outer _ _
  exact ⟨f₀, x, ⟨rfl, rfl⟩, by rw [run_singleton, h]⟩

/-- An operand within the limits is read without an error. -/
theorem of_operand {e : Expr} {before : Nat} (ht : Operand t e)
    (hdice : saturate (before + e.diceCount) ≤ limits.maxDice) :
    Reads limits .primary [t] depth (saturate before) [] (some e) (saturate (before + e.diceCount)) := by
  refine of_step fun f outer => step_of_moves ?_
  cases ht with
  | const hk hn hv => exact .const rfl (.const hk hn hv)
  | dice hk htext hn hm hcount hsides h0 =>
    rw [Expr.diceCount, ← countDice_saturate] at hdice ⊢
    exact .dice rfl (.dice hk htext hn hm hcount hsides h0) hdice

theorem factor (h : Reads limits .primary ts depth dice es x dice₁) :
    Reads limits .factor ts depth dice es x dice₁ := by
  intro f₀ outer hf hdepth
  obtain ⟨f, read, ⟨rfl, rfl⟩, hrun⟩ := h f₀ outer trivial hdepth
  have hf : f.product = none := hf
  exact ⟨f, read, ⟨rfl, by rw [Frame.term, hf]; rfl⟩, hrun⟩

theorem expr (h : Reads limits .factor ts depth dice es x dice₁) :
    Reads limits .expr ts depth dice es x dice₁ := by
  intro f₀ outer hf hdepth
  obtain rfl : f₀ = {} := hf
  obtain ⟨f, read, ⟨hsum, rfl⟩, hrun⟩ := h {} outer rfl hdepth
  exact ⟨f, read, by rw [Leaves, Frame.total, hsum]; rfl, hrun⟩

theorem multiply (hl : Reads limits .factor ts depth dice es x dice₁) (ht : t.IsOperator .multiplicative op)
    (hr : Reads limits .primary us depth dice₁ fs y dice₂) :
    Reads limits .factor (ts ++ t :: us) depth dice (es ++ fs) (combine x (some op) y) dice₂ := by
  intro f₀ outer hf hdepth
  obtain ⟨f, read, ⟨hsum, rfl⟩, hrun⟩ := hl f₀ outer hf hdepth
  obtain ⟨f', read', ⟨rfl, rfl⟩, hrun'⟩ := hr ⟨f.sum, some ⟨f.term read, some op⟩⟩ outer trivial hdepth
  have hop : Moves limits ⟨f, outer, .operator read, dice₁⟩ t
      ⟨⟨f.sum, some ⟨f.term read, some op⟩⟩, outer, .operand, dice₁⟩ := .multiplicative rfl ht
  exact ⟨⟨f.sum, some ⟨f.term read, some op⟩⟩, read', ⟨hsum, rfl⟩,
    run_append_of_eq hrun (run_cons_of_eq (step_of_moves hop) hrun')⟩

theorem add (hl : Reads limits .expr ts depth dice es x dice₁) (ht : t.IsOperator .additive op)
    (hr : Reads limits .factor us depth dice₁ fs y dice₂) :
    Reads limits .expr (ts ++ t :: us) depth dice (es ++ fs) (combine x (some op) y) dice₂ := by
  intro f₀ outer hf hdepth
  obtain ⟨f, read, rfl, hrun⟩ := hl f₀ outer hf hdepth
  obtain ⟨f', read', ⟨hsum, rfl⟩, hrun'⟩ := hr ⟨some ⟨f.total read, some op⟩, none⟩ outer rfl hdepth
  have hop : Moves limits ⟨f, outer, .operator read, dice₁⟩ t
      ⟨⟨some ⟨f.total read, some op⟩, none⟩, outer, .operand, dice₁⟩ := .additive rfl ht
  refine ⟨f', read', ?_, run_append_of_eq hrun (run_cons_of_eq (step_of_moves hop) hrun')⟩
  rw [Leaves, Frame.total, hsum]
  rfl

theorem chain {kind : Token.Kind} {n m : Nonterminal} (hk : Joins kind n m)
    (hl : Reads limits n ts depth dice es x dice₁) (ht : t.IsOperator kind op)
    (hr : Reads limits m us depth dice₁ fs y dice₂) :
    Reads limits n (ts ++ t :: us) depth dice (es ++ fs) (combine x (some op) y) dice₂ := by
  cases hk with
  | multiplicative => exact hl.multiply ht hr
  | additive => exact hl.add ht hr

theorem group (ho : o.isOpening = true) (hdepth : depth < limits.maxDepth)
    (h : Reads limits .expr ts (depth + 1) dice es x dice₁) (hc : c.isClosing = true) :
    Reads limits .primary (o :: (ts ++ [c])) depth dice es x dice₁ := by
  rintro f₀ outer - rfl
  obtain ⟨f, read, rfl, hrun⟩ := h {} (f₀ :: outer) rfl rfl
  have hopen : Moves limits ⟨f₀, outer, .operand, dice⟩ o ⟨{}, f₀ :: outer, .operand, dice⟩ := .opening rfl ho hdepth
  have hclose : Moves limits ⟨f, f₀ :: outer, .operator read, dice₁⟩ c ⟨f₀, outer, .operator (f.total read), dice₁⟩ :=
    .closing rfl hc rfl
  have hrun := run_cons_of_eq (step_of_moves hopen) (run_append_of_eq hrun hclose.run)
  rw [List.nil_append, List.append_nil] at hrun
  exact ⟨f₀, f.total read, ⟨rfl, rfl⟩, hrun⟩

end Reads

/-! ## Groups beyond the limit -/

section Skipping

variable {α : Type} {leaf : Token → α → Prop} {join : α → Operator → α → α} {n : Nonterminal} {ts : List Token} {a : α}
  (hleaf : ∀ {t a}, leaf t a → t.kind ≠ .paren)

theorem step_skipping (limits : Limits) {t : Token} (ht : t.kind ≠ .paren) (f : Frame) (outer : List Frame)
    (dice inner : Nat) :
    step limits ⟨f, outer, .skipping inner, dice⟩ t = ([], ⟨f, outer, .skipping inner, dice⟩) := by
  simp [step, Token.isOpening, Token.isClosing, ht]

include hleaf

/-- A group inside one that is passed over is closed again before that one is. -/
theorem run_skipping (h : Derives leaf join n ts a) (f : Frame) (outer : List Frame) (dice inner : Nat) :
    run limits ⟨f, outer, .skipping inner, dice⟩ ts = ([], ⟨f, outer, .skipping inner, dice⟩) := by
  induction h generalizing inner with
  | leaf h => rw [run_singleton, step_skipping limits (hleaf h)]
  | @group o c ts a ho _ hc ih =>
    have hopen : step limits ⟨f, outer, .skipping inner, dice⟩ o = ([], ⟨f, outer, .skipping (inner + 1), dice⟩) := by
      simp [step, ho]
    have hclose : step limits ⟨f, outer, .skipping (inner + 1), dice⟩ c = ([], ⟨f, outer, .skipping inner, dice⟩) := by
      simp [step, Token.not_isOpening_of_isClosing hc, hc]
    exact run_cons_of_eq hopen (run_append_of_eq (ih (inner + 1)) (by rw [run_singleton, hclose]))
  | factor _ ih | expr _ ih => exact ih inner
  | multiply _ ht _ ihl ihr | add _ ht _ ihl ihr =>
    have hop := step_skipping limits (by rw [ht.1]; decide) f outer dice inner
    exact run_append_of_eq (ihl inner) (run_cons_of_eq hop (ihr inner))

theorem Reads.tooDeep {o c : Token} {depth dice : Nat} (ho : o.isOpening = true) (hdepth : limits.maxDepth ≤ depth)
    (h : Derives leaf join n ts a) (hc : c.isClosing = true) :
    Reads limits .primary (o :: (ts ++ [c])) depth dice [.nestingTooDeep limits.maxDepth] none dice := by
  rintro f₀ outer - rfl
  have hopen : step limits ⟨f₀, outer, .operand, dice⟩ o =
      ([.nestingTooDeep limits.maxDepth], ⟨f₀, outer, .skipping 0, dice⟩) := by
    simp [step, kind_of_isOpening ho, ho, openGroup, hdepth]
  have hclose : step limits ⟨f₀, outer, .skipping 0, dice⟩ c = ([], ⟨f₀, outer, .operator none, dice⟩) := by
    simp [step, Token.not_isOpening_of_isClosing hc, hc]
  refine ⟨f₀, none, ⟨rfl, rfl⟩, ?_⟩
  exact run_cons_of_eq hopen (run_append_of_eq (run_skipping hleaf h f₀ outer dice 0) (by rw [run_singleton, hclose]))

end Skipping

/-! ## Whole token lists -/

theorem collect_of_run {ts : List Token} {errors : List ParseError} {s : State} (hts : ts ≠ [])
    (h : State.run limits {} ts = (errors, s)) : collect limits ts = (errors ++ s.finish.1, s.finish.2) := by
  cases ts with
  | nil => exact absurd rfl hts
  | cons t ts => simp only [collect, h]

theorem Reads.collect_eq {ts : List Token} {errors : List ParseError} {x : Option Expr} {dice : Nat}
    (h : Reads limits .expr ts 0 0 errors x dice) (hts : ts ≠ []) : collect limits ts = (errors, x) := by
  obtain ⟨f, read, rfl, hrun⟩ := h {} [] rfl rfl
  rw [collect_of_run hts hrun]
  simp [finish, unmatched, tree]

theorem parse_eq_error {ts : List Token} {errors : List ParseError} {x : Option Expr}
    (h : collect limits ts = (errors, x)) (hno : ∀ e, parse limits ts ≠ .ok e) : parse limits ts = .error errors := by
  unfold parse at hno ⊢
  rw [h] at hno ⊢
  cases errors with
  | nil =>
    cases x with
    | none => rfl
    | some e => exact absurd rfl (hno e)
  | cons error errors => rfl

end DiceNotation.Parser
