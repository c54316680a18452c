import DiceNotation.Proofs.Moves

/-!
# What the parser accepts

* **Completeness** (`run_of_spells`): the machine reads the tokens of a derivation without an error and ends with its
  tree, if the nesting and the dice stay within the limits; by induction on the derivation.
* **Soundness** (`HasRead`): every move keeps that the pending operations of the open groups, the operand just read and
  the number of dice are those of derivations of the tokens read so far.

So the accepted token lists are those of the grammar within the limits, and since the machine is deterministic a list
has at most one tree (`parse_eq_ok_iff`, `spells_unique`).
-/

namespace DiceNotation.Parser

open Grammar

variable {limits : Limits}

/-! ## Counting dice -/

/-- The number of dice in a 64-bit word that stays at its greatest value. -/
def saturate (n : Nat) : Nat :=
  min n 0xffffffffffffffff

theorem saturate_le_of_add {m n d : Nat} (h : saturate (m + n) ≤ d) : saturate m ≤ d := by
  unfold saturate at h ⊢
  omega

theorem countDice_saturate (n : Nat) (count : UInt32) :
    State.countDice (saturate n) count = saturate (n + count.toNat) := by
  unfold State.countDice saturate
  omega

/-! ## Completeness -/

/-- What a frame holds where a part of the group begins. -/
def IsFresh : Nonterminal → Frame → Prop
  | .expr, f => f = {}
  | .factor, f => f.product = none
  | .primary, _ => True

/-- What a frame and the operand `read` after it hold where a part with the value `e` ends that began at `before`. -/
def Completes (before after : Frame) (read : Option Expr) (e : Expr) : Nonterminal → Prop
  | .expr => after.total read = some e
  | .factor => after.sum = before.sum ∧ after.term read = some e
  | .primary => after = before ∧ read = some e

theorem Moves.run {s s' : State} {t : Token} (h : Moves limits s t s') : s.run limits [t] = ([], s') :=
  State.run_cons_eq_nil.2 ⟨s', State.step_of_moves h, rfl⟩

theorem run_trans {s s₁ s₂ : State} {ts us : List Token} (h₁ : s.run limits ts = ([], s₁))
    (h₂ : s₁.run limits us = ([], s₂)) : s.run limits (ts ++ us) = ([], s₂) := by
  rw [State.run_append, h₁, h₂]
  rfl

/-- The tokens of a derivation are read without an error. -/
theorem run_of_spells {n : Nonterminal} {ts : List Token} {e : Expr} (h : Spells n ts e) (f₀ : Frame)
    (outer : List Frame) (k : Nat) (hf : IsFresh n f₀) (hdepth : deepest outer.length ts ≤ limits.maxDepth)
    (hdice : saturate (k + e.diceCount) ≤ limits.maxDice) :
    ∃ f read, Completes f₀ f read e n ∧
      State.run limits ⟨f₀, outer, .operand, saturate k⟩ ts =
        ([], ⟨f, outer, .operator read, saturate (k + e.diceCount)⟩) := by
  induction h generalizing f₀ outer k with
  | @leaf t e ht =>
    refine ⟨f₀, some e, ⟨rfl, rfl⟩, Moves.run ?_⟩
    cases ht with
    | const hk hn hv => exact .const rfl (.const hk hn hv)
    | dice hk htext hn hm hcount hsides h0 =>
      rw [Expr.diceCount, ← countDice_saturate] at hdice ⊢
      exact .dice rfl (.dice hk htext hn hm hcount hsides h0) hdice
  | @group o c ts e ho h hc ih =>
    rw [h.deepest_group Operand.kind_ne ho hc] at hdepth
    have hlt : outer.length < limits.maxDepth := Nat.le_trans (le_deepest _ ts) hdepth
    obtain ⟨f, read, htotal, hrun⟩ := ih {} (f₀ :: outer) k rfl hdepth hdice
    have hopen : Moves limits ⟨f₀, outer, .operand, saturate k⟩ o ⟨{}, f₀ :: outer, .operand, saturate k⟩ :=
      .opening rfl ho hlt
    have hclose : Moves limits ⟨f, f₀ :: outer, .operator read, saturate (k + e.diceCount)⟩ c
        ⟨f₀, outer, .operator (f.total read), saturate (k + e.diceCount)⟩ := .closing rfl hc rfl
    rw [htotal] at hclose
    exact ⟨f₀, some e, ⟨rfl, rfl⟩, run_trans hopen.run (run_trans hrun hclose.run)⟩
  | factor _ ih =>
    obtain ⟨f, read, ⟨rfl, rfl⟩, hrun⟩ := ih f₀ outer k trivial hdepth hdice
    refine ⟨f, _, ⟨rfl, ?_⟩, hrun⟩
    rw [Frame.term, hf]
    rfl
  | @multiply ts us t op a b hl ht _ ihl ihr =>
    rw [hl.deepest_chain Operand.kind_ne ht (by decide)] at hdepth
    obtain ⟨hdepthl, hdepthr⟩ := Nat.max_le.1 hdepth
    rw [Expr.diceCount, ← Nat.add_assoc] at hdice ⊢
    have hdicel := saturate_le_of_add hdice
    obtain ⟨f, read, ⟨hsum, hterm⟩, hrun⟩ := ihl f₀ outer k hf hdepthl hdicel
    obtain ⟨f', read', ⟨rfl, rfl⟩, hrun'⟩ := ihr ⟨f.sum, some ⟨f.term read, some op⟩⟩ outer _ trivial hdepthr hdice
    have hop : Moves limits ⟨f, outer, .operator read, saturate (k + a.diceCount)⟩ t
        ⟨⟨f.sum, some ⟨f.term read, some op⟩⟩, outer, .operand, saturate (k + a.diceCount)⟩ := .multiplicative rfl ht
    refine ⟨⟨f.sum, some ⟨f.term read, some op⟩⟩, some b, ⟨hsum, ?_⟩, run_trans hrun (run_trans hop.run hrun')⟩
    show combine (f.term read) (some op) (some b) = _
    rw [hterm]
    rfl
  | expr _ ih =>
    obtain rfl : f₀ = {} := hf
    obtain ⟨f, read, ⟨hsum, hterm⟩, hrun⟩ := ih {} outer k rfl hdepth hdice
    refine ⟨f, read, ?_, hrun⟩
    rw [Completes, Frame.total, hsum, hterm]
    rfl
  | @add ts us t op a b hl ht _ ihl ihr =>
    rw [hl.deepest_chain Operand.kind_ne ht (by decide)] at hdepth
    obtain ⟨hdepthl, hdepthr⟩ := Nat.max_le.1 hdepth
    rw [Expr.diceCount, ← Nat.add_assoc] at hdice ⊢
    have hdicel := saturate_le_of_add hdice
    obtain ⟨f, read, htotal, hrun⟩ := ihl f₀ outer k hf hdepthl hdicel
    obtain ⟨f', read', ⟨hsum, hterm⟩, hrun'⟩ := ihr ⟨some ⟨f.total read, some op⟩, none⟩ outer _ rfl hdepthr hdice
    have hop : Moves limits ⟨f, outer, .operator read, saturate (k + a.diceCount)⟩ t
        ⟨⟨some ⟨f.total read, some op⟩, none⟩, outer, .operand, saturate (k + a.diceCount)⟩ := .additive rfl ht
    refine ⟨f', read', ?_, run_trans hrun (run_trans hop.run hrun')⟩
    rw [Completes, Frame.total, hsum, hterm, htotal]
    rfl

/-! ## Soundness -/

/-- An operation that waits for its right operand, whose tokens so far are a part of the kind `n` and an operator. -/
inductive Pending.HasRead (n : Nonterminal) (kind : Token.Kind) : Option Pending → List Token → Nat → Prop
  | none : HasRead n kind none [] 0
  | some {ts : List Token} {t : Token} {e : Expr} {op : Operator} :
      Spells n ts e → t.IsOperator kind op → HasRead n kind (some ⟨some e, some op⟩) (ts ++ [t]) e.diceCount

/-- The tokens of a group before its current operand, and how many dice they have. -/
inductive Frame.HasRead : Frame → List Token → Nat → Prop
  | mk {sum product : Option Pending} {ts us : List Token} {m n : Nat} :
      Pending.HasRead .expr .additive sum ts m → Pending.HasRead .factor .multiplicative product us n →
        HasRead ⟨sum, product⟩ (ts ++ us) (m + n)

/-- The tokens of the groups around the current one, each followed by the parenthesis that opens the next. -/
inductive OuterHasRead : List Frame → List Token → Nat → Prop
  | nil : OuterHasRead [] [] 0
  | cons {f : Frame} {fs : List Frame} {ts us : List Token} {t : Token} {m n : Nat} :
      OuterHasRead fs ts m → f.HasRead us n → t.isOpening = true → OuterHasRead (f :: fs) (ts ++ us ++ [t]) (m + n)

/-- The tokens of the current operand. -/
inductive Phase.HasRead : Phase → List Token → Nat → Prop
  | operand : HasRead .operand [] 0
  | operator {ts : List Token} {e : Expr} : Spells .primary ts e → HasRead (.operator (some e)) ts e.diceCount

/-- All tokens so far, in the parts that the state still holds. -/
inductive State.HasRead : State → List Token → Prop
  | mk {s : State} {ts us vs : List Token} {k m n : Nat} :
      OuterHasRead s.outer ts k → s.frame.HasRead us m → s.phase.HasRead vs n → s.dice = saturate (k + m + n) →
        s.HasRead (ts ++ us ++ vs)

namespace Frame.HasRead

variable {f : Frame} {ts us : List Token} {n : Nat} {e : Expr}

/-- The pending product of a frame takes in the operand. -/
theorem exists_term (h : f.HasRead ts n) (he : Spells .primary us e) :
    ∃ ts₁ ts₂ m x, ts = ts₁ ++ ts₂ ∧ Pending.HasRead .expr .additive f.sum ts₁ m ∧ f.term (some e) = some x ∧
      Spells .factor (ts₂ ++ us) x ∧ m + x.diceCount = n + e.diceCount := by
  cases h with
  | @mk sum product ts₁ ts₂ m k hsum hproduct =>
    cases hproduct with
    | none => exact ⟨ts₁, [], m, e, rfl, hsum, rfl, .factor he, rfl⟩
    | @some ts₂ t l op hl ht =>
      refine ⟨ts₁, ts₂ ++ [t], m, .binary op l e, rfl, hsum, rfl, ?_, ?_⟩
      · simpa using Derives.multiply hl ht he
      · rw [Expr.diceCount, Nat.add_assoc]

/-- The pending operations of a frame take in the operand. -/
theorem exists_total (h : f.HasRead ts n) (he : Spells .primary us e) :
    ∃ x, f.total (some e) = some x ∧ Spells .expr (ts ++ us) x ∧ x.diceCount = n + e.diceCount := by
  obtain ⟨ts₁, ts₂, m, x, rfl, hsum, hterm, hx, hdice⟩ := h.exists_term he
  unfold Frame.total
  rw [hterm]
  cases hf : f.sum with
  | none =>
    rw [hf] at hsum
    cases hsum
    exact ⟨x, rfl, by simpa using Derives.expr hx, by simpa using hdice⟩
  | some p =>
    rw [hf] at hsum
    cases hsum with
    | @some ts₁ t l op hl ht =>
      refine ⟨.binary op l x, rfl, ?_, hdice⟩
      simpa using Derives.add hl ht hx

end Frame.HasRead

theorem State.hasRead_of_eq {s : State} {ts us vs ws : List Token} {k m n : Nat} (houter : OuterHasRead s.outer ts k)
    (hframe : s.frame.HasRead us m) (hphase : s.phase.HasRead vs n) (hdice : s.dice = saturate (k + m + n))
    (hws : ws = ts ++ us ++ vs) : s.HasRead ws :=
  hws ▸ .mk houter hframe hphase hdice

/-- Every move reads its token. -/
theorem State.HasRead.move {s s' : State} {ts : List Token} {t : Token} (h : s.HasRead ts) (hm : Moves limits s t s') :
    s'.HasRead (ts ++ [t]) := by
  obtain ⟨houter, hframe, hphase, hdice⟩ := h
  cases hm with
  | const hp ht =>
    rw [hp] at hphase
    cases hphase
    exact hasRead_of_eq houter hframe (.operator (.leaf ht)) hdice (by simp)
  | dice hp ht hle =>
    rw [hp] at hphase
    cases hphase
    refine hasRead_of_eq houter hframe (.operator (.leaf ht)) ?_ (by simp)
    rw [hdice, countDice_saturate]
    rfl
  | opening hp ht hlt =>
    rw [hp] at hphase
    cases hphase
    exact hasRead_of_eq (.cons houter hframe ht) (.mk .none .none) .operand hdice (by simp)
  | additive hp ht =>
    rw [hp] at hphase
    cases hphase with
    | operator he =>
      obtain ⟨x, htotal, hx, hcount⟩ := hframe.exists_total he
      rw [htotal]
      refine hasRead_of_eq houter (.mk (.some hx ht) .none) .operand ?_ (by simp)
      rw [hdice, hcount, Nat.add_assoc]
      rfl
  | multiplicative hp ht =>
    rw [hp] at hphase
    cases hphase with
    | operator he =>
      obtain ⟨ts₁, ts₂, m', x, rfl, hsum, hterm, hx, hcount⟩ := hframe.exists_term he
      rw [hterm]
      refine hasRead_of_eq houter (.mk hsum (.some hx ht)) .operand ?_ (by simp)
      rw [hdice, hcount, Nat.add_assoc]
      rfl
  | closing hp ht ho =>
    rw [hp] at hphase
    cases hphase with
    | operator he =>
      obtain ⟨x, htotal, hx, hcount⟩ := hframe.exists_total he
      rw [htotal]
      rw [ho] at houter
      cases houter with
      | cons houter hf ht' =>
        refine hasRead_of_eq houter hf (.operator (.group ht' hx ht)) ?_ (by simp)
        rw [hdice, hcount, Nat.add_assoc]

theorem hasRead_start : State.HasRead {} [] :=
  State.hasRead_of_eq .nil (.mk .none .none) .operand rfl rfl

/-! ## The limits -/

theorem foldl_nest_le_deepest (depth : Nat) (ts : List Token) : ts.foldl nest depth ≤ deepest depth ts := by
  induction ts generalizing depth with
  | nil => exact Nat.le_refl depth
  | cons t ts ih => exact Nat.le_trans (ih _) (Nat.le_max_right _ _)

/-- The state counts the open groups and keeps within the limits. -/
structure Within (limits : Limits) (s : State) (ts : List Token) : Prop where
  length_outer : s.outer.length = ts.foldl nest 0
  nesting_le : nesting ts ≤ limits.maxDepth
  dice_le : s.dice ≤ limits.maxDice

theorem Moves.length_outer {s s' : State} {t : Token} (h : Moves limits s t s') :
    s'.outer.length = nest s.outer.length t := by
  cases h with
  | const _ ht | dice _ ht _ => exact (nest_of_kind_ne ht.kind_ne _).symm
  | opening _ ht _ => exact (nest_opening ht _).symm
  | additive _ ht | multiplicative _ ht => exact (nest_operator ht (by decide) _).symm
  | closing _ ht ho => rw [nest_closing ht, ho]; rfl

theorem Moves.length_outer_le {s s' : State} {t : Token} (h : Moves limits s t s')
    (hs : s.outer.length ≤ limits.maxDepth) : s'.outer.length ≤ limits.maxDepth := by
  cases h with
  | const | dice | additive | multiplicative => exact hs
  | opening _ _ hlt => exact hlt
  | closing _ _ ho => rw [ho] at hs; exact Nat.le_of_succ_le hs

theorem Moves.dice_le {s s' : State} {t : Token} (h : Moves limits s t s') (hs : s.dice ≤ limits.maxDice) :
    s'.dice ≤ limits.maxDice := by
  cases h with
  | const | opening | additive | multiplicative | closing => exact hs
  | dice _ _ hle => exact hle

theorem Within.move {s s' : State} {ts : List Token} {t : Token} (h : Within limits s ts) (hm : Moves limits s t s') :
    Within limits s' (ts ++ [t]) := by
  obtain ⟨hlength, hnesting, hdice⟩ := h
  have hopen : s.outer.length ≤ limits.maxDepth := by
    rw [hlength]
    exact Nat.le_trans (foldl_nest_le_deepest 0 ts) hnesting
  have hlast : nest (ts.foldl nest 0) t ≤ limits.maxDepth := by
    rw [← hlength, ← hm.length_outer]
    exact hm.length_outer_le hopen
  refine ⟨?_, ?_, hm.dice_le hdice⟩
  · rw [hm.length_outer, hlength, List.foldl_append]
    rfl
  · unfold nesting at hnesting ⊢
    rw [hlength] at hopen
    simp only [deepest_append, deepest]
    omega

theorem within_start (limits : Limits) : Within limits {} [] :=
  ⟨rfl, Nat.zero_le _, Nat.zero_le _⟩

/-! ## The accepted token lists -/

/-- What is known after a run without errors from the start. -/
theorem hasRead_run {s : State} {ts : List Token} (h : State.run limits {} ts = ([], s)) :
    s.HasRead ts ∧ Within limits s ts ∧ s.IsOpen := by
  obtain ⟨⟨hread, hwithin⟩, hopen⟩ :=
    State.run_induction (P := fun s ts => s.HasRead ts ∧ Within limits s ts) (fun h hm => ⟨h.1.move hm, h.2.move hm⟩)
      ⟨hasRead_start, within_start limits⟩ (.inl rfl) h
  exact ⟨hread, hwithin, hopen⟩

theorem parse_eq_ok {ts : List Token} {e : Expr} : parse limits ts = .ok e ↔ collect limits ts = ([], some e) := by
  unfold parse
  rcases collect limits ts with ⟨_ | ⟨error, errors⟩, _ | tree⟩ <;> simp

/-- A token list is accepted if and only if it is read without an error and ends within no group. -/
theorem collect_eq_ok {ts : List Token} {e : Expr} :
    collect limits ts = ([], some e) ↔
      ts ≠ [] ∧ ∃ s read, State.run limits {} ts = ([], s) ∧ s.phase = .operator read ∧ s.outer = [] ∧
        s.frame.total read = some e := by
  cases ts with
  | nil => simp [collect]
  | cons t ts =>
    rcases hr : State.run limits {} (t :: ts) with ⟨errors, s⟩
    simp only [collect, hr, Prod.mk.injEq, List.append_eq_nil_iff]
    constructor
    · rintro ⟨⟨rfl, hlast⟩, htree⟩
      obtain ⟨-, -, hopen⟩ := hasRead_run hr
      rcases hopen with hp | ⟨read, hp⟩
      · simp [State.finish, hp] at hlast
      · simp only [State.finish, hp, State.unmatched, List.replicate_eq_nil_iff, List.length_eq_zero_iff] at hlast
        simp only [State.finish, hp, State.tree, hlast, List.isEmpty_nil, ↓reduceIte] at htree
        exact ⟨by simp, s, read, ⟨rfl, rfl⟩, hp, hlast, htree⟩
    · rintro ⟨-, s', read, ⟨rfl, rfl⟩, hp, houter, htree⟩
      simp [State.finish, hp, State.unmatched, State.tree, houter, htree]

theorem parse_of_spells {ts : List Token} {e : Expr} (h : Spells .expr ts e) (hdepth : nesting ts ≤ limits.maxDepth)
    (hdice : saturate e.diceCount ≤ limits.maxDice) : parse limits ts = .ok e := by
  obtain ⟨f, read, htotal, hrun⟩ := run_of_spells h {} [] 0 rfl hdepth (by rwa [Nat.zero_add])
  exact parse_eq_ok.2 (collect_eq_ok.2 ⟨h.ne_nil, _, read, hrun, rfl, rfl, htotal⟩)

theorem spells_of_parse {ts : List Token} {e : Expr} (h : parse limits ts = .ok e) :
    Spells .expr ts e ∧ nesting ts ≤ limits.maxDepth ∧ saturate e.diceCount ≤ limits.maxDice := by
  obtain ⟨-, s, read, hrun, hp, houter, htotal⟩ := collect_eq_ok.1 (parse_eq_ok.1 h)
  obtain ⟨⟨houter', hframe, hphase, hdice⟩, hwithin, -⟩ := hasRead_run hrun
  rw [houter] at houter'
  cases houter'
  rw [hp] at hphase
  cases hphase with
  | operator he =>
    obtain ⟨x, hx, hspells, hcount⟩ := hframe.exists_total he
    obtain rfl : x = e := Option.some.inj (hx.symm.trans htotal)
    refine ⟨by simpa using hspells, hwithin.nesting_le, ?_⟩
    rw [hcount, ← Nat.zero_add (_ + _), ← Nat.add_assoc, ← hdice]
    exact hwithin.dice_le

/-- The machine can only end with one tree. -/
theorem spells_unique {ts : List Token} {e e' : Expr} (h : Spells .expr ts e) (h' : Spells .expr ts e') : e = e' := by
  have hall : ∀ {e}, Spells .expr ts e → parse ⟨nesting ts, 0xffffffffffffffff⟩ ts = .ok e := fun h =>
    parse_of_spells h (Nat.le_refl _) (Nat.min_le_right _ _)
  exact Except.ok.inj ((hall h).symm.trans (hall h'))

/-- **The parser accepts exactly the grammar within its limits**, and a token list has at most one tree. -/
theorem parse_eq_ok_iff (limits : Limits) (ts : List Token) :
    (∀ e, parse limits ts = .ok e ↔
      Spells .expr ts e ∧ nesting ts ≤ limits.maxDepth ∧ saturate e.diceCount ≤ limits.maxDice) ∧
    ∀ e e', Spells .expr ts e → Spells .expr ts e' → e = e' :=
  ⟨fun _ => ⟨spells_of_parse, fun ⟨h, hdepth, hdice⟩ => parse_of_spells h hdepth hdice⟩,
    fun _ _ h h' => spells_unique h h'⟩

end DiceNotation.Parser
