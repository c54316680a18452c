import DiceNotation.Proofs.Descent.Runs
import DiceNotation.Proofs.Holes

/-!
# Descent and machine agree

The calls of a descent are the groups of the machine that reads the same tokens (`frames`): a chain that waits for its
next operand is an operation that waits for it. So from any point of a descent the machine can take over
(`State.answer`). Where a chain has its operand, the machine may still have the operation to complete; what it makes of
the next token is the same (`readOn_congr`).

No step changes the answer (`Step.answer_eq`), so a descent ends with what the machine gives for the whole list
(`result_eq_collect`).
-/

namespace DiceNotation.Parser.Descent

variable {limits : Limits} {tokens rest : List Token} {s s' : State} {t : Token} {m m' : Parser.State}
  {read read' : Option Expr} {errors : List ParseError} {op : Option Operator} {p : Procedure}

/-! ## Steps of the machine -/

theorem step_operand {x : Option Expr} {dice : Nat} (hm : m.phase = .operand)
    (h : operand? limits t m.dice = some (errors, x, dice)) :
    m.step limits t = (errors, { m with phase := .operator x, dice }) := by
  unfold operand? at h
  split at h
  · next hk =>
    split at h
    · next e he =>
      cases h
      simp [Parser.State.step, hm, hk, Parser.State.readConstant, he]
    · next e he =>
      cases h
      simp [Parser.State.step, hm, hk, Parser.State.readConstant, he]
  · next hk =>
    split at h
    · next e he =>
      cases h
      simp [Parser.State.step, hm, hk, Parser.State.readDice, he]
    · next count sides he =>
      dsimp only at h
      split at h
      · next hlt =>
        cases h
        simp [Parser.State.step, hm, hk, Parser.State.readDice, he, hlt]
      · next hle =>
        cases h
        simp [Parser.State.step, hm, hk, Parser.State.readDice, he, hle]
  · cases h

theorem step_opening (hm : m.phase = .operand) (ht : t.isOpening = true) : m.step limits t = m.openGroup limits := by
  simp [Parser.State.step, hm, Parser.State.kind_of_isOpening ht, ht]

theorem step_misplaced (hm : m.phase = .operand) (hnumber : t.kind ≠ .number) (hdice : t.kind ≠ .dice)
    (ht : t.isOpening = false) :
    m.step limits t = (.unexpectedToken t.text :: (m.continueWith none true t).1, (m.continueWith none true t).2) := by
  unfold Parser.State.step
  rw [hm]
  split <;> simp_all

theorem openGroup_of_lt (h : m.outer.length < limits.maxDepth) :
    m.openGroup limits = ([], { m with frame := {}, outer := m.frame :: m.outer, phase := .operand }) :=
  if_neg (Nat.not_le_of_lt h)

theorem openGroup_of_le (h : limits.maxDepth ≤ m.outer.length) :
    m.openGroup limits = ([.nestingTooDeep limits.maxDepth], { m with phase := .skipping 0 }) :=
  if_pos h

/-! ## What the machine makes of the rest -/

def prepend (errors : List ParseError) (r : List ParseError × Option Expr) : List ParseError × Option Expr :=
  (errors ++ r.1, r.2)

theorem prepend_append (es fs : List ParseError) (r : List ParseError × Option Expr) :
    prepend (es ++ fs) r = prepend es (prepend fs r) := by
  simp [prepend]

def conclude (limits : Limits) (m : Parser.State) (rest : List Token) : List ParseError × Option Expr :=
  prepend (m.run limits rest).1 (m.run limits rest).2.finish

theorem conclude_nil : conclude limits m [] = m.finish :=
  rfl

theorem conclude_cons (t : Token) (rest : List Token) :
    conclude limits m (t :: rest) = prepend (m.step limits t).1 (conclude limits (m.step limits t).2 rest) :=
  prepend_append _ _ _

theorem conclude_cons_of_eq (h : m.step limits t = (errors, m')) (rest : List Token) :
    conclude limits m (t :: rest) = prepend errors (conclude limits m' rest) := by
  rw [conclude_cons, h]

theorem conclude_done {tree : Option Expr} (hm : m.phase = .done tree) (rest : List Token) :
    conclude limits m rest = ([], tree) := by
  rw [conclude, run_done hm, prepend, Parser.State.finish, hm]
  rfl

/-- After the operand `read`, with a next token that may be blamed already. -/
def readOn (limits : Limits) (m : Parser.State) (read : Option Expr) (blamed : Bool) :
    List Token → List ParseError × Option Expr
  | [] => (m.unmatched, m.tree read)
  | t :: rest => prepend (m.continueWith read blamed t).1 (conclude limits (m.continueWith read blamed t).2 rest)

theorem conclude_operator (hm : m.phase = .operator read) (rest : List Token) :
    conclude limits m rest = readOn limits m read false rest := by
  cases rest with
  | nil => rw [conclude_nil, Parser.State.finish, hm, readOn]
  | cons t rest =>
    have hstep : m.step limits t = m.continueWith read false t := by simp [Parser.State.step, hm]
    rw [conclude_cons, hstep, readOn]

section

variable {blamed : Bool}

theorem readOn_none_nil : readOn limits m none blamed [] = (m.unmatched, none) := by
  rw [readOn, Parser.State.tree_eq_none (.inl rfl)]

theorem readOn_additive (hk : t.kind = .additive) (rest : List Token) :
    readOn limits m read blamed (t :: rest) =
      prepend (Parser.State.operator t.text).1
        (conclude limits
          { m with
            frame := ⟨some ⟨m.frame.total read, (Parser.State.operator t.text).2⟩, none⟩
            phase := .operand } rest) := by
  simp [readOn, Parser.State.continueWith, hk]

theorem readOn_multiplicative (hk : t.kind = .multiplicative) (rest : List Token) :
    readOn limits m read blamed (t :: rest) =
      prepend (Parser.State.operator t.text).1
        (conclude limits
          { m with
            frame := ⟨m.frame.sum, some ⟨m.frame.term read, (Parser.State.operator t.text).2⟩⟩
            phase := .operand } rest) := by
  simp [readOn, Parser.State.continueWith, hk]

theorem readOn_closing {f : Frame} {fs : List Frame} (ht : t.isClosing = true) (houter : m.outer = f :: fs)
    (rest : List Token) :
    readOn limits m read blamed (t :: rest) =
      conclude limits { m with frame := f, outer := fs, phase := .operator (m.frame.total read) } rest := by
  have hstep : m.continueWith read blamed t =
      ([], { m with frame := f, outer := fs, phase := .operator (m.frame.total read) }) := by
    simp [Parser.State.continueWith, Parser.State.kind_of_isClosing ht, ht, houter]
  rw [readOn, hstep]
  rfl

/-- A token that does not continue the expression ends it. -/
theorem readOn_last (hadd : t.kind ≠ .additive) (hmul : t.kind ≠ .multiplicative)
    (hclosing : t.isClosing = true → m.outer = []) (rest : List Token) :
    readOn limits m read blamed (t :: rest) =
      (m.unmatched ++ if blamed then [] else [.trailingToken t.text], m.tree read) := by
  have hstep : m.continueWith read blamed t =
      (m.unmatched ++ if blamed then [] else [.trailingToken t.text], { m with phase := .done (m.tree read) }) := by
    rcases hc : m.continueWith read blamed t with ⟨errors, m'⟩
    cases continues_of_continueWith hc with
    | additive hk _ => exact absurd hk hadd
    | multiplicative hk _ => exact absurd hk hmul
    | closing ht houter => cases (hclosing ht).symm.trans houter
    | last _ _ _ => rfl
  rw [readOn, hstep, conclude_done rfl, prepend, List.append_nil]

/-- The end of a group that is not closed leaves a hole in the group around it. -/
theorem readOn_unclosed {f : Frame} {fs : List Frame} (houter : m.outer = f :: fs)
    (hends : ∀ t ∈ rest.head?, t.kind ≠ .additive ∧ t.kind ≠ .multiplicative ∧ t.isClosing = false) :
    readOn limits m read blamed rest =
      prepend [.unmatchedParenthesis] (readOn limits { m with frame := f, outer := fs } none blamed rest) := by
  have hunmatched : m.unmatched =
      .unmatchedParenthesis :: Parser.State.unmatched { m with frame := f, outer := fs } := by
    rw [Parser.State.unmatched, houter, List.length_cons, List.replicate_succ]
    rfl
  have htree : m.tree read = Parser.State.tree { m with frame := f, outer := fs } none := by
    rw [Parser.State.tree_eq_none (.inl rfl), Parser.State.tree, houter]
    rfl
  cases rest with
  | nil => rw [readOn, readOn, hunmatched, htree, prepend, List.singleton_append]
  | cons t rest =>
    obtain ⟨hadd, hmul, hclosing⟩ := hends t rfl
    rw [readOn_last hadd hmul (by simp [hclosing]), readOn_last hadd hmul (by simp [hclosing]), hunmatched, htree,
      prepend, List.cons_append, List.singleton_append]

/-- Only what ends with the operand matters, and the sum before it if a product goes on. -/
theorem readOn_congr (houter : m.outer = m'.outer) (hdice : m.dice = m'.dice)
    (htotal : m.frame.total read = m'.frame.total read')
    (hterm : ∀ t ∈ rest.head?, t.kind = .multiplicative →
      m.frame.sum = m'.frame.sum ∧ m.frame.term read = m'.frame.term read') :
    readOn limits m read blamed rest = readOn limits m' read' blamed rest := by
  obtain ⟨f, outer, phase, dice⟩ := m
  obtain ⟨f', outer', phase', dice'⟩ := m'
  dsimp only at houter hdice htotal hterm
  subst houter hdice
  have hlast : Parser.State.tree ⟨f, outer, phase, dice⟩ read = Parser.State.tree ⟨f', outer, phase', dice⟩ read' := by
    simp [Parser.State.tree, htotal]
  cases rest with
  | nil =>
    rw [readOn, readOn, hlast]
    rfl
  | cons t rest =>
    by_cases hadd : t.kind = .additive
    · simp [readOn_additive hadd, htotal]
    by_cases hmul : t.kind = .multiplicative
    · obtain ⟨hsum, hterm⟩ := hterm t rfl hmul
      simp [readOn_multiplicative hmul, hsum, hterm]
    by_cases hclosing : t.isClosing = true → outer = []
    · rw [readOn_last hadd hmul hclosing, readOn_last hadd hmul hclosing, hlast]
      rfl
    · obtain ⟨ht, houter⟩ := Classical.not_imp.1 hclosing
      obtain ⟨g, gs, rfl⟩ := List.exists_cons_of_ne_nil houter
      rw [readOn_closing ht rfl, readOn_closing ht rfl, htotal]

end

/-! ## Where the machine takes over -/

/-- The group being read and those around it, innermost first, as the waiting calls have them. -/
def frames : List Call → Frame × List Frame
  | [] => ({}, [])
  | .expression :: calls => frames calls
  | .chain .term pending :: calls => (⟨pending, none⟩, (frames calls).2)
  | .chain .factor pending :: calls => (⟨(frames calls).1.sum, pending⟩, (frames calls).2)
  | .primary :: calls => frames calls
  | .group :: calls => ({}, (frames calls).1 :: (frames calls).2)

theorem length_frames (calls : List Call) : (frames calls).2.length = calls.countP Call.isGroup := by
  induction calls with
  | nil => rfl
  | cons call calls ih =>
    cases call with
    | group => rw [List.countP_cons_of_pos rfl, frames, List.length_cons, ih]
    | chain c pending => cases c <;> simpa [frames, Call.isGroup] using ih
    | _ => simpa [frames, Call.isGroup] using ih

/-- The machine with the groups and the dice of a descent. -/
def State.machine (s : State) (phase : Phase) : Parser.State where
  frame := (frames s.calls).1
  outer := (frames s.calls).2
  phase := phase
  dice := s.dice

theorem outer_of_group {calls : List Call} (h : s.calls = .group :: calls) (phase : Phase) :
    (s.machine phase).outer = (frames calls).1 :: (frames calls).2 := by
  rw [State.machine, h, frames]

theorem Sound.length_outer (hs : Sound limits tokens s) (phase : Phase) : (s.machine phase).outer.length = s.depth := by
  rw [State.machine, length_frames, hs.depth_eq, State.openGroups]

section

variable {c : Chain} {pending : Option Pending} {calls : List Call}

/-- Nothing in the group is read before a term. -/
theorem frame_of_term (h : Waiting (.chain .term) calls) : (frames calls).1 = {} := by
  cases h with
  | term h => cases h <;> rfl

theorem product_of_factor (h : Waiting (.chain .factor) calls) : (frames calls).1.product = none := by
  cases h with
  | factor _ => rfl

theorem total_of_term (h : Waiting (.chain .term) calls) (read : Option Expr) :
    (frames calls).1.total read = read := by
  rw [frame_of_term h]
  rfl

theorem term_of_factor (h : Waiting (.chain .factor) calls) (read : Option Expr) :
    (frames calls).1.term read = read := by
  rw [Frame.term, product_of_factor h]
  rfl

theorem frames_chain_none (h : Waiting (.chain c) calls) : frames (.chain c none :: calls) = frames calls := by
  cases c with
  | term => rw [frames, ← frame_of_term h]
  | factor => rw [frames, ← product_of_factor h]

theorem frames_chain_outer : (frames (.chain c pending :: calls)).2 = (frames calls).2 := by
  cases c <;> rfl

theorem total_chain (h : Waiting (.chain c) calls) (read : Option Expr) :
    (frames (.chain c pending :: calls)).1.total read = (frames calls).1.total (Pending.complete pending read) := by
  cases c with
  | term =>
    rw [total_of_term h]
    rfl
  | factor =>
    rw [Frame.total, Frame.total, term_of_factor h]
    rfl

theorem term_chain (h : Waiting (.chain .factor) calls) (read : Option Expr) :
    (frames (.chain .factor pending :: calls)).1.term read = (frames calls).1.term (Pending.complete pending read) := by
  rw [term_of_factor h]
  rfl

/-- An operator of a chain makes what the chain has read its left operand. -/
theorem readOn_operator {blamed : Bool} (h : Waiting (.chain c) s.calls) (hk : t.kind = c.kind)
    (hop : Parser.State.operator t.text = (errors, op)) (rest : List Token) :
    readOn limits (s.machine (.operator read)) read blamed (t :: rest) =
      prepend errors
        (conclude limits ({ s with calls := .chain c (some ⟨read, op⟩) :: s.calls }.machine .operand) rest) := by
  cases c with
  | term =>
    rw [readOn_additive hk, hop]
    simp only [State.machine, total_of_term h, frames]
  | factor =>
    rw [readOn_multiplicative hk, hop]
    simp only [State.machine, term_of_factor h, frames]

end

/-- What the machine makes of the rest of the tokens from a point of a descent on. -/
def State.remaining (limits : Limits) (tokens : List Token) (s : State) : List ParseError × Option Expr :=
  match s.point with
  | .start => if tokens.isEmpty then ([.empty], none) else conclude limits (s.machine .operand) (tokens.drop s.cursor)
  | .entry .group =>
    prepend ((s.machine .operand).openGroup limits).1
      (conclude limits ((s.machine .operand).openGroup limits).2 (tokens.drop s.cursor))
  | .entry _ => conclude limits (s.machine .operand) (tokens.drop s.cursor)
  | .loop _ read | .exit _ read =>
    readOn limits (s.machine (.operator read)) read (s.reported = some s.cursor) (tokens.drop s.cursor)
  | .skipping opened => conclude limits (s.machine (.skipping (opened - 1))) (tokens.drop s.cursor)

def State.answer (limits : Limits) (tokens : List Token) (s : State) : List ParseError × Option Expr :=
  prepend s.errors (s.remaining limits tokens)

theorem drop_of_peek (h : s.peek tokens = some t) : tokens.drop s.cursor = t :: tokens.drop (s.cursor + 1) := by
  obtain ⟨hlt, rfl⟩ := List.getElem?_eq_some_iff.1 h
  exact List.drop_eq_getElem_cons hlt

theorem drop_of_peek_eq_none (h : s.peek tokens = none) : tokens.drop s.cursor = [] :=
  List.drop_eq_nil_of_le (List.getElem?_eq_none_iff.1 h)

theorem remaining_entry {p : Procedure} (hp : s.point = .entry p) (hne : p ≠ .group) :
    s.remaining limits tokens = conclude limits (s.machine .operand) (tokens.drop s.cursor) := by
  rw [State.remaining, hp]
  cases p with
  | group => exact absurd rfl hne
  | _ => rfl

theorem remaining_skipping {inner : Nat} (hp : s.point = .skipping (inner + 1)) :
    s.remaining limits tokens = conclude limits (s.machine (.skipping inner)) (tokens.drop s.cursor) := by
  rw [State.remaining, hp]
  rfl

theorem remaining_skip {inner inner' : Nat} (hp : s.point = .skipping (inner + 1)) (hpeek : s.peek tokens = some t)
    (hstep : (s.machine (.skipping inner)).step limits t = ([], s.machine (.skipping inner'))) :
    State.remaining limits tokens { s with cursor := s.cursor + 1, point := .skipping (inner' + 1) } =
      s.remaining limits tokens := by
  rw [remaining_skipping rfl, remaining_skipping hp, drop_of_peek hpeek, conclude_cons_of_eq hstep]
  rfl

/-! ## No step changes the answer -/

/-- A token that has been consumed is not blamed again. -/
theorem Sound.unblamed (hs : Sound limits tokens s) : decide (s.reported = some (s.cursor + 1)) = false := by
  refine decide_eq_false fun h => ?_
  have hle := hs.reported_le _ h
  omega

/-- An expression ends before no operator. -/
theorem Sound.not_operator {x : Option Expr} (hs : Sound limits tokens s) (hp : s.point = .exit .expression x)
    (ht : t ∈ s.peek tokens) : t.kind ≠ .additive ∧ t.kind ≠ .multiplicative := by
  have hrefused := hs.refused t ht
  rw [hp] at hrefused
  simpa [Point.refused] using hrefused

theorem Step.answer_eq (h : Step limits tokens s s') (hs : Sound limits tokens s) :
    s'.answer limits tokens = s.answer limits tokens := by
  have hwaiting {point : Point} {calls : List Call} (hp : s.point = point) (hcalls : s.calls = calls) :
      Waiting point.procedure calls := hp ▸ hcalls ▸ hs.waiting
  have hskipping {opened : Nat} (hp : s.point = .skipping opened) : opened ≠ 0 := fun h => hs.skipping_ne (h ▸ hp)
  unfold State.answer
  cases h with
  | start hp htokens =>
    rw [remaining_entry rfl (by decide), State.remaining, hp]
    simp [htokens]
    rfl
  | expression hp =>
    rw [remaining_entry rfl (by decide), remaining_entry hp (by decide)]
    rfl
  | @chain c hp =>
    rw [remaining_entry hp nofun, remaining_entry rfl (by cases c <;> decide), State.machine, State.machine,
      frames_chain_none (hwaiting hp rfl)]
  | operand hp hpeek hoperand =>
    rw [remaining_entry hp (by decide), drop_of_peek hpeek, conclude_cons_of_eq (step_operand rfl hoperand),
      ← prepend_append]
    simp only [State.remaining, hs.unblamed]
    rw [← conclude_operator rfl]
    rfl
  | missing hp hpeek =>
    rw [remaining_entry hp (by decide), State.remaining]
    dsimp only
    rw [drop_of_peek_eq_none hpeek, readOn_none_nil, conclude_nil, prepend_append]
    rfl
  | opening hp hpeek hopening =>
    rw [remaining_entry hp (by decide), drop_of_peek hpeek, conclude_cons, step_opening rfl hopening]
    rfl
  | misplaced hp hpeek hnumber hdice hopening =>
    rw [remaining_entry hp (by decide), drop_of_peek hpeek, conclude_cons, step_misplaced rfl hnumber hdice hopening]
    simp only [State.remaining, drop_of_peek hpeek, decide_true, prepend_append]
    rw [readOn]
    rfl
  | deeper hp hdepth =>
    rw [remaining_entry rfl (by decide), State.remaining, hp]
    dsimp only
    rw [openGroup_of_lt (by rwa [hs.length_outer])]
    rfl
  | tooDeep hp hdepth =>
    rw [State.remaining, State.remaining, hp]
    dsimp only
    rw [openGroup_of_le (by rwa [hs.length_outer]), prepend_append]
    rfl
  | @operator c read t errors op hp hpeek hkind hoperator =>
    rw [remaining_entry rfl (by cases c <;> decide), State.remaining, hp]
    dsimp only
    rw [drop_of_peek hpeek, readOn_operator (hwaiting hp rfl) hkind hoperator, prepend_append]
    rfl
  | chainEnd hp hkind =>
    rw [State.remaining, State.remaining, hp]
    rfl
  | @skipOpening opened t hp hpeek hopening =>
    obtain ⟨inner, rfl⟩ := Nat.exists_eq_succ_of_ne_zero (hskipping hp)
    rw [remaining_skip hp hpeek (by simp [Parser.State.step, State.machine, hopening])]
  | @skipClosing opened t hp hpeek hclosing =>
    have hopening := Token.not_isOpening_of_isClosing hclosing
    rw [remaining_skip hp hpeek (by simp [Parser.State.step, State.machine, hopening, hclosing])]
  | @skipped t hp hpeek hclosing =>
    have hopening := Token.not_isOpening_of_isClosing hclosing
    have hstep : (s.machine (.skipping 0)).step limits t = ([], s.machine (.operator none)) := by
      simp [Parser.State.step, State.machine, hopening, hclosing]
    rw [remaining_skipping hp, drop_of_peek hpeek, conclude_cons_of_eq hstep, conclude_operator rfl]
    simp only [State.remaining, hs.unblamed]
    rfl
  | @skipOther opened t hp hpeek hopening hclosing =>
    obtain ⟨inner, rfl⟩ := Nat.exists_eq_succ_of_ne_zero (hskipping hp)
    rw [remaining_skip hp hpeek (by simp [Parser.State.step, State.machine, hopening, hclosing])]
  | @skipEnd opened hp hpeek =>
    obtain ⟨inner, rfl⟩ := Nat.exists_eq_succ_of_ne_zero (hskipping hp)
    rw [remaining_skipping hp, State.remaining]
    dsimp only
    rw [drop_of_peek_eq_none hpeek, readOn_none_nil, conclude_nil, prepend_append]
    rfl
  | expressionExit hp hcalls =>
    rw [State.remaining, State.remaining, hp]
    simp [State.machine, hcalls, frames]
  | @operandExit p x c pending calls hp hcalls =>
    obtain ⟨rfl, hw⟩ := (hwaiting hp hcalls).of_operand
    rw [State.remaining, State.remaining, hp]
    congr 1
    -- The chain completes an operation that the machine completes with its next token.
    refine readOn_congr ?_ rfl ?_ ?_
    · rw [State.machine, State.machine, hcalls, frames_chain_outer]
    · rw [State.machine, State.machine, hcalls, total_chain hw]
    · intro t ht hmul
      rw [List.head?_drop] at ht
      cases c with
      | term =>
        -- The factor that has just ended would have taken this operator.
        have hrefused := hs.refused t ht
        rw [hp, hmul] at hrefused
        exact absurd List.mem_cons_self hrefused
      | factor =>
        rw [State.machine, State.machine, hcalls, term_chain hw]
        exact ⟨rfl, rfl⟩
  | primaryExit hp hcalls =>
    rw [State.remaining, State.remaining, hp]
    simp [State.machine, hcalls, frames]
  | @closed p x calls depth t hp hcalls hdepth hpeek hclosing =>
    rw [State.remaining, State.remaining, hp]
    simp only [hs.unblamed]
    rw [drop_of_peek hpeek, readOn_closing hclosing (outer_of_group hcalls _), conclude_operator rfl]
    simp [State.machine, hcalls, frames, Frame.total, Frame.term, Pending.complete]
  | @unclosed p x calls depth hp hcalls hdepth hclosing =>
    obtain rfl : p = .expression := by cases hwaiting hp hcalls; rfl
    have hends : ∀ t ∈ (tokens.drop s.cursor).head?,
        t.kind ≠ .additive ∧ t.kind ≠ .multiplicative ∧ t.isClosing = false := by
      intro t ht
      rw [List.head?_drop] at ht
      obtain ⟨hadd, hmul⟩ := hs.not_operator hp ht
      exact ⟨hadd, hmul, hclosing t ht⟩
    rw [State.remaining, State.remaining, hp]
    dsimp only
    rw [readOn_unclosed (outer_of_group hcalls _) hends, prepend_append]
    rfl

/-! ## The end -/

theorem finish_eq_answer {x : Option Expr} (hs : Sound limits tokens s) (hp : s.point = .exit p x)
    (hcalls : s.calls = []) : s.finish tokens x = s.answer limits tokens := by
  have hw := hs.waiting
  rw [hp, hcalls] at hw
  obtain rfl : p = .expression := hw.unique .outermost
  have houter : (s.machine (.operator x)).outer = [] := by rw [State.machine, hcalls, frames]
  have hunmatched : (s.machine (.operator x)).unmatched = [] := by
    rw [Parser.State.unmatched, houter]
    rfl
  have htree : (s.machine (.operator x)).tree x = x := by
    rw [State.machine, hcalls]
    rfl
  rw [State.finish, State.answer, State.remaining, hp]
  cases hpeek : s.peek tokens with
  | none =>
    dsimp only
    rw [drop_of_peek_eq_none hpeek, readOn, hunmatched, htree, prepend, List.append_nil]
  | some t =>
    obtain ⟨hadd, hmul⟩ := hs.not_operator hp hpeek
    dsimp only
    rw [drop_of_peek hpeek, readOn_last hadd hmul (fun _ => houter), hunmatched, htree, prepend]
    by_cases hreported : s.reported = some s.cursor <;> simp [hreported]

theorem result_eq_answer {result : List ParseError × Option Expr} {n : Nat} (htokens : tokens ≠ [])
    (hs : Sound limits tokens s) (h : s.run limits tokens n = .finished result) :
    result = s.answer limits tokens := by
  induction n generalizing s with
  | zero => cases h
  | succ n ih =>
    rw [State.run] at h
    split at h
    · next s' hstep =>
      have hstep := step_of_next hstep
      exact (ih (hstep.sound hs) h).trans (hstep.answer_eq hs)
    · rcases eq_of_finished h with ⟨-, hempty, -⟩ | ⟨p, x, hp, hcalls, rfl⟩
      · exact absurd hempty htokens
      · exact finish_eq_answer hs hp hcalls

/-- A descent gives what the machine gives. -/
theorem result_eq_collect {result : List ParseError × Option Expr} {n : Nat}
    (h : State.run limits tokens n {} = .finished result) : result = collect limits tokens := by
  cases tokens with
  | nil =>
    cases n with
    | zero => cases h
    | succ n =>
      cases h
      rfl
  | cons t ts => exact result_eq_answer (List.cons_ne_nil t ts) sound_start h

end DiceNotation.Parser.Descent
