import DiceNotation.Proofs.Service.InTurn

/-!
# Texts at the same time

Rolling many texts at the same time fills the queue with their requests, and the provider may have to handle some of
them before others have come in. Once the queue is empty, this does not matter any more: the requests have come in one
after the other, and each has its generator (`Takes.submitTexts_eq`). What the workers make of a request leaves the
others alone. **So the results are those of the same texts in turn** (`Takes.rollTexts_fst`), and the same blocks of the
stream are used up (`Takes.rollTexts_snd`).
-/

namespace DiceNotation.Service

/-! ## Requests of texts -/

/-- The expressions of the texts that can be read. -/
def readable (settings : Settings) (texts : List String) : List Expr :=
  texts.filterMap fun text => (Expr.read settings.limits text).toOption

/-- The requests of the texts, numbered from `n` on. -/
def tickets (settings : Settings) : Nat → List String → List (Except ReadError Nat)
  | _, [] => []
  | n, text :: texts =>
    match Expr.read settings.limits text with
    | .ok _ => .ok n :: tickets settings (n + 1) texts
    | .error error => .error error :: tickets settings n texts

section

variable {settings : Settings} {text : String} {texts : List String} {e : Expr} {error : ReadError} {n request : Nat}

theorem readable_cons_of_ok (h : Expr.read settings.limits text = .ok e) :
    readable settings (text :: texts) = e :: readable settings texts := by
  rw [readable, List.filterMap_cons, h]
  rfl

theorem readable_cons_of_error (h : Expr.read settings.limits text = .error error) :
    readable settings (text :: texts) = readable settings texts := by
  rw [readable, List.filterMap_cons, h]
  rfl

theorem tickets_cons_of_ok (h : Expr.read settings.limits text = .ok e) :
    tickets settings n (text :: texts) = .ok n :: tickets settings (n + 1) texts := by
  rw [tickets, h]

theorem tickets_cons_of_error (h : Expr.read settings.limits text = .error error) :
    tickets settings n (text :: texts) = .error error :: tickets settings n texts := by
  rw [tickets, h]

theorem length_readable (settings : Settings) (texts : List String) :
    (readable settings texts).length = texts.countP (reads settings) := by
  induction texts with
  | nil => rfl
  | cons text texts ih =>
    cases hread : Expr.read settings.limits text with
    | ok e => rw [readable_cons_of_ok hread, List.length_cons, ih, List.countP_cons_of_pos (reads_of_ok hread)]
    | error error =>
      rw [readable_cons_of_error hread, ih, List.countP_cons_of_neg (by simp [reads_of_error hread])]

theorem mem_tickets_iff : .ok request ∈ tickets settings n texts ↔
    n ≤ request ∧ request < n + (readable settings texts).length := by
  induction texts generalizing n with
  | nil => simp [tickets, readable]
  | cons text texts ih =>
    cases hread : Expr.read settings.limits text with
    | ok e =>
      rw [tickets_cons_of_ok hread, readable_cons_of_ok hread, List.mem_cons, ih, List.length_cons, Except.ok.injEq]
      omega
    | error error =>
      rw [tickets_cons_of_error hread, readable_cons_of_error hread, List.mem_cons, ih]
      simp

end

namespace State

variable {settings : Settings} {master : Nat → Block} {s : State} {k n : Nat} {e : Expr} {es : List Expr}
  {texts : List String} {request : Nat} {clock : Clock} {clocks : Nat → Clock} {ts : List (Except ReadError Nat)}

/-! ## Coming in -/

def enterAll (s : State) (es : List Expr) : State :=
  es.foldl enter s

theorem getElem?_enter_of_lt (h : request < s.requests.size) :
    (s.enter e).requests[request]? = s.requests[request]? := by
  show (s.requests.push _)[request]? = _
  rw [Array.getElem?_push, if_neg (Nat.ne_of_lt h)]

theorem size_enter (s : State) (e : Expr) : (s.enter e).requests.size = s.requests.size + 1 :=
  Array.size_push _

theorem size_enterAll (s : State) (es : List Expr) : (s.enterAll es).requests.size = s.requests.size + es.length := by
  induction es generalizing s with
  | nil => rfl
  | cons e es ih =>
    have hrest := ih (s.enter e)
    rw [size_enter, Nat.add_assoc, Nat.add_comm 1] at hrest
    exact hrest

theorem getElem?_enterAll_of_lt (h : request < s.requests.size) :
    (s.enterAll es).requests[request]? = s.requests[request]? := by
  induction es generalizing s with
  | nil => rfl
  | cons e es ih =>
    have hrest := ih (s := s.enter e) (by rw [size_enter]; omega)
    rw [getElem?_enter_of_lt h] at hrest
    exact hrest

/-- Requests that come in one after the other have generators from one block after the other. -/
theorem getElem?_enterAll {i : Nat} (h : es[i]? = some e) :
    (s.enterAll es).requests[s.requests.size + i]? =
      some ⟨e, .leased (.ofBytes (streamFrom s.handed s.master i))⟩ := by
  induction es generalizing s i with
  | nil => cases h
  | cons e' es ih =>
    change ((s.enter e').enterAll es).requests[s.requests.size + i]? = _
    cases i with
    | zero =>
      cases h
      rw [Nat.add_zero, getElem?_enterAll_of_lt (by rw [size_enter]; omega), getElem?_enter]
      rfl
    | succ i =>
      have hrest := ih (s := s.enter e') h
      rw [size_enter, Nat.add_right_comm] at hrest
      refine hrest.trans ?_
      rw [streamFrom, streamFrom, Nat.add_comm i 1, ← Nat.add_assoc]
      rfl

theorem IsIdle.enterAll (h : IsIdle settings master k s) (es : List Expr) :
    IsIdle settings master (k + es.length) (s.enterAll es) := by
  induction es generalizing s k with
  | nil => exact h
  | cons e es ih =>
    rw [List.length_cons, Nat.add_comm es.length, ← Nat.add_assoc]
    exact ih (h.enter e)

namespace Takes

theorem isIdle_drain (h : s.Takes) : IsIdle s.settings s.drain.master s.drain.handed s.drain := by
  obtain ⟨hsettings, hprovider, hheld, -⟩ := handleAll_eq s s.queue
  rw [drain_eq h.running]
  exact ⟨hsettings, rfl, rfl, rfl, hprovider.trans h.running, hheld.trans h.held⟩

theorem submit (h : s.Takes) (e : Expr) : (s.makeRoom.attempt (.submit e)).Takes ∧
    (s.makeRoom.attempt (.submit e)).settings = s.settings ∧
      (s.makeRoom.attempt (.submit e)).requests.size = s.requests.size + 1 := by
  obtain ⟨ms, rest, hqueue, hlt, hsubmit⟩ := h.attempt_submit e
  obtain ⟨hsettings, hprovider, hheld, hsize⟩ := handleAll_eq s ms
  have hnext : ((s.handleAll ms).withRequest e .waiting).requests.size = s.requests.size + 1 := by
    rw [← hsize]
    exact Array.size_push _
  rw [hsubmit]
  refine ⟨⟨hprovider.trans h.running, hheld.trans h.held, ?_, fun request hmem => ?_⟩, hsettings, hnext⟩
  · show (rest ++ [_]).length ≤ capacity
    rw [List.length_append]
    exact hlt
  · have hmem : request ∈ (rest ++ [Message.lease s.requests.size]).filterMap Message.request? := hmem
    rw [List.filterMap_append, List.mem_append] at hmem
    refine Nat.lt_of_lt_of_eq (Nat.lt_succ_of_le ?_) hnext.symm
    rcases hmem with hmem | hmem
    · exact Nat.le_of_lt (h.below request (by rw [hqueue, List.filterMap_append]; exact List.mem_append_right _ hmem))
    · exact Nat.le_of_eq (List.mem_singleton.1 hmem)

/-- After the queue is emptied, it does not matter any more how it was filled. -/
theorem submitTexts_eq (h : s.Takes) (texts : List String) :
    (s.submitTexts texts).1 = tickets s.settings s.requests.size texts ∧
      (s.submitTexts texts).2.drain = s.drain.enterAll (readable s.settings texts) := by
  induction texts generalizing s with
  | nil => exact ⟨rfl, rfl⟩
  | cons text texts ih =>
    cases hread : Expr.read s.settings.limits text with
    | error error =>
      obtain ⟨htickets, hdrain⟩ := ih h
      simp only [submitTexts, submitText_of_error hread]
      rw [tickets_cons_of_error hread, readable_cons_of_error hread, htickets]
      exact ⟨rfl, hdrain⟩
    | ok e =>
      obtain ⟨htakes, hsettings, hsize⟩ := h.submit e
      obtain ⟨htickets, hdrain⟩ := ih htakes
      simp only [submitTexts, submitText_of_ok hread]
      rw [tickets_cons_of_ok hread, readable_cons_of_ok hread, htickets, hdrain, hsettings, hsize, h.drain_submit]
      exact ⟨rfl, rfl⟩

end Takes

/-! ## Answering -/

theorem workTickets_eq (s : State) (clocks : Nat → Clock) (ts : List (Except ReadError Nat)) :
    ∃ requests, s.workTickets clocks ts = { s with requests } := by
  induction ts generalizing s clocks with
  | nil => exact ⟨s.requests, rfl⟩
  | cons ticket ts ih =>
    cases ticket with
    | error error => exact ih s (streamFrom 1 clocks)
    | ok request =>
      obtain ⟨requests, hwork⟩ := work_eq s request (clocks 0)
      obtain ⟨requests', hrest⟩ := ih (s.work request (clocks 0)) (streamFrom 1 clocks)
      refine ⟨requests', hrest.trans ?_⟩
      rw [hwork]

theorem getElem?_work_of_ne {other : Nat} (h : other ≠ request) :
    (s.work other clock).requests[request]? = s.requests[request]? := by
  unfold work
  cases hother : s.requests[other]? with
  | none => rfl
  | some r =>
    show (s.attempt (.work other (clock r.expr))).requests[request]? = _
    cases hstep : s.step (.work other (clock r.expr)) with
    | none => rw [attempt, hstep, Option.getD_none]
    | some t =>
      rw [attempt, hstep, Option.getD_some]
      cases transition_of_step hstep with
      | work hleased => exact getElem?_setProgress_of_ne h _

theorem getElem?_workTickets (h : .ok request ∉ ts) :
    (s.workTickets clocks ts).requests[request]? = s.requests[request]? := by
  induction ts generalizing s clocks with
  | nil => rfl
  | cons ticket ts ih =>
    obtain ⟨hne, hrest⟩ := not_or.1 (List.mem_cons.not.1 h)
    cases ticket with
    | error error => exact ih hrest
    | ok other => exact (ih hrest).trans (getElem?_work_of_ne fun h => hne (congrArg Except.ok h.symm))

/-- The results of requests that have generators from one block after the other. -/
theorem map_ticketResult (hworkers : settings.workers ≠ 0) {stream : Nat → Block}
    (hleased : ∀ i e, (readable settings texts)[i]? = some e →
      s.requests[n + i]? = some ⟨e, .leased (.ofBytes (stream i))⟩) :
    (tickets settings n texts).map (s.workTickets clocks (tickets settings n texts)).ticketResult =
      results settings stream clocks texts := by
  induction texts generalizing s n stream clocks with
  | nil => rfl
  | cons text texts ih =>
    rw [results_cons, List.countP_singleton]
    cases hread : Expr.read settings.limits text with
    | error error =>
      rw [tickets_cons_of_error hread, alone_of_error hworkers hread, reads_of_error hread, if_neg Bool.false_ne_true,
        streamFrom_zero]
      rw [readable_cons_of_error hread] at hleased
      exact congrArg (_ :: ·) (ih hleased)
    | ok e =>
      rw [tickets_cons_of_ok hread, alone_of_ok hworkers hread, reads_of_ok hread, if_pos rfl]
      rw [readable_cons_of_ok hread] at hleased
      have hfirst : s.requests[n]? = some ⟨e, .leased (.ofBytes (stream 0))⟩ := hleased 0 e rfl
      have hrest : ∀ i e, (readable settings texts)[i]? = some e →
          (s.work n (clocks 0)).requests[n + 1 + i]? = some ⟨e, .leased (.ofBytes (streamFrom 1 stream i))⟩ := by
        intro i e hi
        rw [getElem?_work_of_ne (by omega), Nat.add_assoc, Nat.add_comm 1, hleased (i + 1) e hi, streamFrom,
          Nat.add_comm 1]
      have hnot : .ok n ∉ tickets settings (n + 1) texts := fun hmem => absurd (mem_tickets_iff.1 hmem).1 (by omega)
      refine List.cons_eq_cons.2 ⟨?_, ih hrest⟩
      refine result_of_answered (e := e) ((getElem?_workTickets hnot).trans ?_)
      rw [work_of_leased hfirst, getElem?_setProgress, hfirst]
      rfl

/-! ## All together -/

theorem Takes.rollTexts_eq (h : s.Takes) (texts : List String) (clocks : Nat → Clock) :
    let ts := tickets s.settings s.requests.size texts
    let t := (s.drain.enterAll (readable s.settings texts)).workTickets clocks ts
    s.rollTexts texts clocks = (ts.map t.ticketResult, t) := by
  obtain ⟨htickets, hdrain⟩ := h.submitTexts_eq texts
  simp only [rollTexts, htickets, hdrain]

/-- **Texts at the same time have the results that they have in turn.** -/
theorem Takes.rollTexts_fst (h : s.Takes) (hworkers : s.settings.workers ≠ 0) (texts : List String)
    (clocks : Nat → Clock) :
    (s.rollTexts texts clocks).1 =
      results s.settings (streamFrom s.drain.handed s.drain.master) clocks texts := by
  rw [h.rollTexts_eq]
  refine map_ticketResult hworkers fun i e hi => ?_
  rw [← h.size_drain]
  exact getElem?_enterAll hi

/-- Behind them, nothing is under way, and each text that can be read has taken a block. -/
theorem Takes.rollTexts_snd (h : s.Takes) (texts : List String) (clocks : Nat → Clock) :
    IsIdle s.settings s.drain.master (s.drain.handed + texts.countP (reads s.settings))
      (s.rollTexts texts clocks).2 := by
  obtain ⟨requests, hwork⟩ := workTickets_eq (s.drain.enterAll (readable s.settings texts)) clocks
    (tickets s.settings s.requests.size texts)
  have hidle := (h.isIdle_drain.enterAll (readable s.settings texts)).of_requests requests
  rw [length_readable, ← hwork] at hidle
  rw [h.rollTexts_eq]
  exact hidle

end State

end DiceNotation.Service
