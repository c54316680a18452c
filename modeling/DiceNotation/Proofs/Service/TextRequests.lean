import DiceNotation.Proofs.Service.Isolation
import DiceNotation.Service.Client

/-!
# Texts as requests

`rollText` of a service reads a text on its own and submits the expression only if there is one. **A text that can not
be read leaves the service as it is** and is answered by what is wrong with it; any other text is rolled as its
expression, with the generator that the provider makes after it has emptied its queue (`rollText_exact`). So a service
with default settings answers as `DiceNotation.rollText` does with this generator.

What is in the queue is handled one message after the other (`drain_eq`). A new request is handled last, and gets the
generator behind all that was in the queue (`Takes.drain_submit`).
-/

namespace DiceNotation.Service.State

variable {settings : Settings} {master : Nat → Block} {start s s' t : State} {event : Event} {events : List Event}
  {request : Nat} {m : Message} {ms rest : List Message} {e : Expr} {clock : Clock}

/-! ## Handling messages -/

/-- Handles messages in order. -/
def handleAll (s : State) (ms : List Message) : State :=
  ms.foldl handle s

@[simp] theorem handleAll_nil : s.handleAll [] = s := rfl

@[simp] theorem handleAll_cons : s.handleAll (m :: ms) = (s.handle m).handleAll ms := rfl

theorem handleAll_append : s.handleAll (ms ++ rest) = (s.handleAll ms).handleAll rest :=
  List.foldl_append

/-- What handling a message leaves alone. -/
theorem handle_eq (s : State) (m : Message) : (s.handle m).settings = s.settings ∧
    (s.handle m).provider = s.provider ∧ (s.handle m).held = s.held ∧
      (s.handle m).requests.size = s.requests.size := by
  cases m <;> simp [handle, lease]

theorem handleAll_eq (s : State) (ms : List Message) : (s.handleAll ms).settings = s.settings ∧
    (s.handleAll ms).provider = s.provider ∧ (s.handleAll ms).held = s.held ∧
      (s.handleAll ms).requests.size = s.requests.size := by
  induction ms generalizing s with
  | nil => simp
  | cons m ms ih =>
    obtain ⟨hsettings, hprovider, hheld, hsize⟩ := handle_eq s m
    rw [handleAll_cons, ← hsettings, ← hprovider, ← hheld, ← hsize]
    exact ih (s.handle m)

/-! ## Emptying the queue -/

def withQueue (s : State) (queue : List Message) : State :=
  { s with queue }

theorem withQueue_self (h : s.queue = rest) : s.withQueue rest = s := by
  rw [← h, withQueue]

theorem handle_withQueue : (s.withQueue rest).handle m = (s.handle m).withQueue rest := by
  cases m <;> rfl

theorem handleAll_withQueue : (s.withQueue rest).handleAll ms = (s.handleAll ms).withQueue rest := by
  induction ms generalizing s with
  | nil => rfl
  | cons m ms ih => rw [handleAll_cons, handle_withQueue, ih, handleAll_cons]

theorem attempt_provide (hrunning : s.provider = .running) (hqueue : s.queue = m :: rest) :
    s.attempt .provide = (s.handle m).withQueue rest := by
  have hstep : s.step .provide = some ((s.withQueue rest).handle m) := by simp [step, hrunning, hqueue, withQueue]
  rw [attempt, hstep, Option.getD_some, handle_withQueue]

theorem provideWithin_eq (hrunning : s.provider = .running) (hqueue : s.queue = ms ++ rest) :
    provideWithin ms.length s = (s.handleAll ms).withQueue rest := by
  induction ms generalizing s with
  | nil => exact (withQueue_self hqueue).symm
  | cons m ms ih =>
    obtain ⟨-, hprovider, -⟩ := handle_eq s m
    have htail := ih (s := (s.handle m).withQueue (ms ++ rest)) (hprovider.trans hrunning) rfl
    rw [List.length_cons, provideWithin, attempt_provide hrunning hqueue]
    exact htail.trans (by rw [handleAll_withQueue]; rfl)

/-- An emptied queue has been handled. -/
theorem drain_eq (hrunning : s.provider = .running) : s.drain = (s.handleAll s.queue).withQueue [] :=
  provideWithin_eq hrunning (List.append_nil _).symm

theorem drain_withQueue (hrunning : s.provider = .running) :
    (s.withQueue ms).drain = (s.handleAll ms).withQueue [] := by
  rw [drain_eq (s := s.withQueue ms) hrunning, handleAll_withQueue]
  rfl

/-- Room is made by handling the first message, if at all. -/
theorem makeRoom_eq (hrunning : s.provider = .running) :
    ∃ ms rest, s.queue = ms ++ rest ∧ s.makeRoom = (s.handleAll ms).withQueue rest ∧
      (s.queue.length ≤ capacity → rest.length < capacity) := by
  unfold makeRoom
  cases hfull : s.isFull with
  | false =>
    have hlt : s.queue.length < capacity := Nat.lt_of_not_le (of_decide_eq_false hfull)
    exact ⟨[], s.queue, rfl, (withQueue_self rfl).symm, fun _ => hlt⟩
  | true =>
    have hle : capacity ≤ s.queue.length := of_decide_eq_true hfull
    cases hqueue : s.queue with
    | nil => rw [hqueue] at hle; cases hle
    | cons m rest => exact ⟨[m], rest, rfl, attempt_provide hrunning hqueue, fun h => h⟩

/-! ## A new request -/

def withRequest (s : State) (e : Expr) (progress : Progress) : State :=
  { s with requests := s.requests.push ⟨e, progress⟩ }

theorem getElem?_withRequest {progress : Progress} :
    (s.withRequest e progress).requests[s.requests.size]? = some ⟨e, progress⟩ := by
  simp [withRequest]

/-- Messages of other requests do not see a new request. -/
theorem handle_withRequest {progress : Progress} (hother : m.request? ≠ some s.requests.size) :
    (s.withRequest e progress).handle m = (s.handle m).withRequest e progress := by
  cases m with
  | lease request =>
    have hne : request ≠ s.requests.size := fun h => hother (congrArg some h)
    have hrequests : (s.requests.push ⟨e, progress⟩).modify request (grant s.generator) =
        (s.requests.modify request (grant s.generator)).push ⟨e, progress⟩ := by
      refine Array.ext_getElem? fun i => ?_
      simp only [Array.getElem?_modify, Array.getElem?_push, Array.size_modify]
      split <;> split <;> simp_all
    exact congrArg (fun requests => { s with handed := s.handed + 1, requests }) hrequests
  | reseed _ => rfl

theorem handleAll_withRequest {progress : Progress} (hother : s.requests.size ∉ ms.filterMap Message.request?) :
    (s.withRequest e progress).handleAll ms = (s.handleAll ms).withRequest e progress := by
  induction ms generalizing s with
  | nil => rfl
  | cons m ms ih =>
    have hm : m.request? ≠ some s.requests.size := fun h => hother (List.mem_filterMap.2 ⟨m, List.mem_cons_self, h⟩)
    have hms : (s.handle m).requests.size ∉ ms.filterMap Message.request? := by
      rw [(handle_eq s m).2.2.2]
      exact fun h => hother (((List.sublist_cons_self m ms).filterMap _).subset h)
    rw [handleAll_cons, handle_withRequest hm, ih hms, handleAll_cons]

/-- A request comes in and has its generator. -/
def enter (s : State) (e : Expr) : State :=
  { s.withRequest e (.leased s.generator) with handed := s.handed + 1 }

theorem getElem?_enter : (s.enter e).requests[s.requests.size]? = some ⟨e, .leased s.generator⟩ :=
  getElem?_withRequest

theorem lease_withRequest : (s.withRequest e .waiting).lease s.requests.size = s.enter e := by
  have hrequests : (s.requests.push ⟨e, .waiting⟩).modify s.requests.size (grant s.generator) =
      s.requests.push ⟨e, .leased s.generator⟩ := by
    refine Array.ext_getElem? fun i => ?_
    rw [Array.getElem?_modify, Array.getElem?_push, Array.getElem?_push]
    by_cases hi : s.requests.size = i
    · simp [hi, grant]
    · simp [hi, Ne.symm hi]
  exact congrArg (fun requests => { s with handed := s.handed + 1, requests }) hrequests

/-! ## One request -/

theorem result_of_answered {result : Result} (h : s.requests[request]? = some ⟨e, .answered result⟩) :
    s.result request = result := by
  rw [State.result, progress?, h]
  rfl

theorem work_of_leased {g : Xoshiro} (h : s.requests[request]? = some ⟨e, .leased g⟩) :
    s.work request clock = s.setProgress request (.answered (evaluate e g (clock e))) := by
  rw [work, h]
  exact attempt_of_transition (.work h)

theorem result_work_of_leased {g : Xoshiro} (h : s.requests[request]? = some ⟨e, .leased g⟩) :
    (s.work request clock).result request = evaluate e g (clock e) := by
  refine result_of_answered (e := e) ?_
  rw [work_of_leased h, getElem?_setProgress, h]
  rfl

theorem work_of_isOver {p : Progress} (h : s.requests[request]? = some ⟨e, p⟩) (hover : p.isOver = true) :
    s.work request clock = s := by
  rw [work, h]
  cases p with
  | waiting | leased _ => cases hover
  | answered _ | cancelled => simp only [attempt, step, h, Option.getD_none]

/-- A request that comes in now is handled. -/
structure Takes (s : State) : Prop where
  running : s.provider = .running
  held : s.held = true
  fits : s.queue.length ≤ capacity
  /-- The messages in the queue are about requests that have come in. -/
  below : ∀ request ∈ s.queue.filterMap Message.request?, request < s.requests.size

theorem takes_of_run (hstart : State.start? settings master = some start) (hrun : start.run events = some s)
    (hheld : s.held = true) (hrunning : s.provider = .running) : s.Takes := by
  obtain ⟨-, hinit⟩ := start?_eq_some_iff.1 hstart
  have hempty : start.queue = [] := by rw [hinit]
  refine ⟨hrunning, hheld, run_length_le hempty hrun, fun request hmem => ?_⟩
  refine (handled_requests hrun hempty).2 request ?_
  rw [List.filterMap_append]
  exact List.mem_append_right _ hmem

namespace Takes

theorem attempt_submit (h : s.Takes) (e : Expr) : ∃ ms rest, s.queue = ms ++ rest ∧ rest.length < capacity ∧
    s.makeRoom.attempt (.submit e) =
      ((s.handleAll ms).withRequest e .waiting).withQueue (rest ++ [.lease s.requests.size]) := by
  obtain ⟨ms, rest, hqueue, hroom, hlt⟩ := makeRoom_eq h.running
  obtain ⟨-, hprovider, hheld, hsize⟩ := handleAll_eq s ms
  refine ⟨ms, rest, hqueue, hlt h.fits, ?_⟩
  rw [hroom, ← hsize]
  exact attempt_of_transition (.accept (hheld.trans h.held)
    (decide_eq_false (Nat.not_le.2 (hlt h.fits))) (hprovider.trans h.running))

theorem getElem?_attempt_submit (h : s.Takes) :
    (s.makeRoom.attempt (.submit e)).requests[s.requests.size]? = some ⟨e, .waiting⟩ := by
  obtain ⟨ms, rest, -, -, hsubmit⟩ := h.attempt_submit e
  rw [hsubmit, ← (handleAll_eq s ms).2.2.2]
  exact getElem?_withRequest

/-- A request that is handled last gets the generator that comes after the messages before it. -/
theorem drain_submit (h : s.Takes) (e : Expr) : (s.makeRoom.attempt (.submit e)).drain = s.drain.enter e := by
  obtain ⟨ms, rest, hqueue, -, hsubmit⟩ := h.attempt_submit e
  obtain ⟨-, hprovider, -, hsize⟩ := handleAll_eq s ms
  have hrest : (s.handleAll ms).requests.size ∉ rest.filterMap Message.request? := fun hmem =>
    Nat.lt_irrefl _ (h.below _ (by rw [hqueue, List.filterMap_append, ← hsize]; exact List.mem_append_right _ hmem))
  have hall : (s.handleAll s.queue).requests.size = s.requests.size := (handleAll_eq s s.queue).2.2.2
  calc (s.makeRoom.attempt (.submit e)).drain
      = (((s.handleAll ms).withRequest e .waiting).handleAll (rest ++ [.lease s.requests.size])).withQueue [] := by
        rw [hsubmit]
        exact drain_withQueue (hprovider.trans h.running)
    _ = (((s.handleAll s.queue).withRequest e .waiting).lease s.requests.size).withQueue [] := by
        rw [handleAll_append, handleAll_withRequest hrest, ← handleAll_append, ← hqueue]
        rfl
    _ = ((s.handleAll s.queue).enter e).withQueue [] := by rw [← hall, lease_withRequest]
    _ = s.drain.enter e := by rw [drain_eq h.running]; rfl

theorem size_drain (h : s.Takes) : s.drain.requests.size = s.requests.size := by
  rw [drain_eq h.running]
  exact (handleAll_eq s s.queue).2.2.2

theorem rollExpr_fst (h : s.Takes) : (s.rollExpr e clock).1 = evaluate e s.drain.generator (clock e) := by
  refine result_work_of_leased ?_
  rw [h.drain_submit, ← h.size_drain]
  exact getElem?_enter

end Takes

section Gone

variable (hgone : s.provider ≠ .running) (hheld : s.held = true) (hempty : s.queue = [])

include hgone hheld hempty

theorem attempt_submit_of_gone :
    s.makeRoom.attempt (.submit e) = s.withRequest e (.answered (.error .workerGone)) := by
  have hroom : s.isFull = false := decide_eq_false (by simp [hempty, capacity])
  rw [makeRoom, hroom]
  exact attempt_of_transition (.refuse hheld hroom hgone)

theorem rollExpr_of_gone : (s.rollExpr e clock).1 = .error .workerGone := by
  have hsubmit := attempt_submit_of_gone (e := e) hgone hheld hempty
  have hdrained : (s.makeRoom.attempt (.submit e)).drain = s.withRequest e (.answered (.error .workerGone)) := by
    rw [hsubmit, drain]
    change provideWithin s.queue.length _ = _
    rw [hempty]
    rfl
  have hrequest : (s.makeRoom.attempt (.submit e)).drain.requests[s.requests.size]? =
      some ⟨e, .answered (.error .workerGone)⟩ := by
    rw [hdrained]
    exact getElem?_withRequest
  change ((s.makeRoom.attempt (.submit e)).drain.work s.requests.size clock).result _ = _
  rw [work_of_isOver hrequest rfl]
  exact result_of_answered hrequest

end Gone

/-! ## Later histories -/

theorem actAll_answered {result : Result} (signals : List Signal) :
    actAll signals (some ⟨e, .answered result⟩) = some ⟨e, .answered result⟩ := by
  induction signals with
  | nil => rfl
  | cons signal signals ih => cases signal <;> exact ih

theorem evaluate_ne_read (g : Xoshiro) (timer : Nat → Bool) (error : ReadError) :
    evaluate e g timer ≠ .error (.roll (.read error)) := by
  unfold evaluate
  cases (e.rollTimed timer g).1 <;> simp [Except.mapError]

/-- What became of a request that was waiting. -/
theorem explains_of_waiting {p : Progress} (hwaiting : s.requests[request]? = some ⟨e, .waiting⟩)
    (hrun : s.run events = some s') (hp : s'.progress? request = some p) : Explains (signals request s events) e p := by
  obtain ⟨e', hrequest⟩ := progress?_eq_some_iff.1 hp
  have hfirst : Explains [] e .waiting := .waiting
  obtain ⟨p', hall, hexplains⟩ := hfirst.actAll (signals request s events)
  rw [getElem?_requests hrun, hwaiting, hall] at hrequest
  cases hrequest
  exact hexplains

theorem ne_read_of_explains {signals : List Signal} {result : Result} (h : Explains signals e (.answered result))
    (error : ReadError) : result ≠ .error (.roll (.read error)) := by
  cases h with
  | evaluated _ _ => exact evaluate_ne_read _ _ error
  | brokenDown _ | lost _ | unprovided _ => simp

/-- As long as its worker, its timer and the provider leave it alone, a request is rolled with its generator. -/
theorem evaluated_of_waiting {result : Result} (hwaiting : s.requests[request]? = some ⟨e, .waiting⟩)
    (hrun : s.run events = some s') (hp : s'.progress? request = some (.answered result))
    (hkept : .loseProvider ∉ events) (hsound : .breakDown request ∉ events)
    (hquiet : ∀ timer, .work request timer ∈ events → timer = Timer.never) :
    ∃ g, (request, g) ∈ grants s events ∧ result = evaluate e g Timer.never := by
  have hexplains := explains_of_waiting hwaiting hrun hp
  generalize hanswered : Progress.answered result = p at hexplains
  cases hexplains with
  | waiting | leased _ | cancelled => cases hanswered
  | @evaluated g timer hgrant hwork =>
    obtain ⟨before, _, after, t, rfl, -, rfl⟩ := exists_event_of_signal hrun hwork
    rw [hquiet timer (by simp)] at hanswered
    exact ⟨g, mem_grants_of_signal hgrant, Progress.answered.inj hanswered⟩
  | brokenDown hbroken =>
    obtain ⟨before, _, after, t, rfl, -, rfl⟩ := exists_event_of_signal hrun hbroken
    exact absurd (by simp) hsound
  | lost hlost =>
    obtain ⟨before, _, after, t, rfl, -, rfl⟩ := exists_event_of_signal hrun hlost
    exact absurd (by simp) hkept
  | unprovided hsubmit =>
    -- It came in before, so no request gets its number now.
    obtain ⟨before, _, after, t, rfl, hbefore, rfl, -, hsize⟩ := exists_event_of_signal hrun hsubmit
    have hlt := (Array.getElem?_eq_some_iff.1 hwaiting).1
    have hle := run_size_le hbefore
    omega

/-- The answer of a request in a later history, if there is one. -/
theorem later_answer {result : Result} (hheld : s.held = true) (htakes : s.provider = .running → s.Takes)
    (hempty : s.provider ≠ .running → s.queue = []) (hrun : (s.makeRoom.attempt (.submit e)).run events = some s')
    (hp : s'.progress? s.requests.size = some (.answered result)) :
    (∀ error, result ≠ .error (.roll (.read error))) ∧ (s.provider ≠ .running → result = .error .workerGone) ∧
      (s.provider = .running → .loseProvider ∉ events → .breakDown s.requests.size ∉ events →
        (∀ timer, .work s.requests.size timer ∈ events → timer = Timer.never) →
        ∃ g, (s.requests.size, g) ∈ grants (s.makeRoom.attempt (.submit e)) events ∧
          result = evaluate e g Timer.never) := by
  by_cases hprovider : s.provider = .running
  · have hwaiting := (htakes hprovider).getElem?_attempt_submit (e := e)
    refine ⟨ne_read_of_explains (explains_of_waiting hwaiting hrun hp), absurd hprovider, ?_⟩
    exact fun _ hkept hsound hquiet => evaluated_of_waiting hwaiting hrun hp hkept hsound hquiet
  · rw [attempt_submit_of_gone hprovider hheld (hempty hprovider)] at hrun
    have hanswered := getElem?_requests hrun s.requests.size
    rw [getElem?_withRequest, actAll_answered] at hanswered
    obtain ⟨e', hrequest⟩ := progress?_eq_some_iff.1 hp
    cases hanswered.symm.trans hrequest
    exact ⟨fun _ => by simp, fun _ => rfl, fun h => absurd h hprovider⟩

/-! ## Texts -/

section Texts

variable {text : String}

theorem submitText_of_error {error : ReadError} (h : Expr.read s.settings.limits text = .error error) :
    s.submitText text = (.error error, s) := by
  rw [submitText, h]

theorem rollText_of_error {error : ReadError} (h : Expr.read s.settings.limits text = .error error) :
    s.rollText text clock = (.error (.roll (.read error)), s) := by
  rw [rollText, h]

theorem submitText_of_ok (h : Expr.read s.settings.limits text = .ok e) :
    s.submitText text = (.ok s.requests.size, s.makeRoom.attempt (.submit e)) := by
  rw [submitText, h]

theorem rollText_of_ok (h : Expr.read s.settings.limits text = .ok e) :
    s.rollText text clock = s.rollExpr e clock := by
  rw [rollText, h]

theorem Takes.rollText_fst (h : s.Takes) (hread : Expr.read s.settings.limits text = .ok e) :
    (s.rollText text clock).1 = evaluate e s.drain.generator (clock e) := by
  rw [rollText_of_ok hread]
  exact h.rollExpr_fst

theorem rollText_of_gone (hread : Expr.read s.settings.limits text = .ok e) (hheld : s.held = true)
    (hempty : s.provider ≠ .running → s.queue = []) (hgone : s.provider ≠ .running) :
    (s.rollText text clock).1 = .error .workerGone := by
  rw [rollText_of_ok hread]
  exact rollExpr_of_gone hgone hheld (hempty hgone)

/-- An answer that says what is wrong with the text says so of this text. -/
theorem read_of_rollText {error : ReadError} (hheld : s.held = true) (htakes : s.provider = .running → s.Takes)
    (hempty : s.provider ≠ .running → s.queue = [])
    (h : (s.rollText text clock).1 = .error (.roll (.read error))) :
    Expr.read s.settings.limits text = .error error := by
  cases hread : Expr.read s.settings.limits text with
  | error error' =>
    rw [rollText_of_error hread] at h
    cases h
    rfl
  | ok e =>
    by_cases hrunning : s.provider = .running
    · rw [(htakes hrunning).rollText_fst hread] at h
      exact absurd h (evaluate_ne_read _ _ error)
    · rw [rollText_of_gone hread hheld hempty hrunning] at h
      cases h

/-- Rolling a text without a service is reading and evaluating it. -/
theorem mapError_rollText (text : String) (g : Xoshiro) :
    (DiceNotation.rollText text g).1.mapError .roll =
      match Expr.read {} text with
      | .ok e => evaluate e g Timer.never
      | .error error => .error (.roll (.read error)) := by
  unfold DiceNotation.rollText
  cases Expr.read {} text with
  | error error => rfl
  | ok e =>
    simp only [evaluate, Expr.roll]
    cases (e.rollTimed Timer.never g).1 <;> rfl

/-- **A service rolls the text that it is given.** In every state that a history leads to, a text that cannot be read is
answered by what is wrong with it and nothing happens. The expression of any other text is rolled with the generator
that comes after the messages in the queue, under the clock that is running, or else the provider is gone; and in every
later history, it is rolled with the generator that it is granted. With default settings, the answer is that of a roll
without a service. -/
theorem rollText_exact (hstart : State.start? settings master = some start) (hrun : start.run events = some s)
    (hheld : s.held = true) (text : String) (clock : Clock) :
    (∀ error, Expr.read settings.limits text = .error error →
      s.submitText text = (.error error, s) ∧ s.rollText text clock = (.error (.roll (.read error)), s)) ∧
    (∀ error, (s.rollText text clock).1 = .error (.roll (.read error)) →
      Expr.read settings.limits text = .error error) ∧
    (∀ e, Expr.read settings.limits text = .ok e →
      (s.provider ≠ .running → (s.rollText text clock).1 = .error .workerGone) ∧
      (s.provider = .running → (s.rollText text clock).1 = evaluate e s.drain.generator (clock e)) ∧
      ∀ more s' result, (s.submitText text).2.run more = some s' →
        s'.progress? s.requests.size = some (.answered result) →
        (∀ error, result ≠ .error (.roll (.read error))) ∧
        (s.provider ≠ .running → result = .error .workerGone) ∧
        (s.provider = .running → .loseProvider ∉ more → .breakDown s.requests.size ∉ more →
          (∀ timer, .work s.requests.size timer ∈ more → timer = Timer.never) →
          ∃ g, (s.requests.size, g) ∈ grants (s.submitText text).2 more ∧ result = evaluate e g Timer.never)) ∧
    (settings = {} →
      (∀ e g, Expr.read settings.limits text = .ok e →
        evaluate e g Timer.never = (DiceNotation.rollText text g).1.mapError .roll) ∧
      (s.provider = .running → (∀ e, Expr.read settings.limits text = .ok e → clock e = Timer.never) →
        (s.rollText text clock).1 = (DiceNotation.rollText text s.drain.generator).1.mapError .roll)) := by
  obtain ⟨-, hinit⟩ := start?_eq_some_iff.1 hstart
  have hsettings : s.settings = settings := by rw [run_settings hrun, hinit]
  have htakes := takes_of_run hstart hrun hheld
  have hempty := run_queue_of_gone (by rw [hinit]) hrun
  rw [← hsettings]
  refine ⟨fun error hread => ⟨submitText_of_error hread, rollText_of_error hread⟩,
    fun error => read_of_rollText hheld htakes hempty,
    fun e hread => ⟨rollText_of_gone hread hheld hempty, fun hprovider => (htakes hprovider).rollText_fst hread,
      fun more s' result hmore hp => ?_⟩, fun hdefault => ⟨?_, ?_⟩⟩
  · rw [submitText_of_ok hread] at hmore ⊢
    exact later_answer hheld htakes hempty hmore hp
  · intro e g hread
    rw [hdefault] at hread
    rw [mapError_rollText, show Expr.read {} text = .ok e from hread]
  · intro hprovider hquiet
    have hlimits : s.settings.limits = {} := by rw [hdefault]; rfl
    rw [mapError_rollText, ← hlimits]
    cases hread : Expr.read s.settings.limits text with
    | error error => rw [rollText_of_error hread]
    | ok e => rw [(htakes hprovider).rollText_fst hread, hquiet e hread]

/-- A service that is told to stop while a request is in its queue. -/
def stoppedEarly : List Event :=
  [.submit (.dice 1 6), .send true, .look]

theorem stoppedEarly_rollText : ∃ start s, State.start? {} (masterOfSeed 1) = some start ∧
    start.run stoppedEarly = some s ∧ s.rollText "2d6 +" = (.error (.roll (.read (.parse [.unexpectedEnd]))), s) ∧
    (s.rollText "2d6").1 = (DiceNotation.rollText "2d6" s.drain.generator).1.mapError .roll := by
  have hstart : State.start? {} (masterOfSeed 1) = some { settings := {}, master := masterOfSeed 1 } := rfl
  obtain ⟨s, hrun, hheld, hprovider⟩ :
      ∃ s, State.run { settings := {}, master := masterOfSeed 1 } stoppedEarly = some s ∧
        s.held = true ∧ s.provider = .running := ⟨_, rfl, rfl, rfl⟩
  have hread : Expr.read {} "2d6" = .ok (.dice 2 6) := by decide +kernel
  have herror : Expr.read {} "2d6 +" = .error (.parse [.unexpectedEnd]) := by decide +kernel
  have hclock : Clock.steady s.settings (.dice 2 6) = Timer.never := by
    rw [run_settings hrun]
    rfl
  refine ⟨_, s, hstart, hrun, ((rollText_exact hstart hrun hheld "2d6 +" _).1 _ herror).2, ?_⟩
  refine ((rollText_exact hstart hrun hheld "2d6" _).2.2.2 rfl).2 hprovider fun e he => ?_
  cases hread.symm.trans he
  exact hclock

end Texts

end DiceNotation.Service.State
