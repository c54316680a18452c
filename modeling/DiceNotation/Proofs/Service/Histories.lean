import DiceNotation.Proofs.Service.Shutdown
import DiceNotation.Proofs.Service.Together

/-!
# Using a service makes a history

Every function of `Service.Client` leads from its state to the next one by events (`Leads`): those of rolls for the
functions that roll (`leads_use`), and those of a shutdown for `shutDown` (`leads_shutDown`). So what holds along all
histories holds of a service that is used by these functions.

Behind each call that rolls, a service has nothing to do and all its requests are over (`Rests.use`). Such a service
comes to its end when it is shut down (`Settled.shutDown_finished`). **So a service that is asked one thing after the
other finishes when it is shut down** (`useAll_shutDown`).
-/

namespace DiceNotation.Service

open State

variable {settings : Settings} {master : Nat → Block} {start s t u : State} {event : Event} {events : List Event}
  {kind kind' : Event → Bool}

/-! ## Events of one kind -/

/-- Some events of this kind lead from one state to the other. -/
def Leads (kind : Event → Bool) (s t : State) : Prop :=
  ∃ events, s.run events = some t ∧ ∀ event ∈ events, kind event = true

namespace Leads

theorem refl (s : State) : Leads kind s s :=
  ⟨[], run_nil.2 rfl, by simp⟩

theorem trans (h : Leads kind s t) (h' : Leads kind t u) : Leads kind s u := by
  obtain ⟨events, hrun, hkind⟩ := h
  obtain ⟨events', hrun', hkind'⟩ := h'
  exact ⟨events ++ events', run_append.2 ⟨t, hrun, hrun'⟩, List.forall_mem_append.2 ⟨hkind, hkind'⟩⟩

/-- An event that cannot happen leads nowhere else. -/
theorem attempt (s : State) (h : kind event = true) : Leads kind s (s.attempt event) := by
  cases hstep : s.step event with
  | none =>
    rw [State.attempt, hstep]
    exact refl s
  | some t =>
    rw [State.attempt, hstep]
    exact ⟨[event], run_singleton.2 (transition_of_step hstep), List.forall_mem_singleton.2 h⟩

theorem foldl_attempt (s : State) (h : ∀ event ∈ events, kind event = true) :
    Leads kind s (events.foldl State.attempt s) := by
  induction events generalizing s with
  | nil => exact refl s
  | cons event events ih =>
    obtain ⟨hevent, hevents⟩ := List.forall_mem_cons.1 h
    exact (attempt s hevent).trans (ih _ hevents)

theorem provideWithin (h : kind .provide = true) (n : Nat) (s : State) : Leads kind s (provideWithin n s) := by
  induction n generalizing s with
  | zero => exact refl s
  | succ n ih => exact (attempt s h).trans (ih _)

theorem drain (h : kind .provide = true) (s : State) : Leads kind s s.drain :=
  provideWithin h _ s

theorem makeRoom (h : kind .provide = true) (s : State) : Leads kind s s.makeRoom := by
  unfold State.makeRoom
  split
  · exact attempt s h
  · exact refl s

end Leads

/-! ## Rolling -/

theorem leads_submit (s : State) (e : Expr) : Leads Event.isRoll s (s.makeRoom.attempt (.submit e)) :=
  (Leads.makeRoom rfl s).trans (.attempt _ rfl)

theorem leads_work (s : State) (request : Nat) (clock : Clock) : Leads Event.isRoll s (s.work request clock) := by
  unfold State.work
  split
  · exact .attempt s rfl
  · exact .refl s

theorem leads_submitTexts (s : State) (texts : List String) : Leads Event.isRoll s (s.submitTexts texts).2 := by
  induction texts generalizing s with
  | nil => exact .refl s
  | cons text texts ih =>
    have htext : Leads Event.isRoll s (s.submitText text).2 := by
      unfold State.submitText
      split
      · exact leads_submit s _
      · exact .refl s
    exact htext.trans (ih _)

theorem leads_workTickets (s : State) (clocks : Nat → Clock) (ts : List (Except ReadError Nat)) :
    Leads Event.isRoll s (s.workTickets clocks ts) := by
  induction ts generalizing s clocks with
  | nil => exact .refl s
  | cons ticket ts ih =>
    cases ticket with
    | error error => exact ih s _
    | ok request => exact (leads_work s request _).trans (ih _ _)

theorem leads_rollExpr (s : State) (e : Expr) (clock : Clock) : Leads Event.isRoll s (s.rollExpr e clock).2 :=
  ((leads_submit s e).trans (.drain rfl _)).trans (leads_work _ _ clock)

/-- What can be asked of a service. -/
inductive Call where
  | rollExpr (e : Expr) (clock : Clock)
  | rollText (text : String) (clock : Clock)
  | rollTexts (texts : List String) (clocks : Nat → Clock)
  | rollBroken (e : Expr)

/-- The state behind a call. -/
def State.use (s : State) : Call → State
  | .rollExpr e clock => (s.rollExpr e clock).2
  | .rollText text clock => (s.rollText text clock).2
  | .rollTexts texts clocks => (s.rollTexts texts clocks).2
  | .rollBroken e => (s.rollBroken e).2

theorem leads_use (s : State) (call : Call) : Leads Event.isRoll s (s.use call) := by
  cases call with
  | rollExpr e clock => exact leads_rollExpr s e clock
  | rollText text clock =>
    show Leads _ _ (s.rollText text clock).2
    unfold State.rollText
    split
    · exact leads_rollExpr s _ clock
    · exact .refl s
  | rollTexts texts clocks =>
    exact ((leads_submitTexts s texts).trans (.drain rfl _)).trans (leads_workTickets _ clocks _)
  | rollBroken e => exact ((leads_submit s e).trans (.drain rfl _)).trans (.attempt _ rfl)

def State.useAll (s : State) (calls : List Call) : State :=
  calls.foldl State.use s

theorem leads_useAll (s : State) (calls : List Call) : Leads Event.isRoll s (s.useAll calls) := by
  induction calls generalizing s with
  | nil => exact .refl s
  | cons call calls ih => exact (leads_use s call).trans (ih _)

/-- Rolls do not touch the reseeder. -/
theorem Leads.reseeder_eq (h : Leads Event.isRoll s t) : t.reseeder = s.reseeder := by
  obtain ⟨events, hrun, hroll⟩ := h
  refine run_induction (P := fun events t => (∀ event ∈ events, event.isRoll = true) → t.reseeder = s.reseeder)
    (fun _ => rfl) ?_ hrun hroll
  intro before u u' event _ ih htransition hroll
  obtain ⟨hbefore, hevent⟩ := List.forall_mem_append.1 hroll
  rw [← ih hbefore]
  cases htransition with
  | accept _ _ _ | refuse _ _ _ | lease _ _ | newMaster _ _ | work _ | breakDown _ | cancel _ _ => rfl
  | _ => cases hevent _ List.mem_cons_self

/-! ## Requests that are over -/

/-- All requests are over. -/
def State.Settled (s : State) : Prop :=
  ∀ request p, s.progress? request = some p → p.isOver = true

/-- A worker is through with every request that it can work on. -/
theorem isOver_of_work {request : Nat} {clock : Clock} {p : Progress}
    (h : ∀ p, s.progress? request = some p → p.isOver = true ∨ ∃ g, p = .leased g)
    (hp : (s.work request clock).progress? request = some p) : p.isOver = true := by
  cases hbefore : s.requests[request]? with
  | none =>
    rw [State.work, hbefore, progress?, hbefore] at hp
    cases hp
  | some r =>
    obtain ⟨e, p'⟩ := r
    rcases h p' (progress?_eq_some_iff.2 ⟨e, hbefore⟩) with hover | ⟨g, rfl⟩
    · rw [work_of_isOver hbefore hover, progress?, hbefore] at hp
      cases hp
      exact hover
    · rw [work_of_leased hbefore, progress?, getElem?_setProgress, hbefore] at hp
      cases hp
      rfl

theorem settled_workTickets {clocks : Nat → Clock} {ts : List (Except ReadError Nat)}
    (h : ∀ request p, s.progress? request = some p → p.isOver = true ∨ .ok request ∈ ts ∧ ∃ g, p = .leased g) :
    (s.workTickets clocks ts).Settled := by
  induction ts generalizing s clocks with
  | nil => exact fun request p hp => (h request p hp).resolve_right (by simp)
  | cons ticket ts ih =>
    cases ticket with
    | error error => exact ih fun request p hp => by simpa using h request p hp
    | ok other =>
      refine ih fun request p hp => ?_
      by_cases hsame : other = request
      · subst hsame
        exact .inl (isOver_of_work (fun p hp => (h other p hp).imp_right And.right) hp)
      · rw [progress?, getElem?_work_of_ne hsame] at hp
        simpa [Ne.symm hsame] using h request p hp

/-- Requests that have come in have generators, and no other is under way. -/
theorem State.Settled.enterAll (hs : s.Settled) {es : List Expr} {request : Nat} {p : Progress}
    (hp : (s.enterAll es).progress? request = some p) :
    p.isOver = true ∨ (s.requests.size ≤ request ∧ request < s.requests.size + es.length) ∧ ∃ g, p = .leased g := by
  obtain ⟨e, hrequest⟩ := progress?_eq_some_iff.1 hp
  by_cases hold : request < s.requests.size
  · rw [getElem?_enterAll_of_lt hold] at hrequest
    exact .inl (hs request p (progress?_eq_some_iff.2 ⟨e, hrequest⟩))
  · have hlt := (Array.getElem?_eq_some_iff.1 hrequest).1
    rw [size_enterAll] at hlt
    obtain ⟨i, rfl⟩ := Nat.exists_eq_add_of_le (Nat.le_of_not_lt hold)
    rw [getElem?_enterAll (List.getElem?_eq_getElem (by omega))] at hrequest
    cases hrequest
    exact .inr ⟨⟨Nat.le_add_right _ _, hlt⟩, _, rfl⟩

theorem State.Takes.rollBroken_eq (h : s.Takes) (e : Expr) : s.rollBroken e =
    (.error .workerGone, (s.drain.enter e).setProgress s.requests.size (.answered (.error .workerGone))) := by
  have hentered : (s.drain.enter e).requests[s.requests.size]? = some ⟨e, .leased s.drain.generator⟩ := by
    rw [← h.size_drain]
    exact getElem?_enter
  have hattempt : (s.drain.enter e).attempt (.breakDown s.requests.size) =
      (s.drain.enter e).setProgress s.requests.size (.answered (.error .workerGone)) :=
    attempt_of_transition (.breakDown (progress?_eq_some_iff.2 ⟨e, hentered⟩))
  simp only [State.rollBroken, h.drain_submit, hattempt]
  refine Prod.ext (result_of_answered (e := e) ?_) rfl
  rw [getElem?_setProgress, hentered]
  rfl

/-- A service that has nothing to do, and nothing left of what it had to do. -/
structure State.Rests (s : State) : Prop where
  isIdle : IsIdle s.settings s.master s.handed s
  settled : s.Settled

theorem rests_of_start (hstart : State.start? settings master = some start) : start.Rests := by
  obtain ⟨-, rfl⟩ := start?_eq_some_iff.1 hstart
  exact ⟨⟨rfl, rfl, rfl, rfl, rfl, rfl⟩, by simp [State.Settled, progress?]⟩

namespace State.Rests

theorem of_isIdle {k : Nat} (h : IsIdle settings master k s) (hs : s.Settled) : s.Rests := by
  obtain ⟨rfl, rfl, rfl, hqueue, hrunning, hheld⟩ := h
  exact ⟨⟨rfl, rfl, rfl, hqueue, hrunning, hheld⟩, hs⟩

theorem rollExpr (h : s.Rests) (e : Expr) (clock : Clock) : (s.rollExpr e clock).2.Rests := by
  refine of_isIdle (h.isIdle.rollExpr_snd e clock) ?_
  have hstate : (s.rollExpr e clock).2 = (s.enterAll [e]).workTickets (fun _ => clock) [.ok s.requests.size] := by
    show (s.makeRoom.attempt (.submit e)).drain.work _ clock = _
    rw [h.isIdle.takes.drain_submit, h.isIdle.drain_eq_self]
    rfl
  rw [hstate]
  refine settled_workTickets fun request p hp => (h.settled.enterAll hp).imp_right fun ⟨hrange, hleased⟩ =>
    ⟨?_, hleased⟩
  rw [List.mem_singleton, Except.ok.injEq]
  simp only [List.length_singleton] at hrange
  omega

theorem rollTexts (h : s.Rests) (texts : List String) (clocks : Nat → Clock) : (s.rollTexts texts clocks).2.Rests := by
  refine of_isIdle (h.isIdle.takes.rollTexts_snd texts clocks) ?_
  rw [h.isIdle.takes.rollTexts_eq, h.isIdle.drain_eq_self]
  exact settled_workTickets fun request p hp => (h.settled.enterAll hp).imp_right fun ⟨hrange, hleased⟩ =>
    ⟨mem_tickets_iff.2 hrange, hleased⟩

theorem rollBroken (h : s.Rests) (e : Expr) : (s.rollBroken e).2.Rests := by
  have hstate : (s.rollBroken e).2 = (s.enter e).setProgress s.requests.size (.answered (.error .workerGone)) := by
    rw [h.isIdle.takes.rollBroken_eq, h.isIdle.drain_eq_self]
  rw [hstate]
  refine of_isIdle ((h.isIdle.enter e).of_requests _) fun request p hp => ?_
  by_cases hsame : s.requests.size = request
  · subst hsame
    rw [progress?, getElem?_setProgress, getElem?_enter] at hp
    cases hp
    rfl
  · rw [progress?, getElem?_setProgress_of_ne hsame] at hp
    have hp : (s.enterAll [e]).progress? request = some p := hp
    rcases h.settled.enterAll hp with hover | ⟨hrange, -⟩
    · exact hover
    · simp only [List.length_singleton] at hrange
      omega

theorem use (h : s.Rests) (call : Call) : (s.use call).Rests := by
  cases call with
  | rollExpr e clock => exact h.rollExpr e clock
  | rollText text clock =>
    show (s.rollText text clock).2.Rests
    unfold State.rollText
    split
    · exact h.rollExpr _ clock
    · exact h
  | rollTexts texts clocks => exact h.rollTexts texts clocks
  | rollBroken e => exact h.rollBroken e

theorem useAll (h : s.Rests) (calls : List Call) : (s.useAll calls).Rests := by
  induction calls generalizing s with
  | nil => exact h
  | cons call calls ih => exact ih (h.use call)

end State.Rests

/-! ## Stopping -/

/-- The events by which a service is shut down. -/
def Event.isEnd : Event → Bool
  | send value => value
  | closeStop | release | look | hear | provide | endProvider | join => true
  | _ => false

theorem leads_shutDown (s : State) : Leads Event.isEnd s s.shutDown := by
  have hstop : Leads Event.isEnd s (([.send true, .closeStop, .release] : List Event).foldl State.attempt s) :=
    .foldl_attempt s (by simp [Event.isEnd])
  have hwait : ∀ t : State, Leads Event.isEnd t t.endWait := fun t => .foldl_attempt t (by simp [Event.isEnd])
  exact ((hstop.trans (hwait _)).trans (.drain rfl _)).trans ((Leads.attempt _ rfl).trans (.attempt _ rfl))

/-- Whatever the reseeder has heard so far, its waiting ends when nothing can be sent any more. -/
theorem endWait_eq (hclosed : s.stop.isOpen = false) {phase : Phase} {wait : Wait}
    (hreseeder : s.reseeder = .waiting phase wait) :
    ∃ heard, s.endWait = { s with heard, reseeder := .stopped } := by
  obtain ⟨settings, master, handed, queue, provider, requests, held, ⟨value, version, isOpen⟩, heard, reseeder⟩ := s
  cases hclosed
  cases hreseeder
  -- A value that was not heard costs one more look and one more hearing, so two of each are enough.
  by_cases hheard : heard = version <;> cases value <;> cases wait <;>
    exact ⟨_, by simp [endWait, State.attempt, State.step, State.look, State.hear, hheard]; rfl⟩

theorem all_isOver (hs : s.Settled) : s.requests.all (·.progress.isOver) = true :=
  Array.all_eq_true.2 fun request hlt =>
    hs request _ (progress?_eq_some_iff.2 ⟨_, Array.getElem?_eq_some_iff.2 ⟨hlt, rfl⟩⟩)

/-- Nothing can be sent any more, and nobody can submit requests. -/
theorem foldl_stop_eq (hs : s.Settled) : ∃ stop : StopSignal, stop.isOpen = false ∧
    ([.send true, .closeStop, .release] : List Event).foldl State.attempt s = { s with stop, held := false } := by
  have hall := all_isOver hs
  obtain ⟨settings, master, handed, queue, provider, requests, held, ⟨value, version, isOpen⟩, heard, reseeder⟩ := s
  cases isOpen <;> cases held <;> exact ⟨_, rfl, by simp [State.attempt, State.step, hall]; rfl⟩

/-- A service whose requests are over and whose reseeder waits comes to its end when it is shut down. -/
theorem State.Settled.shutDown_finished (hs : s.Settled) (hrunning : s.provider = .running) {phase : Phase}
    {wait : Wait} (hreseeder : s.reseeder = .waiting phase wait) :
    s.shutDown.reseeder = .finished ∧ s.shutDown.provider = .ended := by
  obtain ⟨stop, hclosed, hstop⟩ := foldl_stop_eq hs
  obtain ⟨heard, hwait⟩ := endWait_eq (s := { s with stop, held := false }) hclosed hreseeder
  let stopped : State := { s with stop, held := false, heard, reseeder := .stopped }
  obtain ⟨-, hprovider, hheld, -⟩ := handleAll_eq stopped stopped.queue
  have hdrained : stopped.drain.reseeder = .stopped := (Leads.drain rfl stopped).reseeder_eq
  have hdrain : stopped.drain = (stopped.handleAll stopped.queue).withQueue [] := drain_eq hrunning
  have hend : stopped.drain.attempt .endProvider = { stopped.drain with provider := .ended } := by
    refine attempt_of_transition (.endProvider ?_ ?_ ?_)
    · rw [hdrain]
      exact hprovider.trans hrunning
    · rw [hdrain]
      rfl
    · rw [hasSenders, hdrained, hdrain]
      exact (Bool.or_false _).trans hheld
  have hjoin : State.attempt { stopped.drain with provider := .ended } .join =
      { stopped.drain with provider := .ended, reseeder := .finished } :=
    attempt_of_transition (.join hdrained (by simp))
  have hshutDown : s.shutDown = { stopped.drain with provider := .ended, reseeder := .finished } := by
    rw [State.shutDown, hstop, hwait, hend, hjoin]
  rw [hshutDown]
  exact ⟨rfl, rfl⟩

/-- **A service that is asked one thing after the other finishes when it is shut down**, and all of this is one history
of it, of rolls and then of its end. -/
theorem useAll_shutDown (hstart : State.start? settings master = some start) (calls : List Call) :
    Leads Event.isRoll start (start.useAll calls) ∧
      Leads Event.isEnd (start.useAll calls) (start.useAll calls).shutDown ∧
      (start.useAll calls).shutDown.reseeder = .finished ∧ (start.useAll calls).shutDown.provider = .ended := by
  have hrolls := leads_useAll start calls
  have hrests := (rests_of_start hstart).useAll calls
  obtain ⟨-, hinit⟩ := start?_eq_some_iff.1 hstart
  have hreseeder : (start.useAll calls).reseeder = .waiting .sleeping .looking := by rw [hrolls.reseeder_eq, hinit]
  exact ⟨hrolls, leads_shutDown _, hrests.settled.shutDown_finished hrests.isIdle.running hreseeder⟩

end DiceNotation.Service
