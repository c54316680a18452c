import DiceNotation.Proofs.Service.WithoutStop

/-!
# Shutting a service down

The reseeder waits for the stop signal all the time: it looks at its value, listens for the next one and looks again.
This waiting ends by a look at `true`, or when nothing more can be sent (`WaitEnds.exact`), and nothing else stops the
reseeder (`exists_waitEnds`). **A service finishes only after that, and when nobody uses it any more**
(`shutdown_exact`).

A service of which both is true is `Closing`. Some step of its own is always possible (`Closing.exists_step`), and each
takes it nearer to its end (`Transition.rank_le`); only the clock takes it back, by a bounded way. So it finishes unless
the clock outruns it for ever.
-/

namespace DiceNotation.Service

open State

variable {settings : Settings} {master : Nat → Block} {start s s' : State} {event : Event} {events more : List Event}

/-! ## The stop signal -/

def Event.stopValue? : Event → Option Bool
  | send value => some value
  | _ => none

/-- The value of the stop signal that was sent last. -/
def lastSent (events : List Event) : Bool :=
  (events.filterMap Event.stopValue?).getLastD false

theorem lastSent_concat : lastSent (events ++ [event]) = event.stopValue?.getD (lastSent events) := by
  rw [lastSent, List.filterMap_append]
  cases h : event.stopValue? <;> simp [h, lastSent]

theorem Transition.value_eq (h : Transition s event s') : s'.stop.value = event.stopValue?.getD s.stop.value := by
  cases h <;> rfl

theorem Transition.isOpen_eq_false_iff (h : Transition s event s') :
    s'.stop.isOpen = false ↔ s.stop.isOpen = false ∨ .closeStop = event := by
  cases h <;> simp [setProgress]

theorem run_stop (hfresh : start.stop = {}) (hrun : start.run events = some s) :
    s.stop.value = lastSent events ∧ (s.stop.isOpen = false ↔ .closeStop ∈ events) := by
  refine run_induction (P := fun events s => s.stop.value = lastSent events ∧
    (s.stop.isOpen = false ↔ .closeStop ∈ events)) (by simp [hfresh, lastSent]) ?_ hrun
  rintro before t t' event _ ⟨hvalue, hopen⟩ htransition
  rw [htransition.value_eq, lastSent_concat, hvalue, htransition.isOpen_eq_false_iff, hopen, List.mem_append,
    List.mem_singleton]
  exact ⟨rfl, Iff.rfl⟩

/-! ## The end of waiting -/

/-- After the events `before`, this event ends the reseeder's waiting for the stop signal. -/
def WaitEnds (start : State) (before : List Event) (event : Event) : Prop :=
  ∃ t t' phase wait, start.run before = some t ∧ t.step event = some t' ∧ t.reseeder = .waiting phase wait ∧
    t'.reseeder = .stopped

/-- The waiting ends by a look at `true`, or by hearing that nothing will come. -/
theorem WaitEnds.exact (h : WaitEnds start events event) (hfresh : start.stop = {}) :
    event = .look ∧ lastSent events = true ∨ event = .hear ∧ .closeStop ∈ events := by
  obtain ⟨t, t', phase, wait, hrun, hstep, hwaiting, hstopped⟩ := h
  obtain ⟨hvalue, hopen⟩ := run_stop hfresh hrun
  cases transition_of_step hstep with
  | seeStop _ htrue => exact .inl ⟨rfl, hvalue ▸ htrue⟩
  | hearEnd _ _ hclosed => exact .inr ⟨rfl, hopen.1 hclosed⟩
  | seeNone _ _ | hearValue _ _ | wake _ _ | breakClock _ _ | tick _ | reseed _ _ _ | join _ _ => cases hstopped
  | reseedNobody hsending _ => cases hwaiting.symm.trans hsending
  | _ => cases hwaiting.symm.trans hstopped

/-- A reseeder stops by an end of its waiting and in no other way. -/
theorem exists_waitEnds (hs : Sound start) (hwaiting : ∃ phase wait, start.reseeder = .waiting phase wait)
    (hrun : start.run events = some s) (hkept : .loseProvider ∉ events)
    (hstopped : s.reseeder = .stopped ∨ s.reseeder = .finished) :
    ∃ before event after, events = before ++ event :: after ∧ WaitEnds start before event := by
  refine run_induction (P := fun events s => .loseProvider ∉ events → s.reseeder = .stopped ∨ s.reseeder = .finished →
    ∃ before event after, events = before ++ event :: after ∧ WaitEnds start before event) ?_ ?_ hrun hkept hstopped
  · obtain ⟨phase, wait, hreseeder⟩ := hwaiting
    simp [hreseeder]
  · intro before t t' event hbefore ih htransition hkept hstopped
    rw [List.mem_append, not_or] at hkept
    have hearlier : t.reseeder = .stopped ∨ t.reseeder = .finished →
        ∃ b e a, before ++ [event] = b ++ e :: a ∧ WaitEnds start b e := by
      intro h
      obtain ⟨b, e, a, rfl, hends⟩ := ih hkept.1 h
      exact ⟨b, e, a ++ [event], by simp, hends⟩
    cases htransition with
    | seeStop hreseeder htrue =>
      have hstep := (Transition.seeStop hreseeder htrue).step
      exact ⟨before, _, [], rfl, t, _, _, _, hbefore, hstep, hreseeder, rfl⟩
    | hearEnd hreseeder hheard hclosed =>
      have hstep := (Transition.hearEnd hreseeder hheard hclosed).step
      exact ⟨before, _, [], rfl, t, _, _, _, hbefore, hstep, hreseeder, rfl⟩
    | reseedNobody hsending hgone =>
      -- Its own messages can still come in, so the provider runs.
      have hrunning := (sound_of_run hs hbefore hkept.1).provided (by simp [hasSenders, hsending, Reseeder.isSender])
      exact absurd hrunning hgone
    | join hreseeder _ => exact hearlier (.inl hreseeder)
    | seeNone _ _ | hearValue _ _ | wake _ _ | breakClock _ _ | tick _ | reseed _ _ _ => simp at hstopped
    | _ => exact hearlier hstopped

/-! ## Closing down -/

/-- A service that nobody uses any more and that is told to stop. -/
structure Closing (s : State) : Prop extends Sound s where
  stopping : s.stopSeen = true
  released : s.held = false

theorem Transition.closing (h : Transition s event s') (hkept : event ≠ .loseProvider) (hstop : event ≠ .send false)
    (hs : Closing s) : Closing s' where
  toSound := h.sound hkept hs.toSound
  stopping := by
    have hstopping := hs.stopping
    cases h with
    | @send value _ =>
      cases value with
      | true => rfl
      | false => exact absurd rfl hstop
    | close _ => simp [State.stopSeen]
    | _ => exact hstopping
  released := by
    cases h with
    | release _ _ => rfl
    | _ => exact hs.released

theorem closing_of_run (hs : Closing s) (hrun : s.run events = some s') (hkept : .loseProvider ∉ events)
    (hstop : .send false ∉ events) : Closing s' := by
  refine run_induction (P := fun events s' => .loseProvider ∉ events → .send false ∉ events → Closing s')
    (fun _ _ => hs) ?_ hrun hkept hstop
  intro before t t' event _ ih htransition hkept hstop
  rw [List.mem_append, List.mem_singleton, not_or] at hkept hstop
  exact htransition.closing (Ne.symm hkept.2) (Ne.symm hstop.2) (ih hkept.1 hstop.1)

/-! ## Steps of a closing service -/

/-- What the service does by itself. -/
def Event.isOwn : Event → Bool
  | provide | look | hear | reseed _ | endProvider | join => true
  | _ => false

/-- What the clock does. -/
def Event.isClock : Event → Bool
  | wake | tick => true
  | _ => false

theorem Transition.event_of_closing (h : Transition s event s') (hkept : event ≠ .loseProvider)
    (hstop : event ≠ .send false) (hs : Closing s) :
    event.isOwn = true ∨ event.isClock = true ∨ event = .send true ∨ event = .closeStop := by
  have hover := hs.settled hs.released
  cases h with
  | accept hheld _ _ | refuse hheld _ _ | release hheld _ => cases hs.released.symm.trans hheld
  | work hrequest => cases hover _ _ (progress?_eq_some_iff.2 ⟨_, hrequest⟩)
  | breakDown hp => cases hover _ _ hp
  | cancel hp hnot => cases (hover _ _ hp).symm.trans hnot
  | lose _ => exact absurd rfl hkept
  | @send value _ =>
    cases value with
    | true => simp
    | false => exact absurd rfl hstop
  | _ => simp [Event.isOwn, Event.isClock]

/-- Some step of its own is possible until the reseeder is finished. -/
theorem Closing.exists_step (hs : Closing s) (hfinished : s.reseeder ≠ .finished) :
    ∃ event s', event.isOwn = true ∧ Transition s event s' := by
  by_cases hqueue : s.queue = []
  · have hstopping := hs.stopping
    cases hreseeder : s.reseeder with
    | waiting phase wait =>
      cases wait with
      | looking =>
        cases hvalue : s.stop.value with
        | true => exact ⟨_, _, rfl, .seeStop hreseeder hvalue⟩
        | false => exact ⟨_, _, rfl, .seeNone hreseeder hvalue⟩
      | listening =>
        by_cases hheard : s.heard = s.stop.version
        · have hvalue := hs.listening phase hreseeder hheard
          have hclosed : s.stop.isOpen = false := by simpa [State.stopSeen, hvalue] using hstopping
          exact ⟨_, _, rfl, .hearEnd hreseeder hheard hclosed⟩
        · exact ⟨_, _, rfl, .hearValue hreseeder hheard⟩
    | sending =>
      have hrunning := hs.provided (by simp [hasSenders, hreseeder, Reseeder.isSender])
      have hroom : s.isFull = false := decide_eq_false (by simp [hqueue, capacity])
      exact ⟨.reseed s.master, _, rfl, .reseed hreseeder hrunning hroom⟩
    | stopped =>
      by_cases hrunning : s.provider = .running
      · have hsenders : s.hasSenders = false := by simp [hasSenders, hs.released, hreseeder, Reseeder.isSender]
        exact ⟨_, _, rfl, .endProvider hrunning hqueue hsenders⟩
      · exact ⟨_, _, rfl, .join hreseeder hrunning⟩
    | finished => exact absurd hreseeder hfinished
    | broken => exact absurd hreseeder hs.unbroken
  · obtain ⟨t, htransition⟩ := hs.exists_provide hqueue
    exact ⟨_, t, rfl, htransition⟩

/-! ## How many steps are left -/

/-- How many looks at the stop signal and values of it are left. -/
def State.waitLength (s : State) : Wait → Nat
  | .looking => if s.stop.value then 1 else if s.heard = s.stop.version then 2 else 4
  | .listening => if s.stop.value then 2 else if s.heard = s.stop.version then 1 else 3

/-- How many steps of its own the reseeder has left, and the provider with the reseeder's next message. -/
def State.reseederRank (s : State) : Nat :=
  match s.reseeder with
  | .waiting _ wait => s.waitLength wait + 1
  | .sending => 7
  | .stopped => 1
  | .finished | .broken => 0

/-- How many steps of its own a closing service has left if the clock stands still. -/
def State.rank (s : State) : Nat :=
  s.queue.length + (if s.provider = .running then 1 else 0) + s.reseederRank

theorem waitLength_looking_of_true (hvalue : s.stop.value = true) : s.waitLength .looking = 1 := by
  rw [waitLength, if_pos hvalue]

theorem waitLength_listening_lt (hvalue : s.stop.value = false) : s.waitLength .listening < s.waitLength .looking := by
  simp only [waitLength, hvalue, Bool.false_eq_true, if_false]
  split <;> decide

theorem waitLength_hear (hheard : s.heard ≠ s.stop.version) (reseeder : Reseeder) :
    waitLength { s with heard := s.stop.version, reseeder } .looking < s.waitLength .listening := by
  simp only [waitLength, if_neg hheard, if_true]
  split <;> decide

theorem waitLength_bounds (wait : Wait) : 1 ≤ s.waitLength wait ∧ s.waitLength wait ≤ 4 := by
  cases wait with
  | looking | listening =>
    simp only [waitLength]
    constructor <;> (repeat' split) <;> decide

/-- A reseeder that has not yet heard all values is not brought further from its end by another `true`. -/
theorem waitLength_send (hs : Closing s) (hopen : s.stop.isOpen = true) (wait : Wait) :
    waitLength { s with stop := { s.stop with value := true, version := s.stop.version + 1 } } wait =
      s.waitLength wait := by
  have hvalue : s.stop.value = true := by simpa [State.stopSeen, hopen] using hs.stopping
  cases wait <;> simp only [waitLength, hvalue, if_true]

/-- A step of its own brings a closing service nearer to its end, and a step of the clock takes it back by at most 5. -/
theorem Transition.rank_le (h : Transition s event s') (hkept : event ≠ .loseProvider) (hstop : event ≠ .send false)
    (hs : Closing s) :
    s'.rank + (if event.isOwn then 1 else 0) ≤ s.rank + if event.isClock then 5 else 0 := by
  have hevent := h.event_of_closing hkept hstop hs
  cases h with
  | accept _ _ _ | refuse _ _ _ | release _ _ | work _ | breakDown _ | cancel _ _ | lose _ =>
    simp [Event.isOwn, Event.isClock] at hevent
  | @lease _ queue _ hqueue | @newMaster _ queue _ hqueue =>
    change queue.length + (if s.provider = .running then 1 else 0) + s.reseederRank + 1 ≤ s.rank + 0
    simp only [State.rank, hqueue, List.length_cons]
    omega
  | @send value hopen =>
    obtain rfl : value = true := Bool.of_not_eq_false fun h => hstop (by rw [h])
    have hsame : State.reseederRank { s with stop := { s.stop with value := true, version := s.stop.version + 1 } } =
        s.reseederRank := by
      simp only [State.reseederRank, waitLength_send hs hopen]
    exact Nat.le_of_eq (congrArg (s.queue.length + _ + ·) hsame)
  | close _ => exact Nat.le_refl _
  | @seeStop phase hreseeder hvalue =>
    have hlooking := waitLength_looking_of_true hvalue
    simp only [State.rank, State.reseederRank, hreseeder, Event.isOwn, Event.isClock, reduceIte, Bool.false_eq_true]
    omega
  | seeNone hreseeder hvalue =>
    have hlt := waitLength_listening_lt hvalue
    change _ + _ + (s.waitLength .listening + 1) + 1 ≤ _
    simp only [State.rank, State.reseederRank, hreseeder]
    omega
  | @hearValue phase hreseeder hheard =>
    have hlt := waitLength_hear hheard (.waiting phase .looking)
    simp only [State.rank, State.reseederRank, hreseeder, Event.isOwn, Event.isClock, reduceIte, Bool.false_eq_true]
    omega
  | hearEnd hreseeder hheard hclosed =>
    obtain ⟨hpos, -⟩ := waitLength_bounds (s := s) .listening
    simp only [State.rank, State.reseederRank, hreseeder, Event.isOwn, Event.isClock, reduceIte, Bool.false_eq_true]
    omega
  | @wake wait hreseeder _ =>
    obtain ⟨hpos, -⟩ := waitLength_bounds (s := s) wait
    obtain ⟨-, hle⟩ := waitLength_bounds (s := s) .looking
    change s.queue.length + _ + (s.waitLength .looking + 1) + 0 ≤ _
    simp only [State.rank, State.reseederRank, hreseeder, Event.isClock, reduceIte]
    omega
  | @tick wait hreseeder =>
    obtain ⟨hpos, -⟩ := waitLength_bounds (s := s) wait
    simp only [State.rank, State.reseederRank, hreseeder, Event.isOwn, Event.isClock, reduceIte, Bool.false_eq_true]
    omega
  | breakClock _ hms => exact absurd hms hs.clock
  | @reseed master hreseeder hrunning _ =>
    obtain ⟨-, hle⟩ := waitLength_bounds (s := s) .looking
    change (s.queue ++ [Message.reseed master]).length + _ + (s.waitLength .looking + 1) + 1 ≤ _
    simp only [State.rank, State.reseederRank, hreseeder, List.length_append, List.length_singleton]
    omega
  | reseedNobody hreseeder _ =>
    simp only [State.rank, State.reseederRank, hreseeder, Event.isOwn, Event.isClock, reduceIte, Bool.false_eq_true]
    omega
  | endProvider hrunning _ _ =>
    change s.queue.length + 0 + s.reseederRank + 1 ≤ s.queue.length + _ + s.reseederRank + 0
    rw [if_pos hrunning]
    omega
  | join hstopped _ =>
    simp only [State.rank, State.reseederRank, hstopped, Event.isOwn, Event.isClock, reduceIte, Bool.false_eq_true]
    omega

/-- A closing service does few steps of its own before the clock goes on. -/
theorem countP_isOwn_le (hs : Closing s) (hrun : s.run events = some s') (hkept : .loseProvider ∉ events)
    (hstop : .send false ∉ events) :
    events.countP Event.isOwn + s'.rank ≤ s.rank + 5 * events.countP Event.isClock := by
  refine run_induction (P := fun events s' => .loseProvider ∉ events → .send false ∉ events →
    events.countP Event.isOwn + s'.rank ≤ s.rank + 5 * events.countP Event.isClock) (by simp) ?_ hrun hkept hstop
  intro before t t' event hbefore ih htransition hkept hstop
  rw [List.mem_append, List.mem_singleton, not_or] at hkept hstop
  have hbound := ih hkept.1 hstop.1
  have hrank := htransition.rank_le (Ne.symm hkept.2) (Ne.symm hstop.2) (closing_of_run hs hbefore hkept.1 hstop.1)
  rw [List.countP_append, List.countP_append, List.countP_singleton, List.countP_singleton]
  have hclock : 5 * (if event.isClock = true then 1 else 0) = if event.isClock = true then 5 else 0 := by split <;> rfl
  rw [Nat.mul_add, hclock]
  omega

theorem reseederRank_le : s.reseederRank ≤ 7 := by
  unfold reseederRank
  split
  · next wait _ =>
    have := (waitLength_bounds (s := s) wait).2
    omega
  all_goals decide

theorem rank_le_of_empty (hqueue : s.queue = []) : s.rank ≤ 8 := by
  have hreseeder := reseederRank_le (s := s)
  rw [State.rank, hqueue, List.length_nil]
  split <;> omega

/-- A closing service only comes to its end. -/
theorem Closing.run_exact (hs : Closing s) (hqueue : s.queue = []) (hrun : s.run events = some s')
    (hkept : .loseProvider ∉ events) (hstop : .send false ∉ events) :
    (∀ event ∈ events, event.isOwn = true ∨ event.isClock = true ∨ event = .send true ∨ event = .closeStop) ∧
      (s'.reseeder = .finished ∨ ∃ event t, event.isOwn = true ∧ s'.step event = some t) ∧
      events.countP Event.isOwn ≤ 8 + 5 * events.countP Event.isClock := by
  refine ⟨fun event hmem => ?_, ?_, ?_⟩
  · obtain ⟨before, after, rfl⟩ := List.append_of_mem hmem
    obtain ⟨t, hbefore, hrun⟩ := run_append.1 hrun
    obtain ⟨t', htransition, -⟩ := run_cons.1 hrun
    simp only [List.mem_append, List.mem_cons, not_or] at hkept hstop
    have ht := closing_of_run hs hbefore hkept.1 hstop.1
    exact htransition.event_of_closing (Ne.symm hkept.2.1) (Ne.symm hstop.2.1) ht
  · refine (Decidable.em (s'.reseeder = .finished)).imp_right fun hfinished => ?_
    obtain ⟨event, t, hown, htransition⟩ := (closing_of_run hs hrun hkept hstop).exists_step hfinished
    exact ⟨event, t, hown, htransition.step⟩
  · have hbound := countP_isOwn_le hs hrun hkept hstop
    have hrank := rank_le_of_empty hqueue
    omega

/-- Nothing is sent any more when nothing can be. -/
theorem send_notMem_of_closed {value : Bool} (hclosed : s.stop.isOpen = false) (hrun : s.run events = some s') :
    .send value ∉ events := by
  induction events generalizing s with
  | nil => simp
  | cons event events ih =>
    obtain ⟨t, htransition, hrun⟩ := run_cons.1 hrun
    rw [List.mem_cons, not_or]
    refine ⟨?_, ih (htransition.isOpen_eq_false_iff.2 (.inl hclosed)) hrun⟩
    rintro rfl
    cases htransition with
    | send hopen => cases hclosed.symm.trans hopen

/-! ## Messages in the queue -/

/-- A request whose message is in the queue is granted a generator once as many messages have been handled. -/
theorem exists_grant (hrun : s.run events = some s') (hkept : .loseProvider ∉ events)
    (hhandled : s.queue.length ≤ (handled s events).length) {request : Nat} (hmem : .lease request ∈ s.queue) :
    ∃ g, (request, g) ∈ grants s events := by
  have hqueue := run_queue hrun fun event hevent h => hkept (h ▸ hevent)
  have hall : s.queue <+: handled s events ++ s'.queue := hqueue ▸ List.prefix_append _ _
  have hfirst : s.queue <+: handled s events :=
    List.prefix_of_prefix_length_le hall (List.prefix_append _ _) hhandled
  have hrequest : request ∈ (grants s events).map Prod.fst := by
    rw [map_fst_grants hrun]
    exact List.mem_filterMap.2 ⟨_, hfirst.subset hmem, rfl⟩
  obtain ⟨⟨_, g⟩, hg, rfl⟩ := List.mem_map.1 hrequest
  exact ⟨g, hg⟩

/-! ## Shutdown -/

/-- **A service shuts down when it is told to and nobody uses it, and in no other case.** Its reseeder finishes only
after its waiting for the stop signal has ended, by a look at `true` or because nothing more could be sent. A closing
service with an empty queue can only come to its end: it is never stuck, and it does few steps of its own from one step
of the clock to the next. As long as requests can come in, the stop signal touches none of them; what is in the queue is
handled, before and after the stop. -/
theorem shutdown_exact (hstart : State.start? settings master = some start) (hreseed : 0 < settings.reseedMs)
    (hrun : start.run events = some s) (hkept : .loseProvider ∉ events) :
    (s.reseeder = .finished ∨ s.reseeder = .broken →
      s.held = false ∧ ∃ before event after, events = before ++ event :: after ∧ WaitEnds start before event) ∧
    (∀ before event, WaitEnds start before event →
      event = .look ∧ lastSent before = true ∨ event = .hear ∧ .closeStop ∈ before) ∧
    (lastSent events = true ∨ .closeStop ∈ events → s.held = false → s.queue = [] →
      ∀ more s', s.run more = some s' → .loseProvider ∉ more → .send false ∉ more ∨ .closeStop ∈ events →
        (∀ event ∈ more, event.isOwn = true ∨ event.isClock = true ∨ event = .send true ∨ event = .closeStop) ∧
        (s'.reseeder = .finished ∨ ∃ event t, event.isOwn = true ∧ s'.step event = some t) ∧
        more.countP Event.isOwn ≤ 8 + 5 * more.countP Event.isClock) ∧
    (s.held = true → ∃ r, start.run (events.filter fun event => !event.isStop) = some (s.withStop {} 0 r) ∧
      ∀ event, event.isRoll = true →
        (s.withStop {} 0 r).step event = (s.step event).map (·.withStop {} 0 r)) ∧
    (s.held = true → s.provider = .running) ∧
    (∀ request, s.progress? request = some .waiting → .lease request ∈ s.queue) ∧
    (s.queue = [] ∨ ∃ t, s.step .provide = some t) ∧
    ∀ more s', s.run more = some s' → .loseProvider ∉ more → s.queue.length ≤ (handled s more).length →
      ∀ request, .lease request ∈ s.queue → ∃ g, (request, g) ∈ grants s more := by
  obtain ⟨-, hinit⟩ := start?_eq_some_iff.1 hstart
  have hfresh : start.stop = {} := by rw [hinit]
  have hreseeder : start.reseeder = .waiting .sleeping .looking := by rw [hinit]
  have hsound := sound_of_start hstart hreseed
  have hs := sound_of_run hsound hrun hkept
  refine ⟨?_, fun _ _ h => h.exact hfresh, ?_, ?_, ?_, hs.queued, ?_, ?_⟩
  · rintro (hfinished | hbroken)
    · exact ⟨hs.released_of_finished hfinished, exists_waitEnds hsound ⟨_, _, hreseeder⟩ hrun hkept (.inr hfinished)⟩
    · exact absurd hbroken hs.unbroken
  · intro hstopping hreleased hqueue more s' hmore hkept' hstop
    obtain ⟨hvalue, hopen⟩ := run_stop hfresh hrun
    have hclosing : Closing s :=
      { hs with
        stopping := by rw [stopSeen, Bool.or_eq_true, Bool.not_eq_true', hvalue, hopen]; exact hstopping
        released := hreleased }
    have hstop : .send false ∉ more := hstop.elim id fun hclosed => send_notMem_of_closed (hopen.2 hclosed) hmore
    exact hclosing.run_exact hqueue hmore hkept' hstop
  · intro hheld
    obtain ⟨r, hwithout⟩ := run_withoutStop hsound hreseeder hrun hkept hheld
    refine ⟨r, ?_, fun event hroll => step_withStop hroll⟩
    rw [hinit] at hwithout ⊢
    exact hwithout
  · exact hs.running_of_held
  · exact (Decidable.em (s.queue = [])).imp_right fun hqueue => (hs.exists_provide hqueue).imp fun _ h => h.step
  · exact fun more s' hmore hkept' hhandled request hmem => exists_grant hmore hkept' hhandled hmem

/-- A service that is told to go on and then to stop, with a request and a tick of the clock in between. -/
def stoppedLate : List Event :=
  [.look, .send false, .hear, .look, .submit (.const 1), .wake, .provide, .work 0 Timer.never, .send true, .tick,
    .release, .reseed (masterOfSeed 2), .look, .provide, .endProvider, .join]

theorem stoppedLate_finished : ∃ start s, State.start? {} (masterOfSeed 1) = some start ∧
    start.run stoppedLate = some s ∧ s.reseeder = .finished ∧ s.held = false ∧
    ∃ before event after, stoppedLate = before ++ event :: after ∧ WaitEnds start before event := by
  have hstart : State.start? {} (masterOfSeed 1) = some { settings := {}, master := masterOfSeed 1 } := rfl
  have hfinished : (State.run { settings := {}, master := masterOfSeed 1 } stoppedLate).map State.reseeder =
      some .finished := by decide +kernel
  obtain ⟨s, hrun, hfinished⟩ := Option.map_eq_some_iff.1 hfinished
  have hends := (shutdown_exact hstart (by decide) hrun (by simp [stoppedLate])).1 (.inl hfinished)
  exact ⟨_, s, hstart, hrun, hfinished, hends⟩

end DiceNotation.Service
