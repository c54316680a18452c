import DiceNotation.Service.Step

/-!
# Every transition

`Transition s event s'` says what an event makes of a state, one constructor for each way in which it can happen, with
all that has to hold for it. **An event happens exactly if there is such a transition** (`step_eq_some_iff`).

A history takes its events one after the other (`run_cons`, `run_append`), so what every transition preserves a history
preserves (`run_induction`). What the events of a history contribute, each from the state it meets, is joined by
`along`.
-/

namespace DiceNotation.Service

open State

variable {s s' t : State} {event : Event} {events more : List Event}

/-! ## Transitions -/

inductive Transition (s : State) : Event → State → Prop
  | accept {e : Expr} : s.held = true → s.isFull = false → s.provider = .running →
      Transition s (.submit e)
        { s with queue := s.queue ++ [.lease s.requests.size], requests := s.requests.push ⟨e, .waiting⟩ }
  | refuse {e : Expr} : s.held = true → s.isFull = false → s.provider ≠ .running →
      Transition s (.submit e) { s with requests := s.requests.push ⟨e, .answered (.error .workerGone)⟩ }
  | lease {request : Nat} {queue : List Message} : s.provider = .running → s.queue = .lease request :: queue →
      Transition s .provide
        { s with queue, handed := s.handed + 1, requests := s.requests.modify request (grant s.generator) }
  | newMaster {master : Nat → Block} {queue : List Message} : s.provider = .running →
      s.queue = .reseed master :: queue → Transition s .provide { s with queue, master, handed := 0 }
  | work {request : Nat} {timer : Nat → Bool} {e : Expr} {g : Xoshiro} : s.requests[request]? = some ⟨e, .leased g⟩ →
      Transition s (.work request timer) (s.setProgress request (.answered (evaluate e g timer)))
  | breakDown {request : Nat} {g : Xoshiro} : s.progress? request = some (.leased g) →
      Transition s (.breakDown request) (s.setProgress request (.answered (.error .workerGone)))
  | cancel {request : Nat} {p : Progress} : s.progress? request = some p → p.isOver = false →
      Transition s (.cancel request) (s.setProgress request .cancelled)
  | lose : s.provider = .running →
      Transition s .loseProvider { s with provider := .lost, queue := [], requests := s.requests.map abandon }
  | send {value : Bool} : s.stop.isOpen = true →
      Transition s (.send value) { s with stop := { s.stop with value, version := s.stop.version + 1 } }
  | close : s.stop.isOpen = true → Transition s .closeStop { s with stop := { s.stop with isOpen := false } }
  | seeStop {phase : Phase} : s.reseeder = .waiting phase .looking → s.stop.value = true →
      Transition s .look { s with reseeder := .stopped }
  | seeNone {phase : Phase} : s.reseeder = .waiting phase .looking → s.stop.value = false →
      Transition s .look { s with reseeder := .waiting phase .listening }
  | hearValue {phase : Phase} : s.reseeder = .waiting phase .listening → s.heard ≠ s.stop.version →
      Transition s .hear { s with heard := s.stop.version, reseeder := .waiting phase .looking }
  | hearEnd {phase : Phase} : s.reseeder = .waiting phase .listening → s.heard = s.stop.version →
      s.stop.isOpen = false → Transition s .hear { s with reseeder := .stopped }
  | wake {wait : Wait} : s.reseeder = .waiting .sleeping wait → s.settings.reseedMs ≠ 0 →
      Transition s .wake { s with reseeder := .waiting .ticking .looking }
  | breakClock {wait : Wait} : s.reseeder = .waiting .sleeping wait → s.settings.reseedMs = 0 →
      Transition s .wake { s with reseeder := .broken }
  | tick {wait : Wait} : s.reseeder = .waiting .ticking wait → Transition s .tick { s with reseeder := .sending }
  | reseed {master : Nat → Block} : s.reseeder = .sending → s.provider = .running → s.isFull = false →
      Transition s (.reseed master)
        { s with queue := s.queue ++ [.reseed master], reseeder := .waiting .ticking .looking }
  | reseedNobody {master : Nat → Block} : s.reseeder = .sending → s.provider ≠ .running →
      Transition s (.reseed master) { s with reseeder := .stopped }
  | release : s.held = true → s.requests.all (·.progress.isOver) = true →
      Transition s .release { s with held := false }
  | endProvider : s.provider = .running → s.queue = [] → s.hasSenders = false →
      Transition s .endProvider { s with provider := .ended }
  | join : s.reseeder = .stopped → s.provider ≠ .running → Transition s .join { s with reseeder := .finished }

theorem transition_of_look (h : s.look = some s') : Transition s .look s' := by
  unfold State.look at h
  split at h
  · next phase hreseeder =>
    obtain rfl := Option.some.inj h
    cases hvalue : s.stop.value with
    | true => exact .seeStop hreseeder hvalue
    | false => exact .seeNone hreseeder hvalue
  · cases h

theorem transition_of_hear (h : s.hear = some s') : Transition s .hear s' := by
  unfold State.hear at h
  split at h
  · next phase hreseeder =>
    split at h
    · next hheard =>
      obtain rfl := Option.some.inj h
      exact .hearValue hreseeder hheard
    · next hheard =>
      split at h
      · cases h
      · next hopen =>
        obtain rfl := Option.some.inj h
        exact .hearEnd hreseeder (Decidable.not_not.1 hheard) (Bool.eq_false_iff.2 hopen)
  · cases h

theorem transition_of_wake (h : s.wake = some s') : Transition s .wake s' := by
  unfold State.wake at h
  split at h
  · next wait hreseeder =>
    obtain rfl := Option.some.inj h
    by_cases hms : s.settings.reseedMs = 0
    · rw [if_pos hms]
      exact .breakClock hreseeder hms
    · rw [if_neg hms]
      exact .wake hreseeder hms
  · cases h

theorem transition_of_tick (h : s.tick = some s') : Transition s .tick s' := by
  unfold State.tick at h
  split at h
  · next wait hreseeder =>
    obtain rfl := Option.some.inj h
    exact .tick hreseeder
  · cases h

theorem transition_of_reseed {master : Nat → Block} (h : s.reseed master = some s') :
    Transition s (.reseed master) s' := by
  unfold State.reseed at h
  split at h
  · next hreseeder =>
    split at h
    · next hrunning =>
      split at h
      · cases h
      · next hfull =>
        obtain rfl := Option.some.inj h
        exact .reseed hreseeder hrunning (Bool.eq_false_iff.2 hfull)
    · next hgone =>
      obtain rfl := Option.some.inj h
      exact .reseedNobody hreseeder hgone
  · cases h

theorem transition_of_submit {e : Expr} (h : s.step (.submit e) = some s') : Transition s (.submit e) s' := by
  rw [step] at h
  split at h
  · next hguard =>
    obtain ⟨hheld, hfull⟩ := Bool.and_eq_true_iff.1 hguard
    have hfull : s.isFull = false := by simpa using hfull
    obtain rfl := Option.some.inj h
    unfold State.submit
    by_cases hrunning : s.provider = .running
    · rw [if_pos hrunning]
      exact .accept hheld hfull hrunning
    · rw [if_neg hrunning]
      exact .refuse hheld hfull hrunning
  · cases h

theorem transition_of_provide (h : s.step .provide = some s') : Transition s .provide s' := by
  rw [step] at h
  split at h
  · next m queue hrunning hqueue =>
    obtain rfl := Option.some.inj h
    cases m with
    | lease request => exact .lease hrunning hqueue
    | reseed master => exact .newMaster hrunning hqueue
  · cases h

theorem transition_of_step (h : s.step event = some s') : Transition s event s' := by
  cases event with
  | submit e => exact transition_of_submit h
  | provide => exact transition_of_provide h
  | look => exact transition_of_look h
  | hear => exact transition_of_hear h
  | wake => exact transition_of_wake h
  | tick => exact transition_of_tick h
  | reseed master => exact transition_of_reseed h
  | work request timer =>
    rw [step] at h
    split at h
    · next e g hrequest =>
      obtain rfl := Option.some.inj h
      exact .work hrequest
    · cases h
  | breakDown request =>
    rw [step] at h
    split at h
    · next g hprogress =>
      obtain rfl := Option.some.inj h
      exact .breakDown hprogress
    · cases h
  | cancel request =>
    rw [step] at h
    split at h
    · next p hprogress =>
      split at h
      · cases h
      · next hover =>
        obtain rfl := Option.some.inj h
        exact .cancel hprogress (Bool.eq_false_iff.2 hover)
    · cases h
  | loseProvider =>
    obtain ⟨hrunning, h⟩ := Option.ite_none_right_eq_some.1 h
    obtain rfl := Option.some.inj h
    exact .lose hrunning
  | send value =>
    obtain ⟨hopen, h⟩ := Option.ite_none_right_eq_some.1 h
    obtain rfl := Option.some.inj h
    exact .send hopen
  | closeStop =>
    obtain ⟨hopen, h⟩ := Option.ite_none_right_eq_some.1 h
    obtain rfl := Option.some.inj h
    exact .close hopen
  | release =>
    obtain ⟨⟨hheld, hover⟩, h⟩ := Option.ite_none_right_eq_some.1 h
    obtain rfl := Option.some.inj h
    exact .release hheld hover
  | endProvider =>
    obtain ⟨⟨hrunning, hqueue, hsenders⟩, h⟩ := Option.ite_none_right_eq_some.1 h
    obtain rfl := Option.some.inj h
    exact .endProvider hrunning (List.isEmpty_iff.1 hqueue) (by simpa using hsenders)
  | join =>
    obtain ⟨⟨hstopped, hgone⟩, h⟩ := Option.ite_none_right_eq_some.1 h
    obtain rfl := Option.some.inj h
    exact .join hstopped hgone

theorem Transition.step (h : Transition s event s') : s.step event = some s' := by
  cases h with
  | accept hheld hfull hrunning => simp [State.step, State.submit, hheld, hfull, hrunning]
  | refuse hheld hfull hgone => simp [State.step, State.submit, hheld, hfull, hgone]
  | lease hrunning hqueue | newMaster hrunning hqueue =>
    simp [State.step, hrunning, hqueue, State.handle, State.lease, State.generator]
  | work hrequest => simp [State.step, hrequest]
  | breakDown hprogress => simp [State.step, hprogress]
  | cancel hprogress hover => simp [State.step, hprogress, hover]
  | lose hrunning => simp [State.step, hrunning]
  | send hopen | close hopen => simp [State.step, hopen]
  | seeStop hreseeder hvalue | seeNone hreseeder hvalue => simp [State.step, State.look, hreseeder, hvalue]
  | hearValue hreseeder hheard => simp [State.step, State.hear, hreseeder, hheard]
  | hearEnd hreseeder hheard hopen => simp [State.step, State.hear, hreseeder, hheard, hopen]
  | wake hreseeder hms | breakClock hreseeder hms => simp [State.step, State.wake, hreseeder, hms]
  | tick hreseeder => simp [State.step, State.tick, hreseeder]
  | reseed hreseeder hrunning hfull => simp [State.step, State.reseed, hreseeder, hrunning, hfull]
  | reseedNobody hreseeder hgone => simp [State.step, State.reseed, hreseeder, hgone]
  | release hheld hover => simp only [State.step, hheld, hover, and_self, if_true]
  | endProvider hrunning hqueue hsenders => simp [State.step, hrunning, hqueue, hsenders]
  | join hstopped hgone => simp [State.step, hstopped, hgone]

theorem step_eq_some_iff : s.step event = some s' ↔ Transition s event s' :=
  ⟨transition_of_step, Transition.step⟩

/-! ## Histories -/

theorem start?_eq_some_iff {settings : Settings} {master : Nat → Block} :
    State.start? settings master = some s ↔ settings.workers ≠ 0 ∧ s = { settings, master } := by
  rw [start?, Option.ite_none_left_eq_some, Option.some.injEq, eq_comm (a := s)]

theorem run_nil : s.run [] = some s' ↔ s = s' := by
  simp [run]

theorem run_cons : s.run (event :: events) = some s' ↔ ∃ t, Transition s event t ∧ t.run events = some s' := by
  simp only [run, List.foldlM_cons, Option.bind_eq_bind, Option.bind_eq_some_iff, step_eq_some_iff]

theorem run_singleton : s.run [event] = some s' ↔ Transition s event s' := by
  simp only [run_cons, run_nil, exists_eq_right]

theorem run_append : s.run (events ++ more) = some s' ↔ ∃ t, s.run events = some t ∧ t.run more = some s' := by
  simp only [run, List.foldlM_append, Option.bind_eq_bind, Option.bind_eq_some_iff]

theorem run_concat : s.run (events ++ [event]) = some s' ↔ ∃ t, s.run events = some t ∧ Transition t event s' := by
  simp only [run_append, run_cons, run_nil, exists_eq_right]

/-- What holds of a state and is kept by every transition holds after each part of a history, with the events so far. -/
theorem run_induction {P : List Event → State → Prop} (hnil : P [] s)
    (hconcat : ∀ {before : List Event} {t t' : State} {event : Event},
      s.run before = some t → P before t → Transition t event t' → P (before ++ [event]) t')
    (hrun : s.run events = some s') : P events s' := by
  have hall : ∀ {before more : List Event} {t t' : State},
      s.run before = some t → P before t → t.run more = some t' → P (before ++ more) t' := by
    intro before more
    induction more generalizing before with
    | nil =>
      intro t t' _ h hmore
      obtain rfl := run_nil.1 hmore
      rwa [List.append_nil]
    | cons event more ih =>
      intro t t' hbefore h hmore
      obtain ⟨u, htransition, hmore⟩ := run_cons.1 hmore
      rw [List.append_cons]
      exact ih (run_concat.2 ⟨t, hbefore, htransition⟩) (hconcat hbefore h htransition) hmore
  exact hall (run_nil.2 rfl) hnil hrun

theorem Transition.settings_eq (h : Transition s event s') : s'.settings = s.settings := by
  cases h <;> rfl

theorem run_settings (hrun : s.run events = some s') : s'.settings = s.settings := by
  refine run_induction (P := fun _ s' => s'.settings = s.settings) rfl ?_ hrun
  intro before t t' event _ ih htransition
  rw [htransition.settings_eq, ih]

theorem attempt_of_transition (h : Transition s event s') : s.attempt event = s' := by
  rw [attempt, h.step, Option.getD_some]

/-! ## Contributions -/

/-- What the events of a history contribute, each from the state it meets. -/
def along {α : Type} (f : State → Event → List α) : State → List Event → List α
  | _, [] => []
  | s, event :: events => f s event ++ along f (s.attempt event) events

section

variable {α : Type} {f : State → Event → List α}

theorem along_cons (h : Transition s event s') : along f s (event :: events) = f s event ++ along f s' events := by
  rw [along, attempt_of_transition h]

theorem along_append (h : s.run events = some s') :
    along f s (events ++ more) = along f s events ++ along f s' more := by
  induction events generalizing s with
  | nil =>
    obtain rfl := run_nil.1 h
    rfl
  | cons event events ih =>
    obtain ⟨t, htransition, hrun⟩ := run_cons.1 h
    rw [List.cons_append, along_cons htransition, along_cons htransition, ih hrun, List.append_assoc]

theorem along_concat (h : s.run events = some t) : along f s (events ++ [event]) = along f s events ++ f t event := by
  rw [along_append h, along, along, List.append_nil]

/-- A contribution is that of one event. -/
theorem exists_of_mem_along {a : α} (hrun : s.run events = some s') (ha : a ∈ along f s events) :
    ∃ before event after t, events = before ++ event :: after ∧ s.run before = some t ∧ a ∈ f t event := by
  induction events generalizing s with
  | nil => cases ha
  | cons event events ih =>
    obtain ⟨t, htransition, hrun⟩ := run_cons.1 hrun
    rw [along_cons htransition] at ha
    rcases List.mem_append.1 ha with ha | ha
    · exact ⟨[], event, events, s, rfl, run_nil.2 rfl, ha⟩
    · obtain ⟨before, event', after, u, rfl, hbefore, ha⟩ := ih hrun ha
      exact ⟨event :: before, event', after, u, rfl, run_cons.2 ⟨t, htransition, hbefore⟩, ha⟩

end

end DiceNotation.Service
