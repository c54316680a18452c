import DiceNotation.Proofs.Service.Soundness

/-!
# The stop signal does not touch rolls

`withoutStop` leaves of a state what rolls depend on: requests, queue, provider and stream. As long as requests can come
in, **a history without what it has of the stop signal is a history too**, and it leads to the same requests
(`run_withoutStop`). From there on, rolls go on in the same way (`step_withStop`).
-/

namespace DiceNotation.Service

open State

variable {start s s' t : State} {event : Event} {events : List Event}

/-- The events of the stop signal. -/
def Event.isStop : Event → Bool
  | send _ | closeStop | look | hear => true
  | _ => false

/-- The events that make and answer requests. -/
def Event.isRoll : Event → Bool
  | submit _ | provide | work _ _ | breakDown _ | cancel _ => true
  | _ => false

namespace State

def withStop (s : State) (stop : StopSignal) (heard : Nat) (reseeder : Reseeder) : State :=
  { s with stop, heard, reseeder }

def withoutStop (s : State) : State :=
  s.withStop {} 0 (.waiting .sleeping .looking)

end State

/-! ## Rolls -/

theorem Transition.withStop (h : Transition s event s') (hroll : event.isRoll = true) (stop : StopSignal)
    (heard : Nat) (reseeder : Reseeder) :
    Transition (s.withStop stop heard reseeder) event (s'.withStop stop heard reseeder) := by
  cases h with
  | accept hheld hfull hrunning => exact .accept hheld hfull hrunning
  | refuse hheld hfull hgone => exact .refuse hheld hfull hgone
  | lease hrunning hqueue => exact .lease hrunning hqueue
  | newMaster hrunning hqueue => exact .newMaster hrunning hqueue
  | work hrequest => exact .work (s := s.withStop stop heard reseeder) hrequest
  | breakDown hp => exact .breakDown (s := s.withStop stop heard reseeder) hp
  | cancel hp hover => exact .cancel (s := s.withStop stop heard reseeder) hp hover
  | _ => cases hroll

/-- Rolls do not see the stop signal. -/
theorem step_withStop (hroll : event.isRoll = true) {stop : StopSignal} {heard : Nat} {reseeder : Reseeder} :
    (s.withStop stop heard reseeder).step event = (s.step event).map (·.withStop stop heard reseeder) := by
  cases h : s.step event with
  | some s' => exact ((transition_of_step h).withStop hroll stop heard reseeder).step
  | none =>
    cases h' : (s.withStop stop heard reseeder).step event with
    | none => rfl
    | some t =>
      have hback := (transition_of_step h').withStop hroll s.stop s.heard s.reseeder
      cases h.symm.trans hback.step

/-! ## Histories -/

/-- How a reseeder fares that never looks at the stop signal. -/
inductive Follows : Reseeder → Reseeder → Prop
  | waiting {phase : Phase} {wait : Wait} : Follows (.waiting phase wait) (.waiting phase .looking)
  | sending : Follows .sending .sending
  | stopped {phase : Phase} : Follows .stopped (.waiting phase .looking)

/-- An event can happen without the stop signal, or it is one of the stop signal. -/
theorem Transition.follow {r : Reseeder} (h : Transition s event s') (hs : Sound s) (hkept : event ≠ .loseProvider)
    (hheld : s'.held = true) (hfollows : Follows s.reseeder r) :
    ∃ r', (s.withStop {} 0 r).run ([event].filter fun event => !event.isStop) = some (s'.withStop {} 0 r') ∧
      Follows s'.reseeder r' := by
  have hrunning : s.held = true → s.provider = .running := fun h => hs.provided (by simp [hasSenders, h])
  have hroll : event.isRoll = true → Transition (s.withStop {} 0 r) event (s'.withStop {} 0 r) := fun hroll =>
    h.withStop hroll {} 0 r
  cases h with
  | accept _ _ _ | refuse _ _ _ | lease _ _ | newMaster _ _ | work _ | breakDown _ | cancel _ _ =>
    exact ⟨r, run_singleton.2 (hroll rfl), hfollows⟩
  | lose _ => exact absurd rfl hkept
  | send _ | close _ => exact ⟨r, run_nil.2 rfl, hfollows⟩
  | seeStop hreseeder _ | seeNone hreseeder _ | hearValue hreseeder _ | hearEnd hreseeder _ _ =>
    rw [hreseeder] at hfollows
    cases hfollows
    exact ⟨_, run_nil.2 rfl, by constructor⟩
  | wake hreseeder hms =>
    rw [hreseeder] at hfollows
    cases hfollows
    exact ⟨_, run_singleton.2 (.wake rfl hms), .waiting⟩
  | breakClock _ hms => exact absurd hms hs.clock
  | tick hreseeder =>
    rw [hreseeder] at hfollows
    cases hfollows
    exact ⟨_, run_singleton.2 (.tick rfl), .sending⟩
  | reseed hreseeder hprovider hfull =>
    rw [hreseeder] at hfollows
    cases hfollows
    exact ⟨_, run_singleton.2 (.reseed rfl hprovider hfull), .waiting⟩
  | reseedNobody _ hgone | join _ hgone => exact absurd (hrunning hheld) hgone
  | release _ _ => cases hheld
  | endProvider _ _ hsenders =>
    have hheld : s.held = true := hheld
    simp [hasSenders, hheld] at hsenders

theorem Transition.held_of_held (h : Transition s event s') (hheld : s'.held = true) : s.held = true := by
  cases h with
  | release _ _ => cases hheld
  | _ => exact hheld

/-- **The stop signal does not touch rolls** while requests can come in: without it, the same requests are reached. -/
theorem run_withoutStop (hs : Sound s) (hwaiting : s.reseeder = .waiting .sleeping .looking)
    (hrun : s.run events = some s') (hkept : .loseProvider ∉ events) (hheld : s'.held = true) :
    ∃ r, s.withoutStop.run (events.filter fun event => !event.isStop) = some (s'.withStop {} 0 r) := by
  suffices ∃ r, s.withoutStop.run (events.filter fun event => !event.isStop) = some (s'.withStop {} 0 r) ∧
      Follows s'.reseeder r from this.imp fun _ h => h.1
  refine run_induction (P := fun events s' => .loseProvider ∉ events → s'.held = true →
    ∃ r, s.withoutStop.run (events.filter fun event => !event.isStop) = some (s'.withStop {} 0 r) ∧
      Follows s'.reseeder r) ?_ ?_ hrun hkept hheld
  · exact fun _ _ => ⟨.waiting .sleeping .looking, run_nil.2 rfl, hwaiting ▸ .waiting⟩
  · intro before t t' event hbefore ih htransition hkept hheld
    rw [List.mem_append, List.mem_singleton, not_or] at hkept
    obtain ⟨r, hrun, hfollows⟩ := ih hkept.1 (htransition.held_of_held hheld)
    obtain ⟨r', hevent, hfollows⟩ :=
      htransition.follow (sound_of_run hs hbefore hkept.1) (Ne.symm hkept.2) hheld hfollows
    refine ⟨r', ?_, hfollows⟩
    rw [List.filter_append]
    exact run_append.2 ⟨_, hrun, hevent⟩

end DiceNotation.Service
