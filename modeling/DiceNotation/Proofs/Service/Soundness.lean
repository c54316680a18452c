import DiceNotation.Proofs.Service.Requests

/-!
# What holds as long as the provider is not lost

`Sound` collects what every part of a service can rely on. **Each transition but the loss of the provider keeps it**
(`Transition.sound`), so it holds in all states that a history without a loss leads to (`sound_of_run`):

- while a message can still come in, the provider runs;
- a request that waits has its message in the queue;
- a reseeder that listens and has heard all values of the stop signal knows that the last one is `false`.
-/

namespace DiceNotation.Service

open State

variable {settings : Settings} {master : Nat → Block} {start s s' : State} {event : Event} {events : List Event}

structure Sound (s : State) : Prop where
  /-- The clock does not tick all the time. -/
  clock : s.settings.reseedMs ≠ 0
  unbroken : s.reseeder ≠ .broken
  provided : s.hasSenders = true → s.provider = .running
  emptied : s.provider ≠ .running → s.queue = []
  joined : s.reseeder = .finished → s.provider ≠ .running
  queued : ∀ request, s.progress? request = some .waiting → .lease request ∈ s.queue
  settled : s.held = false → ∀ request p, s.progress? request = some p → p.isOver = true
  heard_le : s.heard ≤ s.stop.version
  listening : ∀ phase, s.reseeder = .waiting phase .listening → s.heard = s.stop.version → s.stop.value = false

/-! ## Requests -/

theorem isOver_of_all (h : s.requests.all (·.progress.isOver) = true) {request : Nat} {p : Progress}
    (hp : s.progress? request = some p) : p.isOver = true := by
  obtain ⟨e, hrequest⟩ := progress?_eq_some_iff.1 hp
  obtain ⟨hlt, hget⟩ := Array.getElem?_eq_some_iff.1 hrequest
  have := Array.all_eq_true.1 h request hlt
  rwa [hget] at this

/-- A request that is over stays as it is, and one that is leased is not. -/
theorem Transition.requests_eq (h : Transition s event s') (hkept : event ≠ .loseProvider) (hheld : s.held = false)
    (hover : ∀ request p, s.progress? request = some p → p.isOver = true) : s'.requests = s.requests := by
  cases h with
  | accept h _ _ | refuse h _ _ => rw [hheld] at h; cases h
  | @lease request _ _ _ =>
    refine Array.ext_getElem? fun i => ?_
    rw [Array.getElem?_modify]
    split
    · cases hi : s.requests[i]? with
      | none => rfl
      | some r =>
        have hp := hover i r.progress (progress?_eq_some_iff.2 ⟨r.expr, hi⟩)
        rcases r with ⟨e, _ | _ | _ | _⟩ <;> first | rfl | cases hp
    · rfl
  | work hrequest => cases hover _ _ (progress?_eq_some_iff.2 ⟨_, hrequest⟩)
  | breakDown hp => cases hover _ _ hp
  | cancel hp hnot => rw [hover _ _ hp] at hnot; cases hnot
  | lose _ => exact absurd rfl hkept
  | _ => rfl

/-! ## Waiting requests -/

theorem progress?_setProgress {request other : Nat} {progress : Progress} (hwaiting : progress ≠ .waiting)
    (h : (s.setProgress request progress).progress? other = some .waiting) : s.progress? other = some .waiting := by
  by_cases hsame : request = other
  · subst hsame
    rw [progress?, getElem?_setProgress, Option.map_map] at h
    obtain ⟨_, -, hp⟩ := Option.map_eq_some_iff.1 h
    exact absurd hp hwaiting
  · rwa [progress?, getElem?_setProgress_of_ne hsame] at h

theorem Transition.queued (h : Transition s event s') (hkept : event ≠ .loseProvider)
    (hqueued : ∀ request, s.progress? request = some .waiting → .lease request ∈ s.queue) (request : Nat)
    (hwaiting : s'.progress? request = some .waiting) : .lease request ∈ s'.queue := by
  cases h with
  | accept _ _ _ =>
    rw [progress?, Array.getElem?_push] at hwaiting
    split at hwaiting
    · next hnew => simp [hnew]
    · exact List.mem_append_left _ (hqueued request hwaiting)
  | refuse _ _ _ =>
    rw [progress?, Array.getElem?_push] at hwaiting
    split at hwaiting
    · simp at hwaiting
    · exact hqueued request hwaiting
  | @lease other queue _ hqueue =>
    rw [progress?, Array.getElem?_modify] at hwaiting
    split at hwaiting
    · -- It has a generator now.
      obtain ⟨r, hr, hp⟩ := Option.map_eq_some_iff.1 hwaiting
      obtain ⟨⟨e, p⟩, -, rfl⟩ := Option.map_eq_some_iff.1 hr
      cases p <;> cases hp
    · next hne =>
      have hmem := hqueued request hwaiting
      rw [hqueue] at hmem
      rcases List.mem_cons.1 hmem with hsame | hmem
      · exact absurd (Message.lease.inj hsame).symm hne
      · exact hmem
  | newMaster _ hqueue =>
    have hmem := hqueued request hwaiting
    rw [hqueue] at hmem
    exact (List.mem_cons.1 hmem).resolve_left (by simp)
  | work _ | breakDown _ | cancel _ _ => exact hqueued request (progress?_setProgress (by simp) hwaiting)
  | lose _ => exact absurd rfl hkept
  | reseed _ _ _ => exact List.mem_append_left _ (hqueued request hwaiting)
  | _ => exact hqueued request hwaiting

/-! ## Parts -/

theorem Transition.provided (h : Transition s event s') (hkept : event ≠ .loseProvider)
    (hprovided : s.hasSenders = true → s.provider = .running) : s'.hasSenders = true → s'.provider = .running := by
  cases h with
  | lose _ => exact absurd rfl hkept
  | wake hreseeder _ | tick hreseeder | reseed hreseeder _ _ =>
    exact fun _ => hprovided (by simp [hasSenders, hreseeder, Reseeder.isSender])
  | seeNone hreseeder _ | hearValue hreseeder _ =>
    exact fun _ => hprovided (by simp [hasSenders, hreseeder, Reseeder.isSender])
  | seeStop _ _ | hearEnd _ _ _ | breakClock _ _ | reseedNobody _ _ | join _ _ =>
    exact fun hsenders => hprovided (by simp_all [hasSenders, Reseeder.isSender])
  | release hheld _ => exact fun _ => hprovided (by simp [hasSenders, hheld])
  | endProvider _ _ hsenders => exact fun h => absurd h (Bool.eq_false_iff.1 hsenders)
  | _ => exact hprovided

theorem Transition.heard_le (h : Transition s event s') (hle : s.heard ≤ s.stop.version) :
    s'.heard ≤ s'.stop.version := by
  cases h with
  | send _ => exact Nat.le_succ_of_le hle
  | hearValue _ _ => exact Nat.le_refl _
  | _ => exact hle

theorem Transition.listening (h : Transition s event s') (hle : s.heard ≤ s.stop.version)
    (hlistening : ∀ phase, s.reseeder = .waiting phase .listening → s.heard = s.stop.version → s.stop.value = false)
    (phase : Phase) (hreseeder : s'.reseeder = .waiting phase .listening) (hheard : s'.heard = s'.stop.version) :
    s'.stop.value = false := by
  cases h with
  | send _ =>
    -- There is a value that it has not heard.
    change s.heard = s.stop.version + 1 at hheard
    omega
  | seeNone _ hvalue => exact hvalue
  | seeStop _ _ | hearValue _ _ | hearEnd _ _ _ | wake _ _ | breakClock _ _ | tick _ | reseed _ _ _
  | reseedNobody _ _ | join _ _ => cases hreseeder
  | _ => exact hlistening phase hreseeder hheard

/-! ## All together -/

theorem Transition.sound (h : Transition s event s') (hkept : event ≠ .loseProvider) (hs : Sound s) : Sound s' where
  clock := by rw [h.settings_eq]; exact hs.clock
  unbroken := by
    cases h with
    | breakClock _ hms => exact absurd hms hs.clock
    | seeStop _ _ | seeNone _ _ | hearValue _ _ | hearEnd _ _ _ | wake _ _ | tick _ | reseed _ _ _ | reseedNobody _ _
    | join _ _ => simp
    | _ => exact hs.unbroken
  provided := h.provided hkept hs.provided
  emptied := by
    cases h with
    | accept _ _ hrunning | lease hrunning _ | newMaster hrunning _ | reseed _ hrunning _ =>
      exact fun hgone => absurd hrunning hgone
    | lose _ => exact absurd rfl hkept
    | endProvider _ hqueue _ => exact fun _ => hqueue
    | _ => exact hs.emptied
  joined := by
    cases h with
    | join _ hgone => exact fun _ => hgone
    | lose _ | endProvider _ _ _ => simp
    | seeStop _ _ | seeNone _ _ | hearValue _ _ | hearEnd _ _ _ | wake _ _ | breakClock _ _ | tick _ | reseed _ _ _
    | reseedNobody _ _ => exact fun h => by cases h
    | _ => exact hs.joined
  queued := h.queued hkept hs.queued
  settled := by
    intro hheld request p hp
    cases hbefore : s.held with
    | false =>
      have hsame := h.requests_eq hkept hbefore (hs.settled hbefore)
      exact hs.settled hbefore request p (by rwa [progress?, hsame] at hp)
    | true =>
      cases h with
      | release _ hover => exact isOver_of_all hover hp
      | _ => cases hbefore.symm.trans hheld
  heard_le := h.heard_le hs.heard_le
  listening := h.listening hs.heard_le hs.listening

theorem sound_of_start (hstart : State.start? settings master = some start) (hreseed : 0 < settings.reseedMs) :
    Sound start := by
  obtain ⟨-, rfl⟩ := start?_eq_some_iff.1 hstart
  exact
    { clock := Nat.ne_of_gt hreseed
      unbroken := by simp
      provided := fun _ => rfl
      emptied := fun hgone => absurd rfl hgone
      joined := by simp
      queued := by simp [progress?]
      settled := by simp
      heard_le := Nat.le_refl _
      listening := by simp }

theorem sound_of_run (hs : Sound s) (hrun : s.run events = some s') (hkept : .loseProvider ∉ events) : Sound s' := by
  refine run_induction (P := fun events s' => .loseProvider ∉ events → Sound s') (fun _ => hs) ?_ hrun hkept
  intro before t t' event _ ih htransition hkept
  rw [List.mem_append, List.mem_singleton, not_or] at hkept
  exact htransition.sound (Ne.symm hkept.2) (ih hkept.1)

namespace Sound

theorem running_of_held (hs : Sound s) (hheld : s.held = true) : s.provider = .running :=
  hs.provided (by simp [hasSenders, hheld])

theorem released_of_finished (hs : Sound s) (hfinished : s.reseeder = .finished) : s.held = false := by
  rw [← Bool.not_eq_true]
  exact fun hheld => hs.joined hfinished (hs.running_of_held hheld)

/-- A message in the queue can be handled. -/
theorem exists_provide (hs : Sound s) (hqueue : s.queue ≠ []) : ∃ t, Transition s .provide t := by
  have hrunning : s.provider = .running := Decidable.byContradiction fun hgone => hqueue (hs.emptied hgone)
  obtain ⟨m, queue, hqueue⟩ := List.exists_cons_of_ne_nil hqueue
  cases m with
  | lease _ => exact ⟨_, .lease hrunning hqueue⟩
  | reseed _ => exact ⟨_, .newMaster hrunning hqueue⟩

end Sound

end DiceNotation.Service
