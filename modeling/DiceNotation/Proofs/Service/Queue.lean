import DiceNotation.Proofs.Service.Transitions

/-!
# Messages in order

The queue neither loses nor doubles nor swaps a message. What the provider takes in the course of a history, followed by
what is still in the queue, is what was sent (`run_queue`), or the first part of it if the provider was lost meanwhile
(`run_messages`).

Requests are numbered in the order in which they come in, and each sends one message. So their messages are sent and
taken in the order of the numbers (`sent_requests`, `handled_requests`).
-/

namespace DiceNotation.Service

variable {s s' : State} {event : Event} {events : List Event}

def Message.request? : Message → Option Nat
  | lease request => some request
  | reseed _ => none

def Message.master? : Message → Option (Nat → Block)
  | lease _ => none
  | reseed master => some master

namespace State

/-- The message that an event puts into the queue. -/
def sent (s : State) : Event → List Message
  | .submit _ => if s.provider = .running then [.lease s.requests.size] else []
  | .reseed master => if s.provider = .running then [.reseed master] else []
  | _ => []

/-- The message that an event takes out of the queue. -/
def taken (s : State) : Event → List Message
  | .provide => s.queue.take 1
  | _ => []

end State

/-- The messages that the provider handles in the course of a history. -/
def handled (s : State) (events : List Event) : List Message :=
  along State.taken s events

/-! ## First in, first out -/

theorem Transition.queue_eq (h : Transition s event s') (hkept : event ≠ .loseProvider) :
    s.queue ++ s.sent event = s.taken event ++ s'.queue := by
  cases h with
  | lose _ => exact absurd rfl hkept
  | accept _ _ hrunning | reseed _ hrunning _ => simp [State.sent, State.taken, hrunning]
  | refuse _ _ hgone | reseedNobody _ hgone => simp [State.sent, State.taken, hgone]
  | lease _ hqueue | newMaster _ hqueue => simp [State.sent, State.taken, hqueue]
  | _ => simp [State.sent, State.taken, State.setProgress]

theorem Transition.provider_ne (h : Transition s event s') (hgone : s.provider ≠ .running) :
    s'.provider ≠ .running := by
  cases h <;> simp_all [State.setProgress]

/-- Nothing is sent to a provider that is gone. -/
theorem along_sent_of_gone (hgone : s.provider ≠ .running) (hrun : s.run events = some s') :
    along State.sent s events = [] := by
  induction events generalizing s with
  | nil => rfl
  | cons event events ih =>
    obtain ⟨t, htransition, hrun⟩ := run_cons.1 hrun
    have hnone : s.sent event = [] := by
      cases event <;> simp [State.sent, hgone]
    rw [along_cons htransition, hnone, ih (htransition.provider_ne hgone) hrun, List.append_nil]

/-- Messages are taken in the order in which they were sent, and what is not taken is in the queue. -/
theorem run_queue (hrun : s.run events = some s') (hkept : ∀ event ∈ events, event ≠ .loseProvider) :
    s.queue ++ along State.sent s events = handled s events ++ s'.queue := by
  induction events generalizing s with
  | nil =>
    obtain rfl := run_nil.1 hrun
    simp [handled, along]
  | cons event events ih =>
    obtain ⟨t, htransition, hrun⟩ := run_cons.1 hrun
    obtain ⟨hevent, hevents⟩ := List.forall_mem_cons.1 hkept
    rw [handled, along_cons htransition, along_cons htransition, ← List.append_assoc, htransition.queue_eq hevent,
      List.append_assoc, ih hrun hevents, ← List.append_assoc]
    rfl

/-- A lost provider takes the messages in its queue with it. -/
theorem run_messages (hrun : s.run events = some s') :
    handled s events ++ s'.queue <+: s.queue ++ along State.sent s events := by
  induction events generalizing s with
  | nil =>
    obtain rfl := run_nil.1 hrun
    simp [handled, along]
  | cons event events ih =>
    obtain ⟨t, htransition, hrun⟩ := run_cons.1 hrun
    rw [handled, along_cons htransition, along_cons htransition, ← List.append_assoc, List.append_assoc]
    by_cases hlose : event = .loseProvider
    · subst hlose
      cases htransition with
      | lose _ =>
        have hnone := along_sent_of_gone (by simp) hrun
        have hfirst := ih hrun
        rw [hnone] at hfirst
        exact hfirst.trans List.nil_prefix
    · rw [htransition.queue_eq hlose, List.append_assoc]
      exact (List.prefix_append_right_inj _).2 (ih hrun)

/-! ## The order of requests -/

theorem Transition.size_le (h : Transition s event s') : s.requests.size ≤ s'.requests.size := by
  cases h <;> simp [State.setProgress]

theorem run_size_le (hrun : s.run events = some s') : s.requests.size ≤ s'.requests.size := by
  induction events generalizing s with
  | nil =>
    obtain rfl := run_nil.1 hrun
    exact Nat.le_refl _
  | cons event events ih =>
    obtain ⟨t, htransition, hrun⟩ := run_cons.1 hrun
    exact Nat.le_trans htransition.size_le (ih hrun)

/-- A request that is sent gets the next number. -/
theorem Transition.sent_requests (h : Transition s event s') :
    (s.sent event).filterMap Message.request? = [] ∨
      (s.sent event).filterMap Message.request? = [s.requests.size] ∧ s'.requests.size = s.requests.size + 1 := by
  cases h with
  | accept _ _ hrunning => exact .inr ⟨by simp [State.sent, hrunning, Message.request?], by simp⟩
  | refuse _ _ hgone | reseedNobody _ hgone => exact .inl (by simp [State.sent, hgone])
  | reseed _ hrunning _ => exact .inl (by simp [State.sent, hrunning, Message.request?])
  | _ => exact .inl rfl

theorem sent_requests (hrun : s.run events = some s') :
    ((along State.sent s events).filterMap Message.request?).Pairwise (· < ·) ∧
      ∀ request ∈ (along State.sent s events).filterMap Message.request?,
        s.requests.size ≤ request ∧ request < s'.requests.size := by
  induction events generalizing s with
  | nil => simp [along]
  | cons event events ih =>
    obtain ⟨t, htransition, hrun⟩ := run_cons.1 hrun
    obtain ⟨hordered, hbounds⟩ := ih hrun
    have hsize := htransition.size_le
    rw [along_cons htransition, List.filterMap_append]
    rcases htransition.sent_requests with hnone | ⟨hone, hnext⟩
    · rw [hnone, List.nil_append]
      exact ⟨hordered, fun request hrequest => (hbounds request hrequest).imp_left (Nat.le_trans hsize)⟩
    · have hlast := run_size_le hrun
      rw [hone, List.singleton_append]
      refine ⟨List.pairwise_cons.2 ⟨fun request hrequest => ?_, hordered⟩, ?_⟩
      · have := (hbounds request hrequest).1
        omega
      · intro request hrequest
        rcases List.mem_cons.1 hrequest with rfl | hrequest
        · omega
        · have := hbounds request hrequest
          omega

/-- From an empty queue, requests are handled in the order in which they came in, those in the queue last. -/
theorem handled_requests (hrun : s.run events = some s') (hempty : s.queue = []) :
    ((handled s events ++ s'.queue).filterMap Message.request?).Pairwise (· < ·) ∧
      ∀ request ∈ (handled s events ++ s'.queue).filterMap Message.request?, request < s'.requests.size := by
  have hfirst := (run_messages hrun).filterMap Message.request?
  rw [hempty, List.nil_append] at hfirst
  obtain ⟨hordered, hbounds⟩ := sent_requests hrun
  exact ⟨hordered.sublist hfirst.sublist, fun request hrequest => (hbounds request (hfirst.subset hrequest)).2⟩

/-! ## What fits -/

theorem run_length_le (hempty : s.queue = []) (hrun : s.run events = some s') : s'.queue.length ≤ capacity := by
  refine run_induction (P := fun _ s' => s'.queue.length ≤ capacity) (by simp [hempty]) ?_ hrun
  intro before t t' event _ ih htransition
  cases htransition with
  | accept _ hfull _ | reseed _ _ hfull =>
    have hlt : ¬capacity ≤ t.queue.length := of_decide_eq_false hfull
    simp only [List.length_append, List.length_singleton]
    omega
  | lease _ hqueue | newMaster _ hqueue =>
    rw [hqueue] at ih
    exact Nat.le_of_succ_le ih
  | lose _ => exact Nat.zero_le _
  | _ => exact ih

/-- A provider that is gone leaves an empty queue. -/
theorem run_queue_of_gone (hprovider : s.provider = .running) (hrun : s.run events = some s')
    (hgone : s'.provider ≠ .running) : s'.queue = [] := by
  refine run_induction (P := fun _ s' => s'.provider ≠ .running → s'.queue = []) (absurd hprovider) ?_ hrun hgone
  intro before t t' event _ ih htransition hgone
  cases htransition with
  | accept _ _ hrunning | lease hrunning _ | newMaster hrunning _ | reseed _ hrunning _ => exact absurd hrunning hgone
  | lose _ => rfl
  | endProvider _ hqueue _ => exact hqueue
  | _ => exact ih hgone

end DiceNotation.Service
