import DiceNotation.Proofs.Service.Queue

/-!
# Blocks and generators

Every lease uses up the next block of the stream in force: after the messages `ms` have been handled, that is block
`used ms` of `stream master ms`. So the generators that are granted in the course of a history follow from the messages
alone (`mem_grants_iff`): **the generator of a request is made from the block after those of the leases handled since
the last new stream**. No two leases use the same block (`eq_of_nextBlock_eq`).
-/

namespace DiceNotation.Service

variable {s s' : State} {event : Event} {events : List Event} {ms : List Message} {master : Nat → Block} {request : Nat}

/-! ## Blocks after messages -/

/-- The stream in force after these messages. -/
def stream (master : Nat → Block) (ms : List Message) : Nat → Block :=
  (ms.filterMap Message.master?).getLastD master

/-- How many of these messages are leases since the last new stream. -/
def used (ms : List Message) : Nat :=
  (ms.reverse.takeWhile fun m => m.request?.isSome).length

/-- The number of the stream in force after these messages, and the number of its next block. -/
def nextBlock (ms : List Message) : Nat × Nat :=
  ((ms.filterMap Message.master?).length, used ms)

theorem stream_append (more : List Message) : stream master (ms ++ more) = stream (stream master ms) more := by
  simp only [stream, List.filterMap_append, List.getLastD_eq_getLast?, List.getLast?_append]
  cases (more.filterMap Message.master?).getLast? <;> rfl

theorem used_append_of_leases {more : List Message} (h : ∀ m ∈ more, m.request?.isSome = true) :
    used (ms ++ more) = more.length + used ms := by
  have hreverse : ∀ m ∈ more.reverse, m.request?.isSome = true := fun m hm => h m (List.mem_reverse.1 hm)
  rw [used, List.reverse_append, List.takeWhile_append_of_pos hreverse, List.length_append, List.length_reverse]
  rfl

theorem used_append_reseed (master : Nat → Block) : used (ms ++ [.reseed master]) = 0 := by
  simp [used, Message.request?]

/-- After a lease another block is next. -/
theorem nextBlock_ne_append (more : List Message) : nextBlock ms ≠ nextBlock (ms ++ .lease request :: more) := by
  intro h
  obtain ⟨hstream, hused⟩ := Prod.mk.inj h
  by_cases hmore : ∀ m ∈ Message.lease request :: more, m.request?.isSome = true
  · rw [used_append_of_leases hmore, List.length_cons] at hused
    omega
  · have hnone : (Message.lease request :: more).filterMap Message.master? = [] := by
      rw [List.filterMap_append, List.length_append] at hstream
      exact List.length_eq_zero_iff.1 (by omega)
    refine hmore fun m hm => ?_
    have := List.filterMap_eq_nil_iff.1 hnone m hm
    cases m with
    | lease _ => rfl
    | reseed _ => cases this

/-- No block is used by two leases. -/
theorem eq_of_nextBlock_eq {before before' after after' : List Message} {request' : Nat}
    (h : ms = before ++ .lease request :: after) (h' : ms = before' ++ .lease request' :: after')
    (hblock : nextBlock before = nextBlock before') : before = before' := by
  rcases List.append_eq_append_iff.1 (h.symm.trans h') with ⟨mid, rfl, hmid⟩ | ⟨mid, rfl, hmid⟩
  · cases mid with
    | nil => rw [List.append_nil]
    | cons m mid =>
      obtain ⟨rfl, -⟩ := List.cons.inj hmid
      exact absurd hblock (nextBlock_ne_append mid)
  · cases mid with
    | nil => rw [List.append_nil]
    | cons m mid =>
      obtain ⟨rfl, -⟩ := List.cons.inj hmid
      exact absurd hblock.symm (nextBlock_ne_append mid)

/-! ## Grants -/

/-- The request that an event gives a generator, and the generator. -/
def State.granted (s : State) (event : Event) : List (Nat × Xoshiro) :=
  ((s.taken event).filterMap Message.request?).map fun request => (request, s.generator)

/-- The requests that are given generators in the course of a history, and the generators. -/
def grants (s : State) (events : List Event) : List (Nat × Xoshiro) :=
  along State.granted s events

theorem map_fst_grants (hrun : s.run events = some s') :
    (grants s events).map Prod.fst = (handled s events).filterMap Message.request? := by
  induction events generalizing s with
  | nil => rfl
  | cons event events ih =>
    obtain ⟨t, htransition, hrun⟩ := run_cons.1 hrun
    rw [grants, handled, along_cons htransition, along_cons htransition, List.map_append, List.filterMap_append]
    have hone : (s.granted event).map Prod.fst = (s.taken event).filterMap Message.request? := by
      simp [State.granted, Function.comp_def]
    rw [hone]
    exact congrArg _ (ih hrun)

/-- A request is given at most one generator, in the order in which the requests came in. -/
theorem grants_ordered (hrun : s.run events = some s') (hempty : s.queue = []) :
    (grants s events).Pairwise fun a b => a.1 < b.1 := by
  have hordered := (handled_requests hrun hempty).1
  rw [List.filterMap_append, ← map_fst_grants hrun] at hordered
  exact List.pairwise_map.1 (List.pairwise_append.1 hordered).1

/-- What is left of the master stream follows from the messages that were handled. -/
theorem run_master (hrun : s.run events = some s') (hnew : s.handed = 0) :
    s'.master = stream s.master (handled s events) ∧ s'.handed = used (handled s events) := by
  refine run_induction (P := fun events s' => s'.master = stream s.master (handled s events) ∧
    s'.handed = used (handled s events)) ⟨rfl, hnew⟩ ?_ hrun
  rintro before t t' event hbefore ⟨hmaster, hhanded⟩ htransition
  rw [handled, along_concat hbefore]
  change t'.master = stream s.master (handled s before ++ _) ∧ t'.handed = used (handled s before ++ _)
  rw [stream_append, ← hmaster]
  cases htransition with
  | lease _ hqueue =>
    rw [used_append_of_leases (by simp [State.taken, hqueue, Message.request?]), ← hhanded]
    simp [State.taken, hqueue, stream, Message.master?, Nat.add_comm]
  | newMaster _ hqueue =>
    simp only [State.taken, hqueue, List.take_succ_cons, List.take_zero]
    exact ⟨rfl, (used_append_reseed _).symm⟩
  | _ => simp [State.taken, State.setProgress, stream, hhanded]

/-- A lease among these messages and one more is the last one or stands before it. -/
theorem exists_lease_concat {Q : List Message → Prop} {m : Message} :
    (∃ before after, ms ++ [m] = before ++ .lease request :: after ∧ Q before) ↔
      (∃ before after, ms = before ++ .lease request :: after ∧ Q before) ∨ m = .lease request ∧ Q ms := by
  constructor
  · rintro ⟨before, after, h, hbefore⟩
    rcases List.eq_nil_or_concat after with rfl | ⟨after, last, rfl⟩
    · obtain ⟨rfl, hm⟩ := List.append_inj' h rfl
      exact .inr ⟨(List.cons.inj hm).1, hbefore⟩
    · rw [List.concat_eq_append, ← List.cons_append, ← List.append_assoc] at h
      exact .inl ⟨before, after, (List.append_inj' h rfl).1, hbefore⟩
  · rintro (⟨before, after, rfl, hbefore⟩ | ⟨rfl, hms⟩)
    · exact ⟨before, after ++ [m], by rw [List.append_assoc, List.cons_append], hbefore⟩
    · exact ⟨ms, [], rfl, hms⟩

/-- The generators of a history, from the messages that were handled. -/
theorem mem_grants_iff {g : Xoshiro} (hrun : s.run events = some s') (hnew : s.handed = 0) :
    (request, g) ∈ grants s events ↔
      ∃ before after, handled s events = before ++ .lease request :: after ∧
        g = .ofBytes (stream s.master before (used before)) := by
  refine run_induction (P := fun events _ => (request, g) ∈ grants s events ↔
    ∃ before after, handled s events = before ++ .lease request :: after ∧
      g = .ofBytes (stream s.master before (used before))) ?_ ?_ hrun
  · simp [grants, handled, along]
  · intro before t t' event hbefore ih htransition
    obtain ⟨hmaster, hhanded⟩ := run_master hbefore hnew
    have hgenerator : t.generator = .ofBytes (stream s.master (handled s before) (used (handled s before))) := by
      rw [State.generator, hmaster, hhanded]
    rw [grants, handled, along_concat hbefore, along_concat hbefore, List.mem_append]
    change (request, g) ∈ grants s before ∨ _ ↔ ∃ b a, handled s before ++ _ = _ ∧ _
    rw [ih]
    cases htransition with
    | @lease request' queue _ hqueue =>
      have htaken : t.taken .provide = [.lease request'] := by simp [State.taken, hqueue]
      rw [State.granted, htaken, exists_lease_concat, hgenerator]
      simp [Message.request?, eq_comm]
    | @newMaster new queue _ hqueue =>
      have htaken : t.taken .provide = [.reseed new] := by simp [State.taken, hqueue]
      rw [State.granted, htaken, exists_lease_concat]
      simp [Message.request?]
    | _ => simp [State.granted, State.taken]

end DiceNotation.Service
