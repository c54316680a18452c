import DiceNotation.Proofs.Service.Leases

/-!
# The life of one request

Of all that happens in a service, a request is touched by little: that it comes in, its generator, its own worker, its
own cancellation and the loss of the provider. These are its `signals`, and **they alone make it what it is**
(`getElem?_requests`): `Signal.act` says how, with no other request in sight.

So an answer is explained by signals (`explains_of_life`): it is the evaluation of the request's own expression with its
own generator, or it says that its worker broke down or that the provider was gone.
-/

namespace DiceNotation.Service

open State

variable {s s' : State} {event : Event} {events : List Event} {request : Nat}

/-! ## Signals -/

/-- What happens to one request. -/
inductive Signal where
  /-- It comes in, and there is a provider or not. -/
  | submit (e : Expr) (provided : Bool)
  | grant (generator : Xoshiro)
  | work (timer : Nat → Bool)
  | breakDown
  | cancel
  /-- The provider is lost. -/
  | loss

/-- What a signal makes of a request, which is none before it comes in. -/
def Signal.act : Signal → Option Request → Option Request
  | submit e provided, none => some ⟨e, if provided then .waiting else .answered (.error .workerGone)⟩
  | grant g, some ⟨e, .waiting⟩ => some ⟨e, .leased g⟩
  | work timer, some ⟨e, .leased g⟩ => some ⟨e, .answered (evaluate e g timer)⟩
  | breakDown, some ⟨e, .leased _⟩ => some ⟨e, .answered (.error .workerGone)⟩
  | cancel, some ⟨e, .waiting⟩ => some ⟨e, .cancelled⟩
  | cancel, some ⟨e, .leased _⟩ => some ⟨e, .cancelled⟩
  | loss, some ⟨e, .waiting⟩ => some ⟨e, .answered (.error .workerGone)⟩
  | _, r => r

/-- What an event means for a request. -/
def State.signal (request : Nat) (s : State) : Event → List Signal
  | .submit e => if s.requests.size = request then [.submit e (s.provider = .running)] else []
  | .provide => ((s.granted .provide).filter fun p => p.1 = request).map fun p => .grant p.2
  | .work r timer => if r = request then [.work timer] else []
  | .breakDown r => if r = request then [.breakDown] else []
  | .cancel r => if r = request then [.cancel] else []
  | .loseProvider => [.loss]
  | _ => []

def signals (request : Nat) (s : State) (events : List Event) : List Signal :=
  along (State.signal request) s events

/-- What signals make of a request one after the other. -/
def actAll (signals : List Signal) (r : Option Request) : Option Request :=
  signals.foldl (fun r signal => signal.act r) r

/-- The request that these signals make. -/
def life (signals : List Signal) : Option Request :=
  actAll signals none

theorem actAll_append (before after : List Signal) (r : Option Request) :
    actAll (before ++ after) r = actAll after (actAll before r) :=
  List.foldl_append

/-! ## A request and its signals -/

theorem getElem?_setProgress (progress : Progress) :
    (s.setProgress request progress).requests[request]? =
      (s.requests[request]?).map fun r => { r with progress } := by
  rw [setProgress, Array.getElem?_modify, if_pos rfl]

theorem getElem?_setProgress_of_ne {other : Nat} (h : other ≠ request) (progress : Progress) :
    (s.setProgress other progress).requests[request]? = s.requests[request]? := by
  rw [setProgress, Array.getElem?_modify, if_neg h]

theorem progress?_eq_some_iff {p : Progress} :
    s.progress? request = some p ↔ ∃ e, s.requests[request]? = some ⟨e, p⟩ := by
  rw [progress?, Option.map_eq_some_iff]
  constructor
  · rintro ⟨⟨e, _⟩, hr, rfl⟩
    exact ⟨e, hr⟩
  · rintro ⟨e, hr⟩
    exact ⟨_, hr, rfl⟩

theorem act_grant (g : Xoshiro) (r : Request) : (Signal.grant g).act (some r) = some (grant g r) := by
  rcases r with ⟨e, _ | _ | _ | _⟩ <;> rfl

theorem act_loss (r : Request) : Signal.loss.act (some r) = some (abandon r) := by
  rcases r with ⟨e, _ | _ | _ | _⟩ <;> rfl

/-- An event changes a request as the signals say that it has for it. -/
theorem Transition.getElem?_requests (h : Transition s event s') (request : Nat) :
    s'.requests[request]? = actAll (s.signal request event) s.requests[request]? := by
  cases h with
  | accept _ _ hprovider | refuse _ _ hprovider =>
    rw [Array.getElem?_push, State.signal]
    by_cases hnew : s.requests.size = request
    · subst hnew
      simp [hprovider, actAll, Signal.act]
    · rw [if_neg (Ne.symm hnew), if_neg hnew]
      rfl
  | @lease r queue _ hqueue =>
    simp only [State.signal, granted, taken, hqueue, List.take_succ_cons, List.take_zero]
    rw [Array.getElem?_modify]
    by_cases hr : r = request
    · subst hr
      cases hrequest : s.requests[r]? with
      | none => simp [Message.request?, actAll, Signal.act]
      | some x => simp [Message.request?, actAll, act_grant]
    · simp [Message.request?, hr, actAll]
  | newMaster _ hqueue =>
    simp only [State.signal, granted, taken, hqueue, List.take_succ_cons, List.take_zero]
    rfl
  | @work r timer e g hr =>
    rw [State.signal]
    by_cases hsame : r = request
    · subst hsame
      rw [getElem?_setProgress, hr, if_pos rfl]
      rfl
    · rw [getElem?_setProgress_of_ne hsame, if_neg hsame]
      rfl
  | @breakDown r g hr =>
    rw [State.signal]
    by_cases hsame : r = request
    · subst hsame
      obtain ⟨e, hr⟩ := progress?_eq_some_iff.1 hr
      rw [getElem?_setProgress, hr, if_pos rfl]
      rfl
    · rw [getElem?_setProgress_of_ne hsame, if_neg hsame]
      rfl
  | @cancel r p hr hover =>
    rw [State.signal]
    by_cases hsame : r = request
    · subst hsame
      obtain ⟨e, hr⟩ := progress?_eq_some_iff.1 hr
      rw [getElem?_setProgress, hr, if_pos rfl]
      cases p with
      | waiting | leased _ => rfl
      | answered _ | cancelled => cases hover
    · rw [getElem?_setProgress_of_ne hsame, if_neg hsame]
      rfl
  | lose _ =>
    rw [Array.getElem?_map]
    cases hrequest : s.requests[request]? with
    | none => rfl
    | some x => simp [State.signal, actAll, act_loss]
  | _ => rfl

/-- **A request is what its signals make of it.** -/
theorem getElem?_requests (hrun : s.run events = some s') (request : Nat) :
    s'.requests[request]? = actAll (signals request s events) s.requests[request]? := by
  induction events generalizing s with
  | nil =>
    obtain rfl := run_nil.1 hrun
    rfl
  | cons event events ih =>
    obtain ⟨t, htransition, hrun⟩ := run_cons.1 hrun
    rw [signals, along_cons htransition, actAll_append, ← htransition.getElem?_requests, ih hrun]
    rfl

/-! ## Answers -/

/-- How a request of an expression gets to where it is. -/
inductive Explains (signals : List Signal) (e : Expr) : Progress → Prop
  | waiting : Explains signals e .waiting
  | leased {g : Xoshiro} : .grant g ∈ signals → Explains signals e (.leased g)
  | evaluated {g : Xoshiro} {timer : Nat → Bool} : .grant g ∈ signals → .work timer ∈ signals →
      Explains signals e (.answered (evaluate e g timer))
  | brokenDown : .breakDown ∈ signals → Explains signals e (.answered (.error .workerGone))
  | lost : .loss ∈ signals → Explains signals e (.answered (.error .workerGone))
  | unprovided : .submit e false ∈ signals → Explains signals e (.answered (.error .workerGone))
  | cancelled : Explains signals e .cancelled

variable {before after : List Signal} {signal : Signal} {e : Expr} {p : Progress}

theorem Explains.append (h : Explains before e p) (after : List Signal) : Explains (before ++ after) e p := by
  cases h with
  | waiting => exact .waiting
  | leased hg => exact .leased (List.mem_append_left _ hg)
  | evaluated hg hwork => exact .evaluated (List.mem_append_left _ hg) (List.mem_append_left _ hwork)
  | brokenDown hbroken => exact .brokenDown (List.mem_append_left _ hbroken)
  | lost hlost => exact .lost (List.mem_append_left _ hlost)
  | unprovided hsubmit => exact .unprovided (List.mem_append_left _ hsubmit)
  | cancelled => exact .cancelled

theorem Explains.act (h : Explains before e p) (signal : Signal) :
    ∃ p', signal.act (some ⟨e, p⟩) = some ⟨e, p'⟩ ∧ Explains (before ++ [signal]) e p' := by
  have hlast : signal ∈ before ++ [signal] := by simp
  cases h with
  | waiting =>
    cases signal with
    | grant g => exact ⟨_, rfl, .leased hlast⟩
    | loss => exact ⟨_, rfl, .lost hlast⟩
    | cancel => exact ⟨_, rfl, .cancelled⟩
    | submit _ _ | work _ | breakDown => exact ⟨_, rfl, .waiting⟩
  | leased hg =>
    have hg := List.mem_append_left [signal] hg
    cases signal with
    | work timer => exact ⟨_, rfl, .evaluated hg hlast⟩
    | breakDown => exact ⟨_, rfl, .brokenDown hlast⟩
    | cancel => exact ⟨_, rfl, .cancelled⟩
    | submit _ _ | grant _ | loss => exact ⟨_, rfl, .leased hg⟩
  | evaluated hg hwork =>
    have h := (Explains.evaluated hg hwork (e := e)).append [signal]
    cases signal <;> exact ⟨_, rfl, h⟩
  | brokenDown hbroken =>
    have h := (Explains.brokenDown hbroken (e := e)).append [signal]
    cases signal <;> exact ⟨_, rfl, h⟩
  | lost hlost =>
    have h := (Explains.lost hlost (e := e)).append [signal]
    cases signal <;> exact ⟨_, rfl, h⟩
  | unprovided hsubmit =>
    have h := (Explains.unprovided hsubmit).append [signal]
    cases signal <;> exact ⟨_, rfl, h⟩
  | cancelled => cases signal <;> exact ⟨_, rfl, .cancelled⟩

theorem Explains.actAll (h : Explains before e p) (after : List Signal) :
    ∃ p', Service.actAll after (some ⟨e, p⟩) = some ⟨e, p'⟩ ∧ Explains (before ++ after) e p' := by
  induction after generalizing before p with
  | nil => exact ⟨p, rfl, by rwa [List.append_nil]⟩
  | cons signal after ih =>
    obtain ⟨p₁, hact, h⟩ := h.act signal
    obtain ⟨p₂, hall, h⟩ := ih h
    refine ⟨p₂, ?_, by rwa [List.append_cons]⟩
    rw [← hall, ← hact]
    rfl

theorem explains_of_life (h : life after = some ⟨e, p⟩) : Explains after e p := by
  have hall : ∀ before : List Signal, Service.actAll after none = some ⟨e, p⟩ → Explains (before ++ after) e p := by
    intro before
    clear h
    induction after generalizing before with
    | nil => intro h; cases h
    | cons signal after ih =>
      intro h
      rw [List.append_cons]
      cases signal with
      | submit e' provided =>
        have hfirst : Explains (before ++ [.submit e' provided]) e'
            (if provided then .waiting else .answered (.error .workerGone)) := by
          cases provided with
          | true => exact .waiting
          | false => exact .unprovided (by simp)
        obtain ⟨p', hall, hexplains⟩ := hfirst.actAll after
        change Service.actAll after (some ⟨e', if provided then .waiting else .answered (.error .workerGone)⟩) = _ at h
        rw [hall] at h
        cases h
        exact hexplains
      | _ => exact ih _ h
  exact hall [] h

end DiceNotation.Service
