import DiceNotation.Proofs.Interruption
import DiceNotation.Proofs.Service.Requests

/-!
# Requests do not disturb each other

A history of a service is any order in which its requests come in, its provider takes messages, its workers answer or
break down and its parts are stopped or lost. **After every history, each request is what its own signals make of it,
and its answer comes from its own expression and its own generator** (`requests_isolated`). Its generator is made from a
block that no other request has. So all that another request can change is which block that is.
-/

namespace DiceNotation.Service

open State

variable {settings : Settings} {master : Nat → Block} {start s s' : State} {event : Event} {events : List Event}
  {request : Nat}

/-! ## Signals and events -/

/-- A generator that a request hears of is granted to it. -/
theorem granted_of_signal {g : Xoshiro} (h : .grant g ∈ s.signal request event) : (request, g) ∈ s.granted event := by
  cases event with
  | provide =>
    obtain ⟨p, hp, hg⟩ := List.mem_map.1 h
    obtain ⟨hgranted, hrequest⟩ := List.mem_filter.1 hp
    obtain rfl := Signal.grant.inj hg
    obtain rfl := of_decide_eq_true hrequest
    exact hgranted
  | submit _ | work _ _ | breakDown _ | cancel _ =>
    rw [State.signal] at h
    split at h <;> simp at h
  | _ => simp [State.signal] at h

theorem mem_grants_of_signal {g : Xoshiro} (h : .grant g ∈ signals request s events) :
    (request, g) ∈ grants s events := by
  induction events generalizing s with
  | nil => cases h
  | cons event events ih =>
    rcases List.mem_append.1 h with h | h
    · exact List.mem_append_left _ (granted_of_signal h)
    · exact List.mem_append_right _ (ih h)

/-- The event behind a signal. -/
def Signal.Means (request : Nat) (s : State) (event : Event) : Signal → Prop
  | submit e provided => event = .submit e ∧ provided = decide (s.provider = .running) ∧ s.requests.size = request
  | grant _ => event = .provide
  | work timer => event = .work request timer
  | breakDown => event = .breakDown request
  | cancel => event = .cancel request
  | loss => event = .loseProvider

theorem means_of_signal {signal : Signal} (h : signal ∈ s.signal request event) : signal.Means request s event := by
  cases event with
  | submit e =>
    obtain ⟨hsize, h⟩ := List.mem_ite_nil_right.1 h
    obtain rfl := List.mem_singleton.1 h
    exact ⟨rfl, rfl, hsize⟩
  | provide =>
    obtain ⟨_, _, rfl⟩ := List.mem_map.1 h
    exact rfl
  | loseProvider =>
    obtain rfl := List.mem_singleton.1 h
    exact rfl
  | work r timer | breakDown r | cancel r =>
    obtain ⟨rfl, hsignal⟩ := List.mem_ite_nil_right.1 h
    obtain rfl := List.mem_singleton.1 hsignal
    exact rfl
  | _ => cases h

theorem exists_event_of_signal {signal : Signal} (hrun : s.run events = some s')
    (h : signal ∈ signals request s events) :
    ∃ before event after t, events = before ++ event :: after ∧ s.run before = some t ∧
      signal.Means request t event := by
  obtain ⟨before, event, after, t, hevents, hbefore, h⟩ := exists_of_mem_along hrun h
  exact ⟨before, event, after, t, hevents, hbefore, means_of_signal h⟩

/-! ## The provider -/

/-- As long as requests come in, only a loss takes the provider away. -/
theorem lost_of_provider_ne (hstart : start.provider = .running) (hrun : start.run events = some s)
    (hheld : s.held = true) (hgone : s.provider ≠ .running) : .loseProvider ∈ events := by
  refine run_induction (P := fun events s => s.held = true → s.provider ≠ .running → .loseProvider ∈ events)
    (fun _ hgone => absurd hstart hgone) ?_ hrun hheld hgone
  intro before t t' event _ ih htransition hheld hgone
  cases htransition with
  | lose _ => simp
  | endProvider _ _ hsenders => simp [State.hasSenders, show t.held = true from hheld] at hsenders
  | release _ _ => cases hheld
  | _ => exact List.mem_append_left _ (ih hheld hgone)

/-! ## Expressions -/

def Event.expr? : Event → Option Expr
  | submit e => some e
  | _ => none

theorem map_expr_modify {f : Request → Request} (h : ∀ r, (f r).expr = r.expr) (requests : Array Request) (i : Nat) :
    (requests.modify i f).map Request.expr = requests.map Request.expr := by
  refine Array.ext_getElem? fun j => ?_
  rw [Array.getElem?_map, Array.getElem?_map, Array.getElem?_modify]
  split
  · rw [Option.map_map]
    exact congrArg (Option.map · _) (funext h)
  · rfl

theorem expr_grant (g : Xoshiro) (r : Request) : (grant g r).expr = r.expr := by
  unfold grant
  split <;> rfl

theorem expr_abandon (r : Request) : (abandon r).expr = r.expr := by
  unfold abandon
  split <;> rfl

theorem Transition.map_expr (h : Transition s event s') :
    s'.requests.map Request.expr = s.requests.map Request.expr ++ event.expr?.toArray := by
  cases h with
  | accept _ _ _ | refuse _ _ _ => simp [Event.expr?]
  | lease _ _ => simp [map_expr_modify (expr_grant s.generator), Event.expr?]
  | work _ | breakDown _ | cancel _ _ => simp [setProgress, map_expr_modify, Event.expr?]
  | lose _ => simp [Function.comp_def, expr_abandon, Event.expr?]
  | _ => simp [Event.expr?]

/-- The expressions of the requests are those that came in, in their order. -/
theorem map_expr_requests (hnew : start.requests = #[]) (hrun : start.run events = some s) :
    s.requests.map Request.expr = (events.filterMap Event.expr?).toArray := by
  refine run_induction (P := fun events s => s.requests.map Request.expr = (events.filterMap Event.expr?).toArray)
    (by simp [hnew]) ?_ hrun
  intro before t t' event _ ih htransition
  rw [htransition.map_expr, ih, List.filterMap_append]
  cases hexpr : event.expr? <;> simp [hexpr]

/-! ## Answers -/

theorem evaluate_ne_workerGone (e : Expr) (g : Xoshiro) (timer : Nat → Bool) :
    evaluate e g timer ≠ .error .workerGone := by
  unfold evaluate
  cases (e.rollTimed timer g).1 <;> simp [Except.mapError]

/-- A worker either evaluates as if there were no timer or finds its time up. -/
theorem evaluate_of_timer (e : Expr) (g : Xoshiro) (timer : Nat → Bool) :
    evaluate e g timer = evaluate e g Timer.never ∨
      evaluate e g timer = .error (.roll (.evaluation .timeout)) ∧ ∃ k, timer k = true := by
  unfold evaluate
  rcases e.result_of_timer timer g with hsame | ⟨htimeout, hyes⟩
  · exact .inl (by rw [hsame])
  · exact .inr ⟨by rw [htimeout]; rfl, hyes⟩

/-- The answers that a request of an expression can get in a history. -/
inductive Answers (start : State) (events : List Event) (request : Nat) (e : Expr) : Result → Prop
  /-- The roll of its own expression with its own generator and no timer. -/
  | evaluated {g : Xoshiro} {timer : Nat → Bool} : (request, g) ∈ grants start events → .work request timer ∈ events →
      Answers start events request e (evaluate e g Timer.never)
  /-- Its own timer fires. -/
  | timedOut {g : Xoshiro} {timer : Nat → Bool} {k : Nat} : (request, g) ∈ grants start events →
      .work request timer ∈ events → timer k = true →
      Answers start events request e (.error (.roll (.evaluation .timeout)))
  /-- Its own worker breaks down. -/
  | brokenDown : .breakDown request ∈ events → Answers start events request e (.error .workerGone)
  | lost : .loseProvider ∈ events → Answers start events request e (.error .workerGone)

theorem Answers.of_workerGone {e : Expr} {result : Result} (h : Answers start events request e result)
    (hgone : result = .error .workerGone) : .breakDown request ∈ events ∨ .loseProvider ∈ events := by
  cases h with
  | evaluated _ _ => exact absurd hgone (evaluate_ne_workerGone e _ _)
  | timedOut _ _ _ => cases hgone
  | brokenDown hbroken => exact .inl hbroken
  | lost hlost => exact .inr hlost

theorem answers_of_answered {e : Expr} {result : Result} (hstart : State.start? settings master = some start)
    (hrun : start.run events = some s) (h : s.requests[request]? = some ⟨e, .answered result⟩) :
    Answers start events request e result := by
  obtain ⟨-, rfl⟩ := start?_eq_some_iff.1 hstart
  have hlife : life (signals request { settings, master } events) = some ⟨e, .answered result⟩ := by
    rw [← h, getElem?_requests hrun request]
    rfl
  have hexplains := explains_of_life hlife
  generalize hp : Progress.answered result = p at hexplains
  cases hexplains with
  | waiting | leased _ | cancelled => cases hp
  | @evaluated g timer hgrant hwork =>
    obtain rfl := Progress.answered.inj hp
    have hg := mem_grants_of_signal hgrant
    obtain ⟨before, _, after, t, rfl, -, rfl⟩ := exists_event_of_signal hrun hwork
    have hwork : Event.work request timer ∈ before ++ .work request timer :: after := by simp
    rcases evaluate_of_timer e g timer with hsame | ⟨htimeout, k, hyes⟩
    · rw [hsame]
      exact .evaluated hg hwork
    · rw [htimeout]
      exact .timedOut hg hwork hyes
  | brokenDown hbroken =>
    obtain rfl := Progress.answered.inj hp
    obtain ⟨before, _, after, t, rfl, -, rfl⟩ := exists_event_of_signal hrun hbroken
    exact .brokenDown (by simp)
  | lost hlost =>
    obtain rfl := Progress.answered.inj hp
    obtain ⟨before, _, after, t, rfl, -, rfl⟩ := exists_event_of_signal hrun hlost
    exact .lost (by simp)
  | unprovided hsubmit =>
    -- It came in after the provider was gone, so the loss is earlier in the history.
    obtain rfl := Progress.answered.inj hp
    obtain ⟨before, _, after, t, rfl, hbefore, rfl, hprovider, -⟩ := exists_event_of_signal hrun hsubmit
    obtain ⟨t', hbefore', hrest⟩ := run_append.1 hrun
    obtain rfl := Option.some.inj (hbefore.symm.trans hbefore')
    obtain ⟨u, htransition, -⟩ := run_cons.1 hrest
    have hheld : t.held = true := by cases htransition <;> assumption
    have hlost := lost_of_provider_ne rfl hbefore hheld (of_decide_eq_false hprovider.symm)
    exact .lost (List.mem_append_left _ hlost)

/-! ## Isolation -/

/-- **Requests do not disturb each other.** In every history, a request is granted at most one generator, and it is made
from block `used before` of the stream that is in force after the messages `before` it; no block is used twice. At the
end, each request is what its own signals make of it. If it is answered, then with its own expression and generator or
because its worker or the provider is gone. -/
theorem requests_isolated (hstart : State.start? settings master = some start) (hrun : start.run events = some s) :
    (grants start events).Pairwise (fun a b => a.1 < b.1) ∧
      (∀ request g, (request, g) ∈ grants start events ↔
        ∃ before after, handled start events = before ++ .lease request :: after ∧
          g = .ofBytes (stream master before (used before))) ∧
      (∀ before request after before' request' after', handled start events = before ++ .lease request :: after →
        handled start events = before' ++ .lease request' :: after' → nextBlock before = nextBlock before' →
          before = before' ∧ request = request') ∧
      ∀ request, s.requests[request]? = life (signals request start events) ∧
        ∀ e result, s.requests[request]? = some ⟨e, .answered result⟩ →
          (events.filterMap Event.expr?)[request]? = some e ∧ Answers start events request e result ∧
            (result = .error .workerGone → .breakDown request ∈ events ∨ .loseProvider ∈ events) := by
  obtain ⟨-, hinit⟩ := start?_eq_some_iff.1 hstart
  refine ⟨grants_ordered hrun (by rw [hinit]), fun request g => ?_, ?_, fun request => ⟨?_, fun e result h => ?_⟩⟩
  · rw [mem_grants_iff hrun (by rw [hinit]), hinit]
  · intro before request after before' request' after' h h' hblock
    obtain rfl := eq_of_nextBlock_eq h h' hblock
    have hsame := List.append_cancel_left (h.symm.trans h')
    exact ⟨rfl, Message.lease.inj (List.cons.inj hsame).1⟩
  · rw [getElem?_requests hrun, hinit]
    rfl
  · have hanswers := answers_of_answered hstart hrun h
    refine ⟨?_, hanswers, hanswers.of_workerGone⟩
    have hexprs := congrArg (·[request]?) (map_expr_requests (by rw [hinit]) hrun)
    simpa [h] using hexprs.symm

/-- Three requests with a new stream between them: one is cancelled, one rolls and the worker of one breaks down. -/
def brokenNeighbour : List Event :=
  [.submit (.dice 2 6), .submit (.dice 1 20), .wake, .provide, .tick, .reseed (masterOfSeed 2), .cancel 1, .provide,
    .provide, .submit (.const 3), .provide, .breakDown 0, .work 2 Timer.never]

theorem brokenNeighbour_isolated : ∃ start s, State.start? {} (masterOfSeed 1) = some start ∧
    start.run brokenNeighbour = some s ∧ (2, .ofBytes (masterOfSeed 2 0)) ∈ grants start brokenNeighbour ∧
    s.requests[2]? = life (signals 2 start brokenNeighbour) ∧
    Answers start brokenNeighbour 0 (.dice 2 6) (.error .workerGone) := by
  have hstart : State.start? {} (masterOfSeed 1) = some { settings := {}, master := masterOfSeed 1 } := rfl
  obtain ⟨s, hrun, hanswer⟩ : ∃ s, State.run { settings := {}, master := masterOfSeed 1 } brokenNeighbour = some s ∧
      s.requests[0]? = some ⟨.dice 2 6, .answered (.error .workerGone)⟩ := ⟨_, rfl, rfl⟩
  obtain ⟨-, hgrants, -, hrequests⟩ := requests_isolated hstart hrun
  exact ⟨_, s, hstart, hrun,
    (hgrants 2 _).2 ⟨[.lease 0, .lease 1, .reseed (masterOfSeed 2)], [], rfl, rfl⟩,
    (hrequests 2).1, ((hrequests 0).2 _ _ hanswer).2.1⟩

end DiceNotation.Service
