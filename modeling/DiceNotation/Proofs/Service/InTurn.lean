import DiceNotation.Proofs.Outcomes
import DiceNotation.Proofs.Service.TextRequests

/-!
# One text after the other

A service that is asked for one text at a time has nothing to do in between (`IsIdle`): all that it remembers of earlier
texts is how many blocks of its stream it has handed out. A text that can be read takes one block, whatever becomes of
its roll, and any other takes none (`IsIdle.rollText_snd`). **So each text is answered as by a service that is started
for this text alone** (`IsIdle.rollText_fst`); `results` are those of some texts in turn.
-/

namespace DiceNotation.Service

/-- The result of a text on a service that is started for it, with this block for its generator. -/
def alone (settings : Settings) (clock : Clock) (block : Block) (text : String) : Result :=
  match State.start? settings fun _ => block with
  | some s => (s.rollText text clock).1
  | none => .error .workerGone

/-- Whether the text is rolled at all. -/
def reads (settings : Settings) (text : String) : Bool :=
  (Expr.read settings.limits text).isOk

theorem reads_of_ok {settings : Settings} {text : String} {e : Expr} (h : Expr.read settings.limits text = .ok e) :
    reads settings text = true := by
  rw [reads, h]
  rfl

theorem reads_of_error {settings : Settings} {text : String} {error : ReadError}
    (h : Expr.read settings.limits text = .error error) : reads settings text = false := by
  rw [reads, h]
  rfl

namespace State

variable {settings : Settings} {master : Nat → Block} {s : State} {k : Nat} {e : Expr} {text : String} {clock : Clock}

/-- Nothing is under way, and the next generator is made from block `k`. -/
structure IsIdle (settings : Settings) (master : Nat → Block) (k : Nat) (s : State) : Prop where
  settings_eq : s.settings = settings
  master_eq : s.master = master
  handed_eq : s.handed = k
  queue_eq : s.queue = []
  running : s.provider = .running
  held : s.held = true

/-- A service with a worker starts, and has nothing to do. -/
theorem exists_start (hworkers : settings.workers ≠ 0) (master : Nat → Block) :
    ∃ s, start? settings master = some s ∧ IsIdle settings master 0 s :=
  ⟨_, if_neg hworkers, rfl, rfl, rfl, rfl, rfl, rfl⟩

/-! ## The state behind a text -/

theorem work_eq (s : State) (request : Nat) (clock : Clock) :
    ∃ requests, s.work request clock = { s with requests } := by
  unfold work
  cases hrequest : s.requests[request]? with
  | none => exact ⟨s.requests, rfl⟩
  | some r =>
    obtain ⟨e, progress⟩ := r
    cases progress with
    | leased g => exact ⟨_, attempt_of_transition (.work hrequest)⟩
    | waiting | answered _ | cancelled => exact ⟨s.requests, by simp [attempt, step, hrequest]⟩

namespace IsIdle

theorem takes (h : IsIdle settings master k s) : s.Takes :=
  ⟨h.running, h.held, by simp [h.queue_eq], by simp [h.queue_eq]⟩

theorem drain_eq_self (h : IsIdle settings master k s) : s.drain = s := by
  rw [drain, h.queue_eq]
  rfl

theorem of_requests (h : IsIdle settings master k s) (requests : Array Request) :
    IsIdle settings master k { s with requests } :=
  ⟨h.settings_eq, h.master_eq, h.handed_eq, h.queue_eq, h.running, h.held⟩

theorem enter (h : IsIdle settings master k s) (e : Expr) : IsIdle settings master (k + 1) (s.enter e) :=
  ⟨h.settings_eq, h.master_eq, congrArg (· + 1) h.handed_eq, h.queue_eq, h.running, h.held⟩

theorem rollExpr_snd (h : IsIdle settings master k s) (e : Expr) (clock : Clock) :
    IsIdle settings master (k + 1) (s.rollExpr e clock).2 := by
  obtain ⟨requests, hwork⟩ := work_eq (s.makeRoom.attempt (.submit e)).drain s.requests.size clock
  have hstate : (s.rollExpr e clock).2 = { (s.makeRoom.attempt (.submit e)).drain with requests } := hwork
  rw [hstate, h.takes.drain_submit, h.drain_eq_self]
  exact (h.enter e).of_requests requests

/-- A text that can be read takes a block, and any other leaves no trace. -/
theorem rollText_snd (h : IsIdle settings master k s) (text : String) (clock : Clock) :
    IsIdle settings master (k + if reads settings text then 1 else 0) (s.rollText text clock).2 := by
  cases hread : Expr.read settings.limits text with
  | ok e =>
    rw [reads_of_ok hread, State.rollText_of_ok (by rw [h.settings_eq, hread])]
    exact h.rollExpr_snd e clock
  | error error =>
    rw [reads_of_error hread, State.rollText_of_error (by rw [h.settings_eq, hread])]
    exact h

/-! ## The result of a text -/

theorem rollText_of_error (h : IsIdle settings master k s) {error : ReadError}
    (hread : Expr.read settings.limits text = .error error) :
    s.rollText text clock = (.error (.roll (.read error)), s) :=
  State.rollText_of_error (by rw [h.settings_eq, hread])

theorem rollText_of_ok (h : IsIdle settings master k s) (hread : Expr.read settings.limits text = .ok e) :
    (s.rollText text clock).1 = evaluate e (.ofBytes (master k)) (clock e) := by
  have hgenerator : s.drain.generator = .ofBytes (master k) := by
    rw [h.drain_eq_self, generator, h.master_eq, h.handed_eq]
  rw [← hgenerator]
  exact h.takes.rollText_fst (by rw [h.settings_eq, hread])

end IsIdle

end State

/-! ## Alone -/

variable {settings : Settings} {master : Nat → Block} {clock : Clock} {clocks : Nat → Clock} {block : Block}
  {text : String} {texts : List String}

theorem alone_of_error (hworkers : settings.workers ≠ 0) {error : ReadError}
    (hread : Expr.read settings.limits text = .error error) :
    alone settings clock block text = .error (.roll (.read error)) := by
  obtain ⟨start, hstart, hidle⟩ := State.exists_start hworkers fun _ => block
  rw [alone, hstart]
  exact congrArg Prod.fst (hidle.rollText_of_error hread)

theorem alone_of_ok (hworkers : settings.workers ≠ 0) {e : Expr} (hread : Expr.read settings.limits text = .ok e) :
    alone settings clock block text = State.evaluate e (.ofBytes block) (clock e) := by
  obtain ⟨start, hstart, hidle⟩ := State.exists_start hworkers fun _ => block
  rw [alone, hstart]
  exact hidle.rollText_of_ok hread

theorem State.IsIdle.rollText_fst {k : Nat} {s : State} (h : IsIdle settings master k s)
    (hworkers : settings.workers ≠ 0) (text : String) (clock : Clock) :
    (s.rollText text clock).1 = alone settings clock (master k) text := by
  cases hread : Expr.read settings.limits text with
  | error error => rw [h.rollText_of_error hread, alone_of_error hworkers hread]
  | ok e => rw [h.rollText_of_ok hread, alone_of_ok hworkers hread]

/-- What a text can come to alone: it cannot be read, or its roll fails, or it has an outcome of its expression. -/
theorem alone_cases (hworkers : settings.workers ≠ 0) (text : String) :
    (∃ error, Expr.read settings.limits text = .error error ∧
      alone settings clock block text = .error (.roll (.read error))) ∨
    (∃ error, alone settings clock block text = .error (.roll (.evaluation error))) ∨
    ∃ e faces v, Expr.read settings.limits text = .ok e ∧ Outcome e faces v ∧
      alone settings clock block text = .ok v := by
  cases hread : Expr.read settings.limits text with
  | error error => exact .inl ⟨error, rfl, alone_of_error hworkers hread⟩
  | ok e =>
    rw [alone_of_ok hworkers hread, State.evaluate]
    cases hroll : (e.rollTimed (clock e) (Xoshiro.ofBytes block)).1 with
    | error error => exact .inr (.inl ⟨error, rfl⟩)
    | ok v => exact .inr (.inr ⟨e, _, v, rfl, Expr.rollTimed_outcome hroll, rfl⟩)

/-! ## Results in turn -/

/-- The results of texts in turn: each on its own, under its own clock, with the block that follows those of the texts
before it. -/
def results (settings : Settings) (master : Nat → Block) (clocks : Nat → Clock) (texts : List String) : List Result :=
  texts.mapIdx fun i text => alone settings (clocks i) (master ((texts.take i).countP (reads settings))) text

theorem streamFrom_streamFrom {α : Type} (m n : Nat) (stream : Nat → α) :
    streamFrom n (streamFrom m stream) = streamFrom (m + n) stream :=
  funext fun k => congrArg stream (Nat.add_assoc m n k).symm

theorem streamFrom_zero {α : Type} (stream : Nat → α) : streamFrom 0 stream = stream :=
  funext fun k => congrArg stream (Nat.zero_add k)

theorem results_cons (text : String) (texts : List String) : results settings master clocks (text :: texts) =
    alone settings (clocks 0) (master 0) text ::
      results settings (streamFrom ([text].countP (reads settings)) master) (streamFrom 1 clocks) texts := by
  simp [results, List.mapIdx_cons, List.countP_cons, streamFrom, Nat.add_comm]

theorem results_append (texts texts' : List String) : results settings master clocks (texts ++ texts') =
    results settings master clocks texts ++
      results settings (streamFrom (texts.countP (reads settings)) master) (streamFrom texts.length clocks) texts' := by
  induction texts generalizing master clocks with
  | nil => simp [results, streamFrom_zero]
  | cons text texts ih =>
    rw [List.cons_append, results_cons, ih, streamFrom_streamFrom, streamFrom_streamFrom, ← List.countP_append,
      results_cons, List.length_cons, Nat.add_comm 1]
    rfl

theorem exists_of_mem_results {result : Result} (h : result ∈ results settings master clocks texts) :
    ∃ clock block, ∃ text ∈ texts, result = alone settings clock block text := by
  obtain ⟨i, hi, rfl⟩ := List.mem_mapIdx.1 h
  exact ⟨clocks i, _, texts[i], List.getElem_mem hi, rfl⟩

end DiceNotation.Service
