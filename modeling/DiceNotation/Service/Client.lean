import DiceNotation.Roll.Pace
import DiceNotation.Service.Step

/-!
# Using the roll service

Each function here is a particular history of the service: `rollTexts` submits the texts that can be read, lets the
provider empty its queue and the workers answer. Texts that cannot be read never enter the service. `shutDown` stops the
service in order.

How long a roll takes is nothing that a service knows: every function that rolls is given a `Clock`. Without one it
takes that of a machine with a steady pace.
-/

namespace DiceNotation.Service

/-! ## Time -/

/-- The answers of a timer, whatever expression is rolled under it. -/
abbrev Clock :=
  Expr → Nat → Bool

/-- How many dice are thrown in a millisecond at a steady pace. -/
def dicePerMs : Nat := 20000

/-- At a steady pace, the timer of a roll fires when its dice cannot be thrown in time. Milliseconds are rounded up. -/
def Clock.steady (settings : Settings) : Clock := fun e =>
  match e.deadline? (dicePerMs * (settings.timeoutMs + 1)) with
  | some question => Timer.after question
  | none => Timer.never

/-- A stream of blocks or clocks from place `n` on. -/
def streamFrom {α : Type} (n : Nat) (stream : Nat → α) : Nat → α :=
  fun k => stream (n + k)

namespace State

/-! ## Rolling -/

/-- The provider handles up to `n` messages. -/
def provideWithin : Nat → State → State
  | 0, s => s
  | n + 1, s => provideWithin n (s.attempt .provide)

/-- The provider empties its queue. -/
def drain (s : State) : State :=
  provideWithin s.queue.length s

/-- Room for one more message: the provider handles one if the queue is full. -/
def makeRoom (s : State) : State :=
  if s.isFull then s.attempt .provide else s

/-- A worker answers a request, if it has a generator. -/
def work (s : State) (request : Nat) (clock : Clock := Clock.steady s.settings) : State :=
  match s.requests[request]? with
  | some r => s.attempt (.work request (clock r.expr))
  | none => s

def result (s : State) (request : Nat) : Result :=
  match s.progress? request with
  | some (.answered result) => result
  | _ => .error .workerGone

def rollExpr (s : State) (e : Expr) (clock : Clock := Clock.steady s.settings) : Result × State :=
  let request := s.requests.size
  let s := ((s.makeRoom.attempt (.submit e)).drain).work request clock
  (s.result request, s)

/-- Rolls an expression on a worker that breaks down. -/
def rollBroken (s : State) (e : Expr) : Result × State :=
  let request := s.requests.size
  let s := ((s.makeRoom.attempt (.submit e)).drain).attempt (.breakDown request)
  (s.result request, s)

/-- The request of a text, or why it cannot be read. -/
def submitText (s : State) (text : String) : Except ReadError Nat × State :=
  match Expr.read s.settings.limits text with
  | .ok e => (.ok s.requests.size, s.makeRoom.attempt (.submit e))
  | .error e => (.error e, s)

def submitTexts (s : State) : List String → List (Except ReadError Nat) × State
  | [] => ([], s)
  | text :: texts =>
    let (ticket, s) := s.submitText text
    let (tickets, s) := s.submitTexts texts
    (ticket :: tickets, s)

def workTickets (s : State) (clocks : Nat → Clock) : List (Except ReadError Nat) → State
  | [] => s
  | .ok request :: tickets => (s.work request (clocks 0)).workTickets (streamFrom 1 clocks) tickets
  | .error _ :: tickets => s.workTickets (streamFrom 1 clocks) tickets

def ticketResult (s : State) : Except ReadError Nat → Result
  | .ok request => s.result request
  | .error e => .error (.roll (.read e))

/-- Rolls texts at the same time, each under its own clock; the results are in the order of the texts. -/
def rollTexts (s : State) (texts : List String) (clocks : Nat → Clock := fun _ => Clock.steady s.settings) :
    List Result × State :=
  let (tickets, s) := s.submitTexts texts
  let s := s.drain.workTickets clocks tickets
  (tickets.map s.ticketResult, s)

/-- A text that cannot be read asks for nothing. -/
def rollText (s : State) (text : String) (clock : Clock := Clock.steady s.settings) : Result × State :=
  match Expr.read s.settings.limits text with
  | .ok e => s.rollExpr e clock
  | .error e => (.error (.roll (.read e)), s)

/-! ## Stopping -/

/-- The reseeder comes to the end of its waiting once nothing can be sent any more. -/
def endWait (s : State) : State :=
  ([.look, .hear, .look, .hear] : List Event).foldl attempt s

/-- Tells the service to stop, gives it up and lets it come to its end. -/
def shutDown (s : State) : State :=
  ([.send true, .closeStop, .release] : List Event).foldl attempt s
    |>.endWait |>.drain |>.attempt .endProvider |>.attempt .join

end State

end DiceNotation.Service
