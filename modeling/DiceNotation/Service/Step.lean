import DiceNotation.Service.State

/-!
# Steps of the roll service

`State.step` performs one event, or gives nothing where the event cannot happen. A history of the service is a list of
events, and any order of events that can happen is a possible history.
-/

namespace DiceNotation.Service

inductive Event where
  /-- A request comes in and its message goes to the queue; until there is room for it, it has not come in. -/
  | submit (e : Expr)
  /-- The provider handles the first message of its queue. -/
  | provide
  /-- A worker evaluates a request, with these answers of its timer. -/
  | work (request : Nat) (timer : Nat → Bool)
  /-- The worker of a request breaks down. -/
  | breakDown (request : Nat)
  | cancel (request : Nat)
  /-- The provider disappears with its queue. -/
  | loseProvider
  | send (stop : Bool)
  | closeStop
  /-- The reseeder looks at the value of the stop signal. -/
  | look
  /-- The reseeder hears of a value that it has not heard of, or that none will come. -/
  | hear
  /-- The reseeder's first sleep is over. -/
  | wake
  | tick
  /-- The reseeder's message goes to the queue, or the reseeder sees that nobody takes it. -/
  | reseed (master : Nat → Block)
  /-- Nobody can submit requests any more. -/
  | release
  | endProvider
  /-- The reseeder sees the provider gone and finishes. -/
  | join

namespace State

def setProgress (s : State) (request : Nat) (progress : Progress) : State :=
  { s with requests := s.requests.modify request fun r => { r with progress } }

def progress? (s : State) (request : Nat) : Option Progress :=
  (s.requests[request]?).map Request.progress

def submit (s : State) (e : Expr) : State :=
  if s.provider = .running then
    { s with queue := s.queue ++ [.lease s.requests.size], requests := s.requests.push ⟨e, .waiting⟩ }
  else { s with requests := s.requests.push ⟨e, .answered (.error .workerGone)⟩ }

/-- Only a request that still waits for a generator takes it. -/
def grant (generator : Xoshiro) (r : Request) : Request :=
  match r.progress with
  | .waiting => { r with progress := .leased generator }
  | _ => r

/-- The generator made from the next block. -/
def generator (s : State) : Xoshiro :=
  .ofBytes (s.master s.handed)

/-- Leases the next block. It is used up even if the request does not want it any more. -/
def lease (s : State) (request : Nat) : State :=
  { s with handed := s.handed + 1, requests := s.requests.modify request (grant s.generator) }

def handle (s : State) : Message → State
  | .lease request => s.lease request
  | .reseed master => { s with master, handed := 0 }

def evaluate (e : Expr) (generator : Xoshiro) (timer : Nat → Bool) : Result :=
  (e.rollTimed timer generator).1.mapError fun error => .roll (.evaluation error)

/-- A request that still waits for its generator when the provider is lost gets none. -/
def abandon (r : Request) : Request :=
  match r.progress with
  | .waiting => { r with progress := .answered (.error .workerGone) }
  | _ => r

/-- A look at the stop signal ends the waiting if its value is `true`. -/
def look (s : State) : Option State :=
  match s.reseeder with
  | .waiting phase .looking =>
    some { s with reseeder := if s.stop.value then .stopped else .waiting phase .listening }
  | _ => none

/-- A value not heard of is looked at, whatever it is. The waiting ends when none is left and none can come. -/
def hear (s : State) : Option State :=
  match s.reseeder with
  | .waiting phase .listening =>
    if s.heard ≠ s.stop.version then some { s with heard := s.stop.version, reseeder := .waiting phase .looking }
    else if s.stop.isOpen then none
    else some { s with reseeder := .stopped }
  | _ => none

/-- The end of the first sleep starts the clock. -/
def wake (s : State) : Option State :=
  match s.reseeder with
  | .waiting .sleeping _ =>
    some { s with reseeder := if s.settings.reseedMs = 0 then .broken else .waiting .ticking .looking }
  | _ => none

def tick (s : State) : Option State :=
  match s.reseeder with
  | .waiting .ticking _ => some { s with reseeder := .sending }
  | _ => none

def reseed (s : State) (master : Nat → Block) : Option State :=
  if s.reseeder = .sending then
    if s.provider = .running then
      if s.isFull then none
      else some { s with queue := s.queue ++ [.reseed master], reseeder := .waiting .ticking .looking }
    else some { s with reseeder := .stopped }
  else none

def step (s : State) : Event → Option State
  | .submit e => if s.held && !s.isFull then some (s.submit e) else none
  | .provide =>
    match s.provider, s.queue with
    | .running, m :: queue => some ({ s with queue }.handle m)
    | _, _ => none
  | .work request timer =>
    match s.requests[request]? with
    | some ⟨e, .leased generator⟩ => some (s.setProgress request (.answered (evaluate e generator timer)))
    | _ => none
  | .breakDown request =>
    match s.progress? request with
    | some (.leased _) => some (s.setProgress request (.answered (.error .workerGone)))
    | _ => none
  | .cancel request =>
    match s.progress? request with
    | some p => if p.isOver then none else some (s.setProgress request .cancelled)
    | none => none
  | .loseProvider =>
    if s.provider = .running then some { s with provider := .lost, queue := [], requests := s.requests.map abandon }
    else none
  | .send value =>
    if s.stop.isOpen then some { s with stop := { s.stop with value, version := s.stop.version + 1 } } else none
  | .closeStop => if s.stop.isOpen then some { s with stop := { s.stop with isOpen := false } } else none
  | .look => s.look
  | .hear => s.hear
  | .wake => s.wake
  | .tick => s.tick
  | .reseed master => s.reseed master
  | .release => if s.held ∧ s.requests.all (·.progress.isOver) then some { s with held := false } else none
  | .endProvider =>
    if s.provider = .running ∧ s.queue.isEmpty ∧ !s.hasSenders then some { s with provider := .ended } else none
  | .join =>
    if s.reseeder = .stopped ∧ s.provider ≠ .running then some { s with reseeder := .finished } else none

/-- Performs events in order; nothing if one of them cannot happen. -/
def run (s : State) (events : List Event) : Option State :=
  events.foldlM step s

/-- Performs an event if it can happen. -/
def attempt (s : State) (event : Event) : State :=
  (s.step event).getD s

end State

end DiceNotation.Service
