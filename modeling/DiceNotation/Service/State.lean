import DiceNotation.Config.Settings
import DiceNotation.Random.Xoshiro
import DiceNotation.Roll.Text

/-!
# The roll service

A service answers many requests at a time. Its parts run side by side and only exchange messages:

- a *provider* owns the master generator, takes messages from a queue in order and leases every request a generator of
  its own, made from the next block of the master's stream;
- *workers* evaluate requests that have a generator;
- a *reseeder* sends the provider a new master stream from time to time, until it is told to stop.

`State` is what all parts are in at one moment. `Service.Event` says how it changes.
-/

namespace DiceNotation

inductive RollFailure where
  | roll (error : RollError)
  | workerGone
  deriving DecidableEq

def RollFailure.message : RollFailure → String
  | roll error => error.message
  | workerGone => "roll worker stopped before returning a result"

namespace Service

/-- The 32 bytes that one generator starts from. -/
abbrev Block := List UInt8

/-- A master stream with one seed per block, counted up from `seed`. -/
def masterOfSeed (seed : UInt64) : Nat → Block :=
  fun k => (Xoshiro.ofSeed (seed + k.toUInt64)).toBytes

abbrev Result := Except RollFailure Evaluation

inductive Progress where
  | waiting
  | leased (generator : Xoshiro)
  | answered (result : Result)
  | cancelled

def Progress.isOver : Progress → Bool
  | answered _ | cancelled => true
  | waiting | leased _ => false

structure Request where
  expr : Expr
  progress : Progress

inductive Message where
  | lease (request : Nat)
  | reseed (master : Nat → Block)

inductive Provider where
  | running
  | ended
  | lost
  deriving DecidableEq

/-- The value that was sent last, with the number of values sent so far: a listener compares it with the number of those
it has heard. -/
structure StopSignal where
  value : Bool := false
  version : Nat := 0
  /-- Whether more values can be sent. -/
  isOpen : Bool := true

/-- Waiting for the stop signal goes back and forth between looking at its value and listening for the next one. -/
inductive Wait where
  | looking
  | listening
  deriving DecidableEq

/-- The clock that runs while the reseeder waits. -/
inductive Phase where
  | sleeping
  | ticking
  deriving DecidableEq

/-- The reseeder sleeps once, then sends at every tick. Stopped, it waits for the provider to end. A clock that would
tick all the time breaks it. -/
inductive Reseeder where
  | waiting (phase : Phase) (wait : Wait)
  | sending
  | stopped
  | finished
  | broken
  deriving DecidableEq

structure State where
  settings : Settings
  /-- Block `k` of the stream is the `k`-th one leased since the last new stream. -/
  master : Nat → Block
  handed : Nat := 0
  queue : List Message := []
  provider : Provider := .running
  /-- A request is named by its place. -/
  requests : Array Request := #[]
  /-- Whether somebody can still submit requests. -/
  held : Bool := true
  stop : StopSignal := {}
  /-- How many values of the stop signal the reseeder has heard. -/
  heard : Nat := 0
  reseeder : Reseeder := .waiting .sleeping .looking

/-- How many messages the queue can hold. -/
def capacity : Nat := 32

/-- A service needs a worker. -/
def State.start? (settings : Settings) (master : Nat → Block) : Option State :=
  if settings.workers = 0 then none else some { settings, master }

def State.stopOpen (s : State) : Bool :=
  s.stop.isOpen

/-- Whether waiting for the stop signal is over: `true` was sent last, or nothing can be sent any more. -/
def State.stopSeen (s : State) : Bool :=
  s.stop.value || !s.stop.isOpen

/-- Whoever has a message for a full queue waits. -/
def State.isFull (s : State) : Bool :=
  capacity ≤ s.queue.length

def Reseeder.isSender : Reseeder → Bool
  | waiting _ _ | sending => true
  | stopped | finished | broken => false

/-- Whether a message can still come in. -/
def State.hasSenders (s : State) : Bool :=
  s.held || s.reseeder.isSender

end Service

end DiceNotation
