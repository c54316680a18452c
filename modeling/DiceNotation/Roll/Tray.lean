import DiceNotation.Random.Die

/-!
# What a roll asks of its surroundings

An evaluation does two things besides computing: it asks whether its time is up, and it throws a die. `Tray` is this
interface. The tray of a real roll is `TimedSource`: a source of random words and the answers of a timer.

`Rolling` is the type of a computation over a tray. It hands the tray on also when it fails.
-/

namespace DiceNotation

inductive EvalError where
  | overflow
  | timeout
  | noSides
  deriving DecidableEq

def EvalError.message : EvalError → String
  | overflow => "Overflow detected"
  | timeout => "Timeout"
  | noSides => "Dice without sides can not be rolled"

class Tray (σ : Type) where
  timeUp : σ → Bool × σ
  throwDie : (sides : UInt32) → σ → Nat × σ

abbrev Rolling (σ α : Type) := ExceptT EvalError (StateM σ) α

namespace Rolling

variable {σ : Type} [Tray σ]

/-- Asks once whether the time is up, and fails if it is. -/
def checkTime : Rolling σ Unit := do
  if ← modifyGet Tray.timeUp then throw .timeout

def throwDie (sides : UInt32) : Rolling σ Nat :=
  modifyGet (Tray.throwDie sides)

theorem run_checkTime (t : σ) :
    (checkTime : Rolling σ Unit) t =
      (if (Tray.timeUp t).1 then .error .timeout else .ok (), (Tray.timeUp t).2) := by
  simp only [checkTime, bind, ExceptT.bind, ExceptT.mk, StateT.bind, modifyGet, MonadStateOf.modifyGet,
    StateT.modifyGet, monadLift, MonadLift.monadLift, ExceptT.lift, ExceptT.bindCont, Functor.map, StateT.map, pure,
    throw, throwThe, MonadExceptOf.throw]
  split <;> rfl

theorem run_throwDie (sides : UInt32) (t : σ) :
    (throwDie sides : Rolling σ Nat) t = (.ok (Tray.throwDie sides t).1, (Tray.throwDie sides t).2) :=
  rfl

omit [Tray σ] in
theorem run_bind {α β : Type} (x : Rolling σ α) (f : α → Rolling σ β) (t : σ) :
    (x >>= f) t =
      match x t with
      | (.ok a, t) => f a t
      | (.error e, t) => (.error e, t) := by
  simp only [bind, ExceptT.bind, ExceptT.mk, StateT.bind, ExceptT.bindCont]
  rcases x t with ⟨_ | _, _⟩ <;> rfl

end Rolling

/-- The `polls`-th question is answered by `timer polls`, counted from 0. -/
structure TimedSource (γ : Type) where
  source : γ
  timer : Nat → Bool
  polls : Nat := 0

instance {γ : Type} [WordSource γ] : Tray (TimedSource γ) where
  timeUp t := (t.timer t.polls, { t with polls := t.polls + 1 })
  throwDie sides t :=
    let (n, source) := Die.roll sides t.source
    (n, { t with source })

/-- A timer that never fires. -/
def Timer.never : Nat → Bool :=
  fun _ => false

/-- A timer that answers `n` questions before it fires. -/
def Timer.after (n : Nat) : Nat → Bool :=
  fun k => n ≤ k

end DiceNotation
