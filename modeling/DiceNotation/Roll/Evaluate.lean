import DiceNotation.Expr.Basic
import DiceNotation.Roll.Tray

/-!
# Rolling an expression

`Expr.eval` evaluates from the leaves up and from left to right. It asks for the time before each node and, inside a
dice term, before every 256th die. All arithmetic is exact and then has to fit a value; a division by zero gives 0.

The trace shows the faces of every dice term in the order they were thrown. A division by zero hides the traces of its
operands behind `divisionByZero`.
-/

namespace DiceNotation

structure Evaluation where
  value : Value
  trace : String
  deriving DecidableEq

namespace Evaluation

/-- The trace of a division by zero. -/
def divisionByZero : String :=
  "ERROR: DIVIDE BY ZERO"

def ofConst (value : Value) : Evaluation :=
  ⟨value, toString value.toInt⟩

/-- The faces of one dice term as they are shown. -/
def bracketed (faces : List Nat) : String :=
  "[" ++ ", ".intercalate (faces.map toString) ++ "]"

/-- The sum of the faces. -/
def total (faces : List Nat) : Nat :=
  faces.foldr (· + ·) 0

@[simp] theorem total_nil : total [] = 0 := rfl

@[simp] theorem total_cons (n : Nat) (ns : List Nat) : total (n :: ns) = n + total ns := rfl

def ofFaces (faces : List Nat) : Except EvalError Evaluation :=
  match Value.ofInt? (total faces) with
  | some value => .ok ⟨value, bracketed faces⟩
  | none => .error .overflow

/-- The result of an operator on two results. -/
def join (op : Operator) (l r : Evaluation) : Except EvalError Evaluation :=
  if op = .div ∧ r.value = 0 then .ok ⟨0, divisionByZero⟩
  else
    match Value.ofInt? (op.exact l.value.toInt r.value.toInt) with
    | some value => .ok ⟨value, l.trace ++ " " ++ op.symbol.toString ++ " " ++ r.trace⟩
    | none => .error .overflow

end Evaluation

/-- How many dice of one term are thrown from one question for the time to the next. -/
def pollInterval : Nat := 256

/-- Throws `left` more dice of a term after `thrown` dice, whose faces are `faces`, latest first. -/
def throwDice {σ : Type} [Tray σ] (sides : UInt32) : (left thrown : Nat) → List Nat → Rolling σ (List Nat)
  | 0, _, faces => pure faces.reverse
  | left + 1, thrown, faces => do
    if (thrown + 1) % pollInterval = 0 then Rolling.checkTime
    let n ← Rolling.throwDie sides
    throwDice sides left (thrown + 1) (n :: faces)

namespace Expr

def eval {σ : Type} [Tray σ] : Expr → Rolling σ Evaluation
  | const value => do
    Rolling.checkTime
    return .ofConst value
  | dice count sides => do
    Rolling.checkTime
    if sides = 0 then throw .noSides
    let faces ← throwDice sides count.toNat 0 []
    liftExcept (Evaluation.ofFaces faces)
  | binary op l r => do
    Rolling.checkTime
    let a ← eval l
    let b ← eval r
    liftExcept (Evaluation.join op a b)

variable {γ : Type} [WordSource γ]

/-- The result, the number of questions for the time, and the source afterwards. -/
def rollTimed (timer : Nat → Bool) (e : Expr) (source : γ) : Except EvalError Evaluation × Nat × γ :=
  let (result, t) := (eval e : Rolling (TimedSource γ) Evaluation) ⟨source, timer, 0⟩
  (result, t.polls, t.source)

/-- A roll without a timer. -/
def roll (e : Expr) (source : γ) : Except EvalError Evaluation × γ :=
  let (result, _, source) := e.rollTimed Timer.never source
  (result, source)

end Expr

end DiceNotation
