import DiceNotation.Expr.Read
import DiceNotation.Roll.Evaluate

/-!
# Rolling a text

`rollText` reads a text and rolls its expression without a timer. A text that cannot be read takes nothing from the
source.
-/

namespace DiceNotation

inductive RollError where
  | read (error : ReadError)
  | evaluation (error : EvalError)
  deriving DecidableEq

def RollError.message : RollError → String
  | read error => error.message
  | evaluation error => error.message

def rollText {γ : Type} [WordSource γ] (text : String) (source : γ) : Except RollError Evaluation × γ :=
  match Expr.read {} text with
  | .error e => (.error (.read e), source)
  | .ok e =>
    let (result, source) := e.roll source
    (result.mapError .evaluation, source)

end DiceNotation
