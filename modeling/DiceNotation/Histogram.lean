import DiceNotation.Expr.Bounds
import DiceNotation.Expr.Render
import DiceNotation.Roll.Text

/-!
# Histograms

The sampling tool rolls one expression many times, each time with a source of its own, and prints how often each value
came up. It prints nothing but the error if the text cannot be read or a roll fails.
-/

namespace DiceNotation.Histogram

/-- What a program leaves behind: its exit code and the lines it printed. -/
structure Report where
  code : UInt32
  output : List String := []
  errors : List String := []

def usage : Report :=
  { code := 2, errors := ["usage: roll-cmd <expression> [samples]"] }

def failed (message : String) : Report :=
  { code := 1, errors := ["Error: " ++ message] }

/-- A number below `2 ^ 32`, with an optional plus sign. -/
def sampleCount? (text : String) : Option Nat :=
  let digits := match text.toList with
    | '+' :: cs => cs
    | cs => cs
  if Text.isNumeral digits && Text.numeralValue digits < 0x100000000 then some (Text.numeralValue digits) else none

/-- Whether `part` occurs in a text. -/
def occursIn (part : List Char) : List Char → Bool
  | [] => part.isEmpty
  | c :: cs => part.isPrefixOf (c :: cs) || occursIn part cs

/-- Whether a trace shows a division by zero. -/
def dividedByZero (e : Evaluation) : Bool :=
  occursIn Evaluation.divisionByZero.toList e.trace.toList

/-- Each value of an ascending list with the number of times it occurs. -/
def tallySorted : List Value → List (Value × Nat)
  | [] => []
  | v :: vs =>
    match tallySorted vs with
    | (w, n) :: rest => if v = w then (w, n + 1) :: rest else (v, 1) :: (w, n) :: rest
    | [] => [(v, 1)]

def tally (values : List Value) : List (Value × Nat) :=
  tallySorted (values.mergeSort (· ≤ ·))

def valueText (v : Value) : String :=
  toString v.toInt

/-- The printed histogram of an expression's rolls. -/
def lines (e : Expr) (rolls : List Evaluation) : List String :=
  let bounds := e.bounds
  let zeros := rolls.countP dividedByZero
  [e.render ++ " in [" ++ valueText bounds.lo ++ ", " ++ valueText bounds.hi ++ "]"]
    ++ (if zeros = 0 then []
      else ["divided by zero in " ++ toString zeros ++ " of " ++ toString rolls.length ++ " rolls"])
    ++ (tally (rolls.map Evaluation.value)).map fun (v, n) => valueText v ++ "\t" ++ toString n

variable {γ : Type} [WordSource γ]

/-- Rolls once with each of the first `count` sources; the first failure ends the rolling. -/
def samples (e : Expr) (sources : Nat → γ) (count : Nat) : Except EvalError (List Evaluation) :=
  (List.range count).mapM fun i => (e.roll (sources i)).1

def report (text : String) (count : Nat) (sources : Nat → γ) : Report :=
  match Expr.read {} text with
  | .error e => failed e.message
  | .ok e =>
    match samples e sources count with
    | .error error => failed error.message
    | .ok rolls => { code := 0, output := lines e rolls }

/-- The tool's command line: an expression and how often to roll it, once if that is no number. -/
def run (args : List String) (sources : Nat → γ) : Report :=
  match args with
  | [] => usage
  | text :: rest => report text ((rest.head?.bind sampleCount?).getD 1) sources

end DiceNotation.Histogram
