import DiceNotation.Service.Client
import DiceNotation.Text.Lines

/-!
# Answering line by line

Every line of the input that is not blank is rolled and answered in order: by its faces and its result, or by one error.
A line that is not UTF-8 ends the input.
-/

namespace DiceNotation.LineAnswers

open Service

/-- The settings file is named by the first argument, or else by the environment. -/
def settingsPath? (args : List String) (environment : Option String) : Option String :=
  args.head?.or environment

/-- The lines before the first one that is not UTF-8. -/
def decoded : List (List UInt8) → List String
  | [] => []
  | line :: rest =>
    match String.fromUTF8? ⟨line.toArray⟩ with
    | some text => text :: decoded rest
    | none => []

def isBlankLine (line : String) : Bool :=
  line.toList.all Text.isBlank

/-- The lines that are rolled. -/
def questions (input : List UInt8) : List String :=
  (decoded (Text.lines 10 13 input)).filter fun line => !isBlankLine line

/-- The printed lines for one result. -/
def answer : Result → List String
  | .ok e => ["Rolls: " ++ e.trace, "Result: " ++ toString e.value.toInt]
  | .error e => ["Error: " ++ e.message]

/-- Every line is rolled under a clock of its own. -/
def answersFrom (s : State) (clocks : Nat → Clock) : List String → List String
  | [] => []
  | line :: rest =>
    let (result, s) := s.rollText line (clocks 0)
    answer result ++ answersFrom s (streamFrom 1 clocks) rest

/-- What is printed for an input, by a service that starts with these settings and this master stream. -/
def answers (settings : Settings) (master : Nat → Block) (input : List UInt8)
    (clocks : Nat → Clock := fun _ => Clock.steady settings) : List String :=
  match State.start? settings master with
  | some s => answersFrom s clocks (questions input)
  | none => []

end DiceNotation.LineAnswers
