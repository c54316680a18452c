import DiceNotation.Roll.Evaluate

/-!
# How far a roll gets in its time

The time of a roll is measured in dice: `capacity` is how many can be thrown before it is up. `Expr.deadline?` finds the
first dice term that cannot be finished in time and gives the number of the first question for the time that follows its
start; that question is to be answered with yes. Whatever fails before the term still fails in its own way.
-/

namespace DiceNotation

/-- Where a roll stands after a part of its expression. -/
inductive Pace where
  | inTime (questions thrown : Nat)
  /-- The time is up at the question with this number, counted from 0. -/
  | late (question : Nat)
  /-- A die without sides ends the roll. -/
  | stopped

/-- The pace of an expression that is begun after so many questions and dice. -/
def Expr.pace (capacity : Nat) : Expr → (questions thrown : Nat) → Pace
  | const _, questions, thrown => .inTime (questions + 1) thrown
  | dice count sides, questions, thrown =>
    if sides = 0 then .stopped
    else if capacity < thrown + count.toNat then .late (questions + 1)
    else .inTime (questions + 1 + count.toNat / pollInterval) (thrown + count.toNat)
  | binary _ l r, questions, thrown =>
    match l.pace capacity (questions + 1) thrown with
    | .inTime questions thrown => r.pace capacity questions thrown
    | pace => pace

/-- The question at which the time of a roll is up, if it does not finish in time. -/
def Expr.deadline? (capacity : Nat) (e : Expr) : Option Nat :=
  match e.pace capacity 0 0 with
  | .late question => some question
  | _ => none

end DiceNotation
