/-!
# What can be wrong with an expression

One constructor per cause. The last three name tokens whose kind and text contradict each other, which no text can
bring about.
-/

namespace DiceNotation

inductive ParseError where
  | malformedDice (text : String)
  | noSides (text : String)
  | diceOutOfRange (text : String)
  | tooManyDice (text : String) (maxDice : Nat)
  | numberOutOfRange (text : String)
  | unmatchedParenthesis
  | unexpectedToken (text : String)
  | unexpectedEnd
  | trailingToken (text : String)
  | empty
  | nestingTooDeep (maxDepth : Nat)
  | numberNotNumeral (text : String)
  | diceCountNotNumeral (text : String)
  | notAnOperator (text : String)
  deriving DecidableEq

namespace ParseError

def quoted (text : String) : String :=
  "\"" ++ text ++ "\""

def message : ParseError → String
  | malformedDice text => quoted text ++ " was not recognized as a valid number or dice expression."
  | noSides text => quoted text ++ " has no sides to roll"
  | diceOutOfRange text => quoted text ++ " exceeds the maximum of 4294967295 dice or sides"
  | tooManyDice text maxDice => quoted text ++ " rolls more than " ++ toString maxDice ++ " dice in one expression"
  | numberOutOfRange text => quoted text ++ " is too large"
  | unmatchedParenthesis => "Unmatched parenthesis."
  | unexpectedToken text => "unexpected " ++ quoted text ++ ", expected a number, dice or \"(\""
  | unexpectedEnd => "unexpected end of expression"
  | trailingToken text => "unexpected " ++ quoted text ++ " after the end of the expression"
  | empty => "empty expression"
  | nestingTooDeep maxDepth => "parentheses nested deeper than " ++ toString maxDepth ++ " levels"
  | numberNotNumeral text => "internal error: NUMBER token " ++ quoted text ++ " was not purely numeric"
  | diceCountNotNumeral text =>
    "internal error: NUMBER in dice expression " ++ quoted text ++ " was not purely numeric"
  | notAnOperator text => "internal error: operator token " ++ quoted text ++ " is not an operator"

/-- All problems of one expression in one line. -/
def messages (errors : List ParseError) : String :=
  "; ".intercalate (errors.map message)

end ParseError

end DiceNotation
