import DiceNotation.Expr.Parser
import DiceNotation.Token.Lexer

/-!
# Reading an expression

`Expr.read` takes a text to its expression. A text fails in one of two stages: a word is no token, or the tokens are no
expression within the limits.
-/

namespace DiceNotation

inductive ReadError where
  | lex (error : Token.LexError)
  | parse (errors : List ParseError)
  deriving DecidableEq

def ReadError.message : ReadError → String
  | lex error => error.message
  | parse errors => ParseError.messages errors

def Expr.read (limits : Parser.Limits) (text : String) : Except ReadError Expr := do
  let tokens ← (Token.tokenize text).mapError .lex
  (Parser.parse limits tokens).mapError .parse

end DiceNotation
