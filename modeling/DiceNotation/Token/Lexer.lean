import DiceNotation.Text.Blank
import DiceNotation.Text.Digits
import DiceNotation.Token.Basic

/-!
# From text to tokens

A text is first cut into pieces: every symbol is a piece, and so is every longest run of characters that are neither
blank nor symbols (`pieces`). Each piece then becomes one token (`Piece.token`): a numeral, or a dice term `NdM` whose
count may be left out and is then written as `1`. The first piece that is neither is the error, whatever follows it.
-/

namespace DiceNotation.Token

open Text

inductive LexError where
  | unrecognized (word : String)
  deriving DecidableEq

def LexError.message : LexError → String
  | .unrecognized word => "\"" ++ word ++ "\" was not recognized as a valid number or dice expression."

/-! ## Words -/

/-- The digits of a word that is a numeral. -/
def number? (word : List Char) : Option (List Char) :=
  if isNumeral word then some word else none

/-- The count, which may be empty, and the sides of a word `NdM`. -/
def dice? (word : List Char) : Option (List Char × List Char) :=
  match word.dropWhile Char.isDigit with
  | 'd' :: sides => if isNumeral sides then some (word.takeWhile Char.isDigit, sides) else none
  | _ => none

/-- The token of a whole word. -/
def classify (word : List Char) : Except LexError Token :=
  match number? word with
  | some digits => .ok ⟨.number, String.ofList digits⟩
  | none =>
    match dice? word with
    | some (count, sides) => .ok ⟨.dice, String.ofList ((if count.isEmpty then ['1'] else count) ++ 'd' :: sides)⟩
    | none => .error (.unrecognized (String.ofList word))

/-! ## Pieces -/

inductive Piece where
  | word (chars : List Char)
  | symbol (kind : Kind) (char : Char)
  deriving DecidableEq

/-- The piece of the characters read since the last cut, latest first; none if there are no such characters. -/
def Piece.ofPending : List Char → List Piece
  | [] => []
  | c :: cs => [.word (c :: cs).reverse]

/-- The pieces of a text, after the characters `pending` of an unfinished word, latest first. -/
def piecesAfter (pending : List Char) : List Char → List Piece
  | [] => Piece.ofPending pending
  | c :: cs =>
    if isBlank c then Piece.ofPending pending ++ piecesAfter [] cs
    else
      match Kind.ofSymbol? c with
      | some kind => Piece.ofPending pending ++ .symbol kind c :: piecesAfter [] cs
      | none => piecesAfter (c :: pending) cs

def pieces (text : List Char) : List Piece :=
  piecesAfter [] text

def Piece.token : Piece → Except LexError Token
  | .word chars => classify chars
  | .symbol kind char => .ok ⟨kind, char.toString⟩

/-- The tokens of a text, or the first word that is neither a numeral nor a dice term. -/
def tokenize (text : String) : Except LexError (List Token) :=
  (pieces text.toList).mapM Piece.token

end DiceNotation.Token
