/-!
# Lines

A line ends at a line feed, and a carriage return right before that line feed belongs to the ending. What follows the
last line feed is a line too, empty or not, and keeps its carriage returns. The same rule serves characters and bytes.
-/

namespace DiceNotation.Text

variable {α : Type} [DecidableEq α] (lf cr : α)

/-- The line that a line feed ends, from its reversed elements. -/
def endedLine : List α → List α
  | [] => []
  | c :: cs => if c = cr then cs.reverse else (c :: cs).reverse

/-- The lines of a text, after the elements `pending` of an unfinished line, latest first. -/
def linesAfter (pending : List α) : List α → List (List α)
  | [] => [pending.reverse]
  | c :: cs => if c = lf then endedLine cr pending :: linesAfter [] cs else linesAfter (c :: pending) cs

def lines (text : List α) : List (List α) :=
  linesAfter lf cr [] text

end DiceNotation.Text
