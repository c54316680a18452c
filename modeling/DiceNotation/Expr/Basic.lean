import DiceNotation.Expr.Operator
import DiceNotation.Value

/-!
# Dice expressions

Constants, dice terms and binary operations. Parentheses have no constructor: grouping is the shape of the tree. An
expression read from a text has constants from 0 upwards and dice with at least one side; others can be built by hand.
-/

namespace DiceNotation

inductive Expr where
  | const (value : Value)
  | dice (count sides : UInt32)
  | binary (op : Operator) (left right : Expr)
  deriving DecidableEq

namespace Expr

/-- How tightly the outermost operator binds; an operand without one is never torn apart. -/
def level : Expr → Nat
  | const _ => 3
  | dice _ _ => 3
  | binary op _ _ => op.level

/-- The number of dice in all dice terms together. -/
def diceCount : Expr → Nat
  | const _ => 0
  | dice count _ => count.toNat
  | binary _ l r => l.diceCount + r.diceCount

end Expr

end DiceNotation
