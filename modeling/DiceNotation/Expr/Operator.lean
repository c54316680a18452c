import DiceNotation.Token.Basic

/-!
# Operators

The four binary operators, their symbols and how tightly they bind. `Operator.exact` is their meaning on unbounded
integers: a quotient is cut towards zero, and a quotient by zero is zero.
-/

namespace DiceNotation

inductive Operator where
  | add
  | sub
  | mul
  | div
  deriving DecidableEq

namespace Operator

def symbol : Operator → Char
  | add => '+'
  | sub => '-'
  | mul => '*'
  | div => '/'

def ofSymbol? : String → Option Operator
  | "+" => some add
  | "-" => some sub
  | "*" => some mul
  | "/" => some div
  | _ => none

/-- Higher levels bind tighter. -/
def level : Operator → Nat
  | add | sub => 1
  | mul | div => 2

def exact : Operator → Int → Int → Int
  | add, a, b => a + b
  | sub, a, b => a - b
  | mul, a, b => a * b
  | div, a, b => a.tdiv b

theorem ofSymbol?_symbol (op : Operator) : ofSymbol? op.symbol.toString = some op := by
  cases op <;> rfl

theorem exact_div_zero (a : Int) : exact div a 0 = 0 :=
  Int.tdiv_zero a

end Operator

end DiceNotation
