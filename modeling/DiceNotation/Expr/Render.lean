import DiceNotation.Expr.Basic

/-!
# Printed expressions

`Expr.render` writes an expression with the parentheses its tree needs and no others. Operators associate to the left,
so a right operand of the same level is grouped and a left one is not. A negative constant is written `(-7)`, which no
text that is read can contain as a constant.
-/

namespace DiceNotation.Expr

def grouped (needed : Bool) (text : String) : String :=
  if needed then "(" ++ text ++ ")" else text

def render : Expr → String
  | const value => grouped (value.toInt < 0) (toString value.toInt)
  | dice count sides => toString count.toNat ++ "d" ++ toString sides.toNat
  | binary op l r =>
    grouped (l.level < op.level) l.render ++ " " ++ op.symbol.toString ++ " " ++ grouped (r.level ≤ op.level) r.render

end DiceNotation.Expr
