import DiceNotation.Codec.Datum
import DiceNotation.Roll.Evaluate

/-!
# Tokens, expressions and evaluations as data

Each type has one form that `encode` writes. `decode?` reads that form and a few others: names in place of records and
back, records as arrays, and objects with unknown fields. A part that cannot be read makes the whole unreadable.
-/

namespace DiceNotation

/-! ## Names -/

def Token.Kind.names : Datum.Names Kind where
  name
    | number => "Number"
    | dice => "Dice"
    | additive => "AdditiveOp"
    | multiplicative => "MultiplicativeOp"
    | paren => "Paren"
  all := [number, dice, additive, multiplicative, paren]
  mem_all k := by cases k <;> decide
  nodup := by decide

def Operator.names : Datum.Names Operator where
  name
    | add => "Add"
    | sub => "Sub"
    | mul => "Mul"
    | div => "Div"
  all := [add, sub, mul, div]
  mem_all op := by cases op <;> decide
  nodup := by decide

def Token.Kind.encode : Kind → Datum :=
  names.encode

def Token.Kind.decode? : Datum → Option Kind :=
  names.decode?

def Operator.encode : Operator → Datum :=
  names.encode

def Operator.decode? : Datum → Option Operator :=
  names.decode?

/-! ## Records -/

def Token.encode (t : Token) : Datum :=
  .object [("kind", t.kind.encode), ("text", .text t.text)]

def Token.decode? (d : Datum) : Option Token :=
  match d.record? ["kind", "text"] with
  | some [kind, text] => do return ⟨← Kind.decode? kind, ← text.text?⟩
  | _ => none

def Evaluation.encode (e : Evaluation) : Datum :=
  .object [("value", .int e.value.toInt), ("trace", .text e.trace)]

def Evaluation.decode? (d : Datum) : Option Evaluation :=
  match d.record? ["value", "trace"] with
  | some [value, trace] => do return ⟨← value.value?, ← trace.text?⟩
  | _ => none

/-! ## Expressions -/

def Expr.encode : Expr → Datum
  | const value => .object [("Constant", .int value.toInt)]
  | dice count sides =>
    .object [("DiceRoll", .object [("count", .int count.toNat), ("sides", .int sides.toNat)])]
  | binary op l r => .object [("BinaryOp", .array [l.encode, op.encode, r.encode])]

/-- The count and sides of a dice term, which are never written as an array. -/
def Expr.decodeDice? (d : Datum) : Option Expr :=
  match d.fields? ["count", "sides"] with
  | some [count, sides] => do return .dice (← count.count?) (← sides.count?)
  | _ => none

def Expr.decode? : Datum → Option Expr
  | .object [("Constant", d)] => d.value?.map .const
  | .object [("DiceRoll", d)] => decodeDice? d
  | .object [("BinaryOp", .array [l, op, r])] => do
    return .binary (← Operator.decode? op) (← decode? l) (← decode? r)
  | _ => none

end DiceNotation
