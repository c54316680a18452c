import DiceNotation.Expr.Basic
import DiceNotation.Expr.ParseError
import DiceNotation.Text.Digits

/-!
# From tokens to expressions

The parser is a machine with a stack of open groups. It reads one token at a time, never looks back and never stops at
an error: what went wrong leaves a hole (`none`) in the tree and the reading goes on, so one run reports every problem.

`State.step` reads a token, `State.finish` ends the input. Each group holds at most one sum and one product that still
wait for their right operand (`Frame`), which makes operators of one level associate to the left. A token that can not
continue the expression ends it: every group that is still open is unmatched, and all later tokens are ignored.
-/

namespace DiceNotation

namespace Parser

open Text

/-- How deep parentheses may nest and how many dice all terms may roll together. -/
structure Limits where
  maxDepth : Nat := 64
  maxDice : Nat := 10000
  deriving DecidableEq

/-! ## Operands -/

/-- The operand of a number token, or what is wrong with its text. -/
def constant (text : String) : Except ParseError Expr :=
  if !isNumeral text.toList then .error (.numberNotNumeral text)
  else
    match Value.ofInt? (numeralValue text.toList) with
    | some value => .ok (.const value)
    | none => .error (.numberOutOfRange text)

/-- The parts of a text around its only `d`. -/
def splitDice? (text : List Char) : Option (List Char × List Char) :=
  match text.dropWhile (· ≠ 'd') with
  | [] => none
  | _ :: sides => if 'd' ∈ sides then none else some (text.takeWhile (· ≠ 'd'), sides)

/-- The count and sides of a dice token, or what is wrong with its text. -/
def diceTerm (text : String) : Except ParseError (UInt32 × UInt32) :=
  match splitDice? text.toList with
  | none => .error (.malformedDice text)
  | some (count, sides) =>
    if count.isEmpty || !isNumeral sides then .error (.malformedDice text)
    else if !isNumeral count then .error (.diceCountNotNumeral text)
    else
      let n := numeralValue count
      let m := numeralValue sides
      if n < 0x100000000 && m == 0 then .error (.noSides text)
      else if n < 0x100000000 && m < 0x100000000 then .ok (n.toUInt32, m.toUInt32)
      else .error (.diceOutOfRange text)

/-! ## The state -/

/-- A left operand and its operator, waiting for the right operand. -/
structure Pending where
  left : Option Expr
  op : Option Operator

/-- A hole in any part is a hole in the whole. -/
def combine : Option Expr → Option Operator → Option Expr → Option Expr
  | some l, some op, some r => some (.binary op l r)
  | _, _, _ => none

def Pending.complete : Option Pending → Option Expr → Option Expr
  | none, e => e
  | some p, e => combine p.left p.op e

/-- One group being read. -/
structure Frame where
  sum : Option Pending := none
  product : Option Pending := none

/-- The product that ends with the operand `read`. -/
def Frame.term (f : Frame) (read : Option Expr) : Option Expr :=
  Pending.complete f.product read

/-- The whole group, ending with the operand `read`. -/
def Frame.total (f : Frame) (read : Option Expr) : Option Expr :=
  Pending.complete f.sum (f.term read)

inductive Phase where
  | operand
  | operator (read : Option Expr)
  /-- Passing over a group that is nested too deep, with `inner` groups open inside it. -/
  | skipping (inner : Nat)
  | done (tree : Option Expr)

/-- `outer` holds the groups around the current one, innermost first; `dice` counts the dice of all terms so far. -/
structure State where
  frame : Frame := {}
  outer : List Frame := []
  phase : Phase := .operand
  dice : Nat := 0

namespace State

/-! ## Reading a token -/

/-- The number of dice is kept in a 64-bit word that stays at its greatest value. -/
def countDice (dice : Nat) (count : UInt32) : Nat :=
  min (dice + count.toNat) 0xffffffffffffffff

def readConstant (s : State) (text : String) : List ParseError × State :=
  match constant text with
  | .ok e => ([], { s with phase := .operator (some e) })
  | .error e => ([e], { s with phase := .operator none })

def readDice (limits : Limits) (s : State) (text : String) : List ParseError × State :=
  match diceTerm text with
  | .error e => ([e], { s with phase := .operator none })
  | .ok (count, sides) =>
    let dice := countDice s.dice count
    if limits.maxDice < dice then
      ([.tooManyDice text limits.maxDice], { s with phase := .operator none, dice := dice })
    else ([], { s with phase := .operator (some (.dice count sides)), dice := dice })

def openGroup (limits : Limits) (s : State) : List ParseError × State :=
  if limits.maxDepth ≤ s.outer.length then
    ([.nestingTooDeep limits.maxDepth], { s with phase := .skipping 0 })
  else ([], { s with frame := {}, outer := s.frame :: s.outer, phase := .operand })

def operator (text : String) : List ParseError × Option Operator :=
  match Operator.ofSymbol? text with
  | some op => ([], some op)
  | none => ([.notAnOperator text], none)

/-- The tree of an expression that ends here: a group that is still open leaves a hole. -/
def tree (s : State) (read : Option Expr) : Option Expr :=
  if s.outer.isEmpty then s.frame.total read else none

/-- One error for each group that is still open. -/
def unmatched (s : State) : List ParseError :=
  List.replicate s.outer.length .unmatchedParenthesis

/-- Reads a token after the operand `read`. A token that is `blamed` already is not reported again. -/
def continueWith (s : State) (read : Option Expr) (blamed : Bool) (t : Token) : List ParseError × State :=
  match t.kind with
  | .additive =>
    let (errors, op) := operator t.text
    (errors, { s with frame := ⟨some ⟨s.frame.total read, op⟩, none⟩, phase := .operand })
  | .multiplicative =>
    let (errors, op) := operator t.text
    (errors, { s with frame := ⟨s.frame.sum, some ⟨s.frame.term read, op⟩⟩, phase := .operand })
  | _ =>
    match t.isClosing, s.outer with
    | true, f :: fs => ([], { s with frame := f, outer := fs, phase := .operator (s.frame.total read) })
    | _, _ =>
      (s.unmatched ++ (if blamed then [] else [.trailingToken t.text]), { s with phase := .done (s.tree read) })

def step (limits : Limits) (s : State) (t : Token) : List ParseError × State :=
  match s.phase with
  | .operand =>
    match t.kind with
    | .number => s.readConstant t.text
    | .dice => s.readDice limits t.text
    | _ =>
      if t.isOpening then s.openGroup limits
      else
        let (errors, s') := s.continueWith none true t
        (.unexpectedToken t.text :: errors, s')
  | .operator read => s.continueWith read false t
  | .skipping inner =>
    if t.isOpening then ([], { s with phase := .skipping (inner + 1) })
    else if t.isClosing then
      match inner with
      | 0 => ([], { s with phase := .operator none })
      | n + 1 => ([], { s with phase := .skipping n })
    else ([], s)
  | .done _ => ([], s)

/-- Reads tokens in order and collects their errors in order. -/
def run (limits : Limits) (s : State) : List Token → List ParseError × State
  | [] => ([], s)
  | t :: ts =>
    let (errors, s') := s.step limits t
    let (later, last) := s'.run limits ts
    (errors ++ later, last)

theorem run_append (limits : Limits) (ts us : List Token) :
    ∀ s : State, s.run limits (ts ++ us) =
      ((s.run limits ts).1 ++ ((s.run limits ts).2.run limits us).1, ((s.run limits ts).2.run limits us).2) := by
  induction ts with
  | nil => simp [run]
  | cons t ts ih => simp [run, ih]

/-- The errors and the tree when the input ends. -/
def finish (s : State) : List ParseError × Option Expr :=
  match s.phase with
  | .operand => (.unexpectedEnd :: s.unmatched, none)
  | .operator read => (s.unmatched, s.tree read)
  | .skipping _ => (.unmatchedParenthesis :: s.unmatched, none)
  | .done tree => ([], tree)

end State

/-! ## Whole token lists -/

/-- Every problem of a token list, and the tree if it has no holes. -/
def collect (limits : Limits) : List Token → List ParseError × Option Expr
  | [] => ([.empty], none)
  | t :: ts =>
    let (errors, s) := State.run limits {} (t :: ts)
    let (last, tree) := s.finish
    (errors ++ last, tree)

/-- The expression of a token list without problems. -/
def parse (limits : Limits) (tokens : List Token) : Except (List ParseError) Expr :=
  match collect limits tokens with
  | ([], some e) => .ok e
  | (errors, _) => .error errors

end Parser

end DiceNotation
