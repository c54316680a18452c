import DiceNotation.Expr.Parser

/-!
# Recursive descent

The same language read by procedures that call each other. An expression is a term, a term is a chain of factors, a
factor is a chain of primaries, and a primary is an operand or a group around an expression. A procedure that fails
leaves a hole, and its caller goes on.

The calls are laid open: a `State` has the procedures that wait for another one (`calls`, innermost first) and the
`Point` that the running one has reached. `State.step` goes from one point to the next. The cursor stays at the end once
it is there, and a counter that would have to go below zero is an outcome of its own.
-/

namespace DiceNotation.Parser.Descent

/-- The two procedures that read operands with operators of one kind between them. -/
inductive Chain where
  | term
  | factor
  deriving DecidableEq

inductive Procedure where
  | expression
  | chain (c : Chain)
  | primary
  | group
  deriving DecidableEq

namespace Chain

def kind : Chain → Token.Kind
  | term => .additive
  | factor => .multiplicative

def operand : Chain → Procedure
  | term => .chain factor
  | factor => .primary

end Chain

/-- A procedure that waits for one that it has called. A group waits from the time it has been found not too deep. -/
inductive Call where
  | expression
  | chain (c : Chain) (pending : Option Pending)
  | primary
  | group

inductive Point where
  | start
  | entry (p : Procedure)
  /-- Where a chain looks for its next operator. -/
  | loop (c : Chain) (read : Option Expr)
  /-- Where a group that is nested too deep looks for its end. -/
  | skipping (opened : Nat)
  | exit (p : Procedure) (result : Option Expr)

structure State where
  cursor : Nat := 0
  depth : Nat := 0
  dice : Nat := 0
  /-- Where the last token stands that was reported as unexpected. -/
  reported : Option Nat := none
  errors : List ParseError := []
  calls : List Call := []
  point : Point := .start

inductive Outcome where
  | next (s : State)
  | finished (result : List ParseError × Option Expr)
  | underflow

/-- The errors and the value of a number or dice token after `dice` dice, and the number of dice with it. -/
def operand? (limits : Limits) (t : Token) (dice : Nat) : Option (List ParseError × Option Expr × Nat) :=
  match t.kind with
  | .number =>
    match constant t.text with
    | .ok e => some ([], some e, dice)
    | .error e => some ([e], none, dice)
  | .dice =>
    match diceTerm t.text with
    | .error e => some ([e], none, dice)
    | .ok (count, sides) =>
      let total := State.countDice dice count
      if limits.maxDice < total then some ([.tooManyDice t.text limits.maxDice], none, total)
      else some ([], some (.dice count sides), total)
  | _ => none

namespace State

variable (limits : Limits) (tokens : List Token) (s : State)

def peek : Option Token :=
  tokens[s.cursor]?

def consume : State :=
  { s with cursor := if s.cursor < tokens.length then s.cursor + 1 else s.cursor }

/-- The token that was consumed last. -/
def previous : Option Token :=
  match s.cursor with
  | 0 => none
  | c + 1 => tokens[c]?

def report (errors : List ParseError) : State :=
  { s with errors := s.errors ++ errors }

/-- Calls a procedure; `c` waits for it. -/
def call (c : Call) (p : Procedure) : State :=
  { s with calls := c :: s.calls, point := .entry p }

def leave (p : Procedure) (result : Option Expr) : State :=
  { s with point := .exit p result }

/-- The operator that was consumed last. -/
def operation : List ParseError × Option Operator :=
  match s.previous tokens with
  | some t => Parser.State.operator t.text
  | none => ([], none)

def primary : State :=
  match s.peek tokens with
  | none => (s.report [.unexpectedEnd]).leave .primary none
  | some t =>
    match operand? limits t s.dice with
    | some (errors, value, dice) => { (s.consume tokens).report errors with dice }.leave .primary value
    | none =>
      if t.isOpening then (s.consume tokens).call .primary .group
      else { s.report [.unexpectedToken t.text] with reported := some s.cursor }.leave .primary none

def group : State :=
  if limits.maxDepth ≤ s.depth then { s.report [.nestingTooDeep limits.maxDepth] with point := .skipping 1 }
  else { s with depth := s.depth + 1 }.call .group .expression

def loop (c : Chain) (read : Option Expr) : State :=
  if (s.peek tokens).any (·.kind = c.kind) then
    let s := s.consume tokens
    let (errors, op) := s.operation tokens
    (s.report errors).call (.chain c (some ⟨read, op⟩)) c.operand
  else s.leave (.chain c) read

def skip (opened : Nat) : Outcome :=
  match s.peek tokens with
  | none => .next ((s.report [.unmatchedParenthesis]).leave .group none)
  | some t =>
    let s := s.consume tokens
    if t.isOpening then .next { s with point := .skipping (opened + 1) }
    else if t.isClosing then
      match opened with
      | 0 => .underflow
      | 1 => .next (s.leave .group none)
      | n + 2 => .next { s with point := .skipping (n + 1) }
    else .next { s with point := .skipping opened }

/-- Back in a group, which should end here. -/
def close (result : Option Expr) : Outcome :=
  match s.depth with
  | 0 => .underflow
  | d + 1 =>
    let s := { s with depth := d }
    if (s.peek tokens).any Token.isClosing then .next ((s.consume tokens).leave .group result)
    else .next ((s.report [.unmatchedParenthesis]).leave .group none)

def finish (tree : Option Expr) : List ParseError × Option Expr :=
  match s.peek tokens with
  | some t => (if s.reported = some s.cursor then s.errors else s.errors ++ [.trailingToken t.text], tree)
  | none => (s.errors, tree)

/-- Back in the procedure that has waited for this result. -/
def resume (result : Option Expr) : Outcome :=
  match s.calls with
  | [] => .finished (s.finish tokens result)
  | .expression :: calls => .next ({ s with calls }.leave .expression result)
  | .chain c pending :: calls => .next { s with calls, point := .loop c (Pending.complete pending result) }
  | .primary :: calls => .next ({ s with calls }.leave .primary result)
  | .group :: calls => { s with calls }.close tokens result

def step : Outcome :=
  match s.point with
  | .start => if tokens.isEmpty then .finished ([.empty], none) else .next { s with point := .entry .expression }
  | .entry .expression => .next (s.call .expression (.chain .term))
  | .entry (.chain c) => .next (s.call (.chain c none) c.operand)
  | .entry .primary => .next (s.primary limits tokens)
  | .entry .group => .next (s.group limits)
  | .loop c read => .next (s.loop tokens c read)
  | .skipping opened => s.skip tokens opened
  | .exit _ result => s.resume tokens result

/-- The outcome of `n` steps, or of the last one if there are fewer. -/
def run : Nat → State → Outcome
  | 0, s => .next s
  | n + 1, s =>
    match s.step limits tokens with
    | .next s' => run n s'
    | outcome => outcome

end State

end DiceNotation.Parser.Descent
