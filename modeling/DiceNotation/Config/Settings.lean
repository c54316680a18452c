import DiceNotation.Expr.Parser
import DiceNotation.Toml.Document

/-!
# Settings

What a roll service can be told, and how a document tells it. Each of the five keys has a default and a least value.
`Settings.complete` takes an integer from the least value to `2 ^ 32 - 1` as it is; anything else, and a missing key, is
replaced by the default, in the settings and in the document alike.
-/

namespace DiceNotation

structure Settings where
  /-- The deepest nesting of parentheses. -/
  maxDepth : Nat := 64
  /-- The most dice of one expression. -/
  maxDice : Nat := 10000
  /-- How long a roll may take, in milliseconds. -/
  timeoutMs : Nat := 2000
  /-- How often the master generator gets a new seed, in milliseconds. -/
  reseedMs : Nat := 300000
  /-- How many rolls may run at a time. -/
  workers : Nat := 4
  deriving DecidableEq

namespace Settings

def limits (s : Settings) : Parser.Limits :=
  ⟨s.maxDepth, s.maxDice⟩

structure Key where
  name : String
  default : UInt32
  minimum : Nat

def maxDepthKey : Key := ⟨"max_depth", 64, 0⟩

def maxDiceKey : Key := ⟨"max_dice", 10000, 1⟩

def timeoutKey : Key := ⟨"roll_timeout_ms", 2000, 1⟩

/-- In seconds, unlike the setting. -/
def reseedKey : Key := ⟨"rng_reseed_s", 300, 1⟩

def workersKey : Key := ⟨"rng_workers", 4, 1⟩

def keys : List Key :=
  [maxDepthKey, maxDiceKey, timeoutKey, reseedKey, workersKey]

open Toml

/-- The integer a document gives for a key, if it is in the key's range. -/
def Key.read? (k : Key) (d : Document) : Option Nat :=
  match d.get? k.name with
  | some (.value (.integer n)) =>
    if (k.minimum : Int) ≤ n.toInt ∧ n.toInt < 0x100000000 then some n.toInt.toNat else none
  | _ => none

/-- The integer for a key, and the document with that integer. -/
def Key.complete (k : Key) (d : Document) : Nat × Document :=
  match k.read? d with
  | some n => (n, d)
  | none => (k.default.toNat, d.insert k.name (.value (.integer (Int64.ofNat k.default.toNat))))

def complete (d : Document) : Settings × Document :=
  let (maxDepth, d) := maxDepthKey.complete d
  let (maxDice, d) := maxDiceKey.complete d
  let (timeoutMs, d) := timeoutKey.complete d
  let (reseedS, d) := reseedKey.complete d
  let (workers, d) := workersKey.complete d
  ({ maxDepth, maxDice, timeoutMs, reseedMs := 1000 * reseedS, workers }, d)

end Settings

end DiceNotation
