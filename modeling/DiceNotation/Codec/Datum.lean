import DiceNotation.Value

/-!
# Data

`Datum` is a tree of plain data: the usual scalars, arrays, and objects whose fields have names. A number with a
fraction or an exponent is kept apart from the integers and is never taken for one.

The readers below are shared by all types: a name stands for a constructor without arguments (`Names`), and a record is
an object with at least its fields or an array of exactly its fields in order.
-/

namespace DiceNotation

inductive Datum where
  | null
  | bool (b : Bool)
  | int (n : Int)
  /-- `mantissa * 10 ^ exponent`. -/
  | decimal (mantissa exponent : Int)
  | text (s : String)
  | array (items : List Datum)
  | object (fields : List (String × Datum))

namespace Datum

/-- A name, alone or as the only field of an object with nothing in it. -/
def name? : Datum → Option String
  | text s => some s
  | object [(s, null)] => some s
  | _ => none

def text? : Datum → Option String
  | text s => some s
  | _ => none

def value? : Datum → Option Value
  | int n => Value.ofInt? n
  | _ => none

/-- An integer that fits 32 bits without a sign. -/
def count? : Datum → Option UInt32
  | int n => if 0 ≤ n ∧ n < 0x100000000 then some n.toNat.toUInt32 else none
  | _ => none

/-- The named fields of an object, which may have others. -/
def fields? (names : List String) : Datum → Option (List Datum)
  | object fields => names.mapM fun name => fields.lookup name
  | _ => none

/-- The fields of a record written as an object or as an array. -/
def record? (names : List String) : Datum → Option (List Datum)
  | array items => if items.length = names.length then some items else none
  | d => d.fields? names

/-- An enumeration whose members go by different names. -/
structure Names (α : Type) where
  name : α → String
  all : List α
  mem_all (x : α) : x ∈ all
  nodup : (all.map name).Nodup

namespace Names

variable {α : Type} (names : Names α)

def encode (x : α) : Datum :=
  .text (names.name x)

def decode? (d : Datum) : Option α :=
  d.name?.bind fun name => names.all.find? (names.name · = name)

end Names

end Datum

end DiceNotation
