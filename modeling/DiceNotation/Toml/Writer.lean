import DiceNotation.Toml.Document

/-!
# Writing TOML

A document is written one entry a line, in the order of its keys: `key = value` for a value, and for a table its header,
an empty line before it unless it comes first, and its entries. An entry after a table would belong to that table, so a
document with a value behind a table has no written form.
-/

namespace DiceNotation.Toml.Writer

def isBareKey (key : String) : Bool :=
  !key.isEmpty && key.toList.all fun c => c.isAlphanum || c = '-' || c = '_'

/-- Four hexadecimal digits. -/
def hex4 (n : Nat) : List Char :=
  [n / 4096 % 16, n / 256 % 16, n / 16 % 16, n % 16].map fun d => (Nat.digitChar d).toUpper

/-- A character inside double quotes. -/
def escaped (c : Char) : List Char :=
  if c = '\x08' then ['\\', 'b']
  else if c = '\t' then ['\\', 't']
  else if c = '\n' then ['\\', 'n']
  else if c = '\x0c' then ['\\', 'f']
  else if c = '\r' then ['\\', 'r']
  else if c = '"' then ['\\', '"']
  else if c = '\\' then ['\\', '\\']
  else if c < ' ' ∨ c = '\x7f' then '\\' :: 'u' :: hex4 c.toNat
  else [c]

def quoted (s : String) : String :=
  "\"" ++ String.ofList (s.toList.flatMap escaped) ++ "\""

def key (s : String) : String :=
  if isBareKey s then s else quoted s

mutual

def value? : Value → Option String
  | .integer n => some (toString n.toInt)
  | .text s => some (quoted s)
  | .bool b => some (if b then "true" else "false")
  | .dateTime d => some (String.ofList d.chars)
  | .array items => do return "[" ++ ", ".intercalate (← values? items) ++ "]"
  | .decimal _ _ => none
  | .inline _ => none

def values? : List Value → Option (List String)
  | [] => some []
  | v :: vs => do return (← value? v) :: (← values? vs)

end

def entry? (name : String) (v : Value) : Option String := do
  return key name ++ " = " ++ (← value? v) ++ "\n"

def table? (name : String) (t : Table Value) : Option String := do
  let entries ← t.entries.mapM fun (k, v) => entry? k v
  return "[" ++ key name ++ "]\n" ++ String.join entries

/-- The entries from here on: `first` says that nothing is written yet, `inTable` that a table is open. -/
def items? (first inTable : Bool) : List (String × Item) → Option String
  | [] => some ""
  | (name, .value v) :: rest =>
    if inTable then none
    else do return (← entry? name v) ++ (← items? false false rest)
  | (name, .table t) :: rest => do
    return (if first then "" else "\n") ++ (← table? name t) ++ (← items? false true rest)

def document? (d : Document) : Option String :=
  items? true false d.entries

end DiceNotation.Toml.Writer
