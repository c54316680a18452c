import DiceNotation.Text.Digits

/-!
# Dates and times

A date, a time of day, or a date with a time and perhaps its offset from UTC: `1979-05-27`, `07:32:00.5`,
`1979-05-27T07:32:00-08:00`. `DateTime.ofChars?` reads such a text and `DateTime.chars` writes one.

A day may be any up to 31 whatever the month, and an hour may be 24. `T` is written between a date and its time; `t` or
a space is read there too. Of a fraction of a second nine digits count.
-/

namespace DiceNotation.Toml

open Text

/-- The numbers from `lo` to `hi`. -/
abbrev Within (lo hi : Nat) :=
  { n : Nat // lo ≤ n ∧ n ≤ hi }

structure Date where
  year : Within 0 9999
  month : Within 1 12
  day : Within 1 31

structure Time where
  hour : Within 0 24
  minute : Within 0 59
  second : Within 0 59
  nanosecond : Within 0 999999999

/-- The hours bear the sign, so an offset of less than an hour has none. -/
inductive Offset where
  | utc
  | numeric (hours : { n : Int // n.natAbs ≤ 99 }) (minutes : Within 0 99)

inductive DateTime where
  | date (date : Date)
  | time (time : Time)
  | both (date : Date) (time : Time) (offset : Option Offset)

/-! ## Reading -/

/-- The number from `lo` to `hi` that the first `width` characters write, all digits, and what follows it. -/
def number? (width lo hi : Nat) (cs : List Char) : Option (Within lo hi × List Char) :=
  let digits := cs.take width
  let n := numeralValue digits
  if digits.length = width ∧ digits.all Char.isDigit then
    if h : lo ≤ n ∧ n ≤ hi then some (⟨n, h⟩, cs.drop width) else none
  else none

/-- What follows `c` at the start. -/
def after? (c : Char) : List Char → Option (List Char)
  | [] => none
  | d :: cs => if d = c then some cs else none

def Date.read? (cs : List Char) : Option (Date × List Char) := do
  let (year, cs) ← number? 4 0 9999 cs
  let (month, cs) ← number? 2 1 12 (← after? '-' cs)
  let (day, cs) ← number? 2 1 31 (← after? '-' cs)
  return (⟨year, month, day⟩, cs)

/-- A fraction of a second in nanoseconds, zero if there is none, and what follows it. Digits that are missing are
zeros. -/
def fraction? : List Char → Option (Within 0 999999999 × List Char)
  | '.' :: cs => do
    let digits := cs.takeWhile Char.isDigit
    guard (digits ≠ [])
    let (n, _) ← number? 9 0 999999999 (digits ++ List.replicate 9 '0')
    return (n, cs.dropWhile Char.isDigit)
  | cs => some (⟨0, by decide⟩, cs)

def Time.read? (cs : List Char) : Option (Time × List Char) := do
  let (hour, cs) ← number? 2 0 24 cs
  let (minute, cs) ← number? 2 0 59 (← after? ':' cs)
  let (second, cs) ← number? 2 0 59 (← after? ':' cs)
  let (nanosecond, cs) ← fraction? cs
  return (⟨hour, minute, second, nanosecond⟩, cs)

/-- The hours and minutes after the sign of an offset. -/
def Offset.read? (negative : Bool) (cs : List Char) : Option (Offset × List Char) := do
  let (⟨h, _, h_le⟩, cs) ← number? 2 0 99 cs
  let (minutes, cs) ← number? 2 0 99 (← after? ':' cs)
  return (.numeric ⟨if negative then -h else h, by split <;> omega⟩ minutes, cs)

/-- An offset, if one is there, and what follows it. -/
def offset? : List Char → Option (Option Offset × List Char)
  | 'Z' :: cs => some (some .utc, cs)
  | 'z' :: cs => some (some .utc, cs)
  | '+' :: cs => (Offset.read? false cs).map fun (o, rest) => (some o, rest)
  | '-' :: cs => (Offset.read? true cs).map fun (o, rest) => (some o, rest)
  | cs => some (none, cs)

/-- Where the time after a date starts. -/
def timeStart? : List Char → Option (List Char)
  | 'T' :: cs => some cs
  | 't' :: cs => some cs
  | ' ' :: cs => some cs
  | _ => none

namespace DateTime

/-- A date, a time or both at the start, and what follows. -/
def read? (cs : List Char) : Option (DateTime × List Char) :=
  match Date.read? cs with
  | none => (Time.read? cs).map fun (t, rest) => (.time t, rest)
  | some (d, rest) =>
    match timeStart? rest with
    | none => some (.date d, rest)
    | some cs => do
      let (t, rest) ← Time.read? cs
      let (o, rest) ← offset? rest
      return (.both d t o, rest)

def ofChars? (cs : List Char) : Option DateTime :=
  match read? cs with
  | some (d, []) => some d
  | _ => none

end DateTime

/-! ## Writing -/

/-- A number in at least `width` digits. -/
def padded (width n : Nat) : List Char :=
  (Nat.toDigits 10 n).leftpad width '0'

def Date.chars (d : Date) : List Char :=
  padded 4 d.year ++ '-' :: padded 2 d.month ++ '-' :: padded 2 d.day

/-- A fraction of a second without zeros at its end. -/
def fractionChars (nanosecond : Nat) : List Char :=
  if nanosecond = 0 then [] else '.' :: ((padded 9 nanosecond).reverse.dropWhile (· = '0')).reverse

def Time.chars (t : Time) : List Char :=
  padded 2 t.hour ++ ':' :: padded 2 t.minute ++ ':' :: padded 2 t.second ++ fractionChars t.nanosecond

def Offset.chars : Offset → List Char
  | utc => ['Z']
  | numeric h m => (if h.val < 0 then '-' else '+') :: padded 2 h.val.natAbs ++ ':' :: padded 2 m

def DateTime.chars : DateTime → List Char
  | date d => d.chars
  | time t => t.chars
  | both d t o => d.chars ++ 'T' :: t.chars ++ o.elim [] Offset.chars

end DiceNotation.Toml
