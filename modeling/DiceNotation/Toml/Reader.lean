import DiceNotation.Text.Lines
import DiceNotation.Toml.Document

/-!
# Reading TOML

A document is read line by line. A line is blank, a header `[name]` that opens a table, or an entry `key = value`;
comments start with `#`. Anything else makes the whole text unreadable.

Keys are bare or quoted. Values are integers, strings in double or single quotes, booleans, dates and times, and arrays
within the line. Outside tables the last entry of a key counts; inside a table a key may not come twice, nor may a
header. A table whose first key is `dateTimeKey` stands for the date or time that is the text of this entry. Its name is
then free for a later header, unless the document opens with that name.
-/

namespace DiceNotation.Toml.Reader

/-! ## Characters -/

def skipSpace (cs : List Char) : List Char :=
  cs.dropWhile fun c => c = ' ' ∨ c = '\t'

def isKeyChar (c : Char) : Bool :=
  c.isAlphanum || c = '-' || c = '_'

def isCommentChar (c : Char) : Bool :=
  c = '\t' || ' ' ≤ c

def isStringChar (c : Char) : Bool :=
  isCommentChar c && c ≠ '\x7f'

/-- The value of a digit in base 16, by which it is a digit of a smaller base too. -/
def digitValue? (c : Char) : Option Nat :=
  if c.isDigit then some (c.toNat - '0'.toNat)
  else if 'a' ≤ c ∧ c ≤ 'f' then some (c.toNat - 'a'.toNat + 10)
  else if 'A' ≤ c ∧ c ≤ 'F' then some (c.toNat - 'A'.toNat + 10)
  else none

def digitOf? (base : Nat) (c : Char) : Option Nat :=
  (digitValue? c).filter (· < base)

/-- Whether only a comment follows on the line. -/
def endsLine (cs : List Char) : Bool :=
  match skipSpace cs with
  | [] => true
  | '#' :: comment => comment.all isCommentChar
  | _ => false

/-! ## Strings -/

/-- The rest of a string in single quotes, which has no escapes, and what follows it. -/
def literal? : List Char → Option (List Char × List Char)
  | [] => none
  | '\'' :: cs => some ([], cs)
  | c :: cs =>
    if isStringChar c then do
      let (s, rest) ← literal? cs
      return (c :: s, rest)
    else none

def escape? : Char → Option Char
  | 'b' => some '\x08'
  | 't' => some '\t'
  | 'n' => some '\n'
  | 'f' => some '\x0c'
  | 'r' => some '\r'
  | '"' => some '"'
  | '\\' => some '\\'
  | _ => none

/-- The character with this number, unless there is none. -/
def scalar? (n : Nat) : Option Char :=
  if h : n.isValidChar then some (Char.ofNatAux n h) else none

/-- The number written by hexadecimal digits. -/
def hexNumber? (cs : List Char) : Option Nat := do
  return (← cs.mapM (digitOf? 16)).foldl (fun n d => 16 * n + d) 0

/-- The rest of a string in double quotes and what follows it. -/
def basic? : List Char → Option (List Char × List Char)
  | [] => none
  | '"' :: cs => some ([], cs)
  | '\\' :: 'u' :: a :: b :: c :: d :: cs => do
    let x ← (← hexNumber? [a, b, c, d]) |> scalar?
    let (s, rest) ← basic? cs
    return (x :: s, rest)
  | '\\' :: 'U' :: a :: b :: c :: d :: e :: f :: g :: h :: cs => do
    let x ← (← hexNumber? [a, b, c, d, e, f, g, h]) |> scalar?
    let (s, rest) ← basic? cs
    return (x :: s, rest)
  | '\\' :: c :: cs => do
    let x ← escape? c
    let (s, rest) ← basic? cs
    return (x :: s, rest)
  | c :: cs =>
    if isStringChar c ∧ c ≠ '\\' then do
      let (s, rest) ← basic? cs
      return (c :: s, rest)
    else none

/-! ## Integers -/

/-- The digits of a number: underscores may stand between two digits and count for nothing. -/
def digits? (base : Nat) (afterDigit : Bool) : List Char → Option (List Nat)
  | [] => if afterDigit then some [] else none
  | c :: cs =>
    if c = '_' then if afterDigit then digits? base false cs else none
    else do
      let d ← digitOf? base c
      let ds ← digits? base true cs
      return d :: ds

def ofDigits (base : Nat) (ds : List Nat) : Nat :=
  ds.foldl (fun n d => base * n + d) 0

/-- A decimal number without leading zeros. -/
def decimal? (cs : List Char) : Option Nat :=
  match digits? 10 false cs with
  | some (0 :: _ :: _) => none
  | ds => ds.map (ofDigits 10)

def based? (base : Nat) (cs : List Char) : Option Nat :=
  (digits? base false cs).map (ofDigits base)

/-- An integer in base 10, 16, 8 or 2. Only a decimal one has a sign, and all fit 64 bits with a sign. -/
def integer? (word : List Char) : Option Int64 :=
  let n : Option Int :=
    match word with
    | '0' :: 'x' :: cs => (based? 16 cs).map Int.ofNat
    | '0' :: 'o' :: cs => (based? 8 cs).map Int.ofNat
    | '0' :: 'b' :: cs => (based? 2 cs).map Int.ofNat
    | '-' :: cs => (decimal? cs).map fun n => -(n : Int)
    | cs => (decimal? cs).map Int.ofNat
  match n with
  | some n => if -0x8000000000000000 ≤ n ∧ n < 0x8000000000000000 then some (Int64.ofInt n) else none
  | none => none

/-! ## Dates and times

A date or time is first taken as text, by the characters that one may have, and then read from that text. A text that
does not read is an error in an entry that counts and nowhere else.
-/

/-- Whether a number, a date or a time can begin with this word. -/
def startsNumber (word : List Char) : Bool :=
  word.head?.any (fun c => c.isDigit || c = '-') || word = "inf".toList || word = "nan".toList

/-- Whether a word has a `T`, or a hyphen after its first character that is not the sign of an exponent. -/
def hasDateMark (word : List Char) : Bool :=
  word.any (fun c => c = 'T' || c = 't') ||
    (word.tail.contains '-' && !(word.zip word.tail).any fun (c, d) => (c = 'e' || c = 'E') && d = '-')

/-- What follows a run of key characters, which may not be empty. -/
def afterRun? : List Char → Option (List Char)
  | [] => none
  | c :: cs => if isKeyChar c then some (cs.dropWhile isKeyChar) else none

/-- What follows `c` and a run after it; `c` may be missing with its run. -/
def afterPart? (c : Char) (cs : List Char) : Option (List Char) :=
  match after? c cs with
  | none => some cs
  | some cs => afterRun? cs

/-- What follows the minutes, the seconds, their fraction and the offset of a time. -/
def afterMinutes? (cs : List Char) : Option (List Char) := do
  let cs ← afterRun? (← after? ':' (← afterRun? cs))
  afterPart? ':' (← afterPart? '+' (← afterPart? '.' cs))

/-- What follows a space and the hours behind it, which a time after a date may begin with. -/
def afterHours : List Char → List Char
  | ' ' :: cs => (afterRun? cs).getD (' ' :: cs)
  | cs => cs

/-- Whether a date or time begins with a word, which `rest` follows. -/
def beginsDateTime (word rest : List Char) : Bool :=
  startsNumber word && (hasDateMark word || rest.head? = some ':')

/-- What follows a date or time, after its first word. -/
def afterDateTime? (rest : List Char) : Option (List Char) :=
  let cs := afterHours rest
  match after? ':' cs with
  | none => some cs
  | some cs => afterMinutes? cs

/-! ## Values -/

/-- A value that is a single word. -/
def word? (word : List Char) : Option Value :=
  if word = "true".toList then some (.bool true)
  else if word = "false".toList then some (.bool false)
  else (integer? word).map .integer

mutual

/-- A value and what follows it. The value is missing if a date or time in it does not read. Each step of the reading
takes from `fuel`. -/
def valueWithin? (fuel : Nat) (cs : List Char) : Option (Option Value × List Char) :=
  match fuel, cs with
  | 0, _ => none
  | _, '"' :: cs => do
    let (s, rest) ← basic? cs
    return (some (.text (String.ofList s)), rest)
  | _, '\'' :: cs => do
    let (s, rest) ← literal? cs
    return (some (.text (String.ofList s)), rest)
  | fuel + 1, '[' :: cs => do
    let (items, rest) ← itemsWithin? fuel (skipSpace cs)
    return (items.map .array, rest)
  | _, '+' :: cs => do
    let n ← integer? (cs.takeWhile isKeyChar)
    return (some (.integer n), cs.dropWhile isKeyChar)
  | _, cs => do
    let word := cs.takeWhile isKeyChar
    let rest := cs.dropWhile isKeyChar
    if beginsDateTime word rest then
      let rest ← afterDateTime? rest
      return ((DateTime.ofChars? (cs.take (cs.length - rest.length))).map .dateTime, rest)
    else return (some (← word? word), rest)

/-- The rest of an array; a comma may follow its last item. -/
def itemsWithin? (fuel : Nat) (cs : List Char) : Option (Option (List Value) × List Char) :=
  match fuel, cs with
  | 0, _ => none
  | _, ']' :: cs => some (some [], cs)
  | fuel + 1, cs => do
    let (v, rest) ← valueWithin? fuel cs
    match skipSpace rest with
    | ',' :: cs =>
      let (vs, rest) ← itemsWithin? fuel (skipSpace cs)
      return (do return (← v) :: (← vs), rest)
    | ']' :: cs => return (v.map ([·]), cs)
    | _ => none

end

/-- Each character takes at most two steps. -/
def value? (cs : List Char) : Option (Option Value × List Char) :=
  valueWithin? (2 * cs.length + 1) cs

/-! ## Lines -/

def key? : List Char → Option (String × List Char)
  | '"' :: cs => do
    let (s, rest) ← basic? cs
    return (String.ofList s, rest)
  | '\'' :: cs => do
    let (s, rest) ← literal? cs
    return (String.ofList s, rest)
  | cs =>
    match cs.takeWhile isKeyChar with
    | [] => none
    | word => some (String.ofList word, cs.dropWhile isKeyChar)

inductive Line where
  | blank
  | header (name : String)
  /-- The value is missing if a date or time in it does not read. -/
  | entry (key : String) (value : Option Value)

def line? (cs : List Char) : Option Line :=
  match skipSpace cs with
  | [] => some .blank
  | '#' :: comment => if comment.all isCommentChar then some .blank else none
  | '[' :: cs => do
    let (name, rest) ← key? (skipSpace cs)
    match skipSpace rest with
    | ']' :: rest => if endsLine rest then return .header name else none
    | _ => none
  | cs => do
    let (key, rest) ← key? cs
    match skipSpace rest with
    | '=' :: rest =>
      let (v, rest) ← value? (skipSpace rest)
      if endsLine rest then return .entry key v else none
    | _ => none

/-! ## Documents -/

/-- A table whose first entry has this key stands for the date or time that the entry holds as text, and its other
entries do not count. -/
def dateTimeKey : String :=
  "$__toml_private_datetime"

/-- The item that a table becomes by one more entry. -/
def addEntry? (t : Table Value) (key : String) (v : Value) : Option Item :=
  if t.entries.isEmpty ∧ key = dateTimeKey then
    match v with
    | .text s => (DateTime.ofChars? s.toList).map fun d => .value (.dateTime d)
    | _ => none
  else
    match t.get? key with
    | some _ => none
    | none => some (.table (t.insert key v))

/-- What the lines so far define. -/
structure State where
  document : Document := .empty
  /-- The name of the open table, which may have turned into a date or time. -/
  table : Option String := none
  /-- The name in the first header, if no entry stands before it. -/
  opening : Option String := none

/-- Opens an empty table, unless its name is taken by another table or the document opens with it. -/
def State.addHeader? (s : State) (name : String) : Option State :=
  match s.document.get? name with
  | some (.table _) => none
  | _ =>
    if s.opening = some name then none
    else
      some
        { document := s.document.insert name (.table .empty)
          table := some name
          opening := if s.document.entries.isEmpty then some name else s.opening }

def State.add? (s : State) : Line → Option State
  | .blank => some s
  | .header name => s.addHeader? name
  | .entry key v =>
    match s.table with
    | none => v.map fun v => { s with document := s.document.insert key (.value v) }
    | some name =>
      match s.document.get? name with
      | some (.table t) => do
        let item ← addEntry? t key (← v)
        return { s with document := s.document.insert name item }
      | _ => some s

/-- The document of a text, which may start with a byte order mark. -/
def document? (text : String) : Option Document := do
  let cs := match text.toList with
    | '\ufeff' :: cs => cs
    | cs => cs
  let lines ← (Text.lines '\n' '\r' cs).mapM line?
  let s ← lines.foldlM State.add? ({} : State)
  return s.document

end DiceNotation.Toml.Reader
