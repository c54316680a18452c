import DiceNotation.Toml.DateTime
import DiceNotation.Toml.Table

/-!
# TOML documents

A document maps keys to values and to tables of values. `Reader` and `Writer` cover the documents that are written line
by line: no numbers with a fraction and no tables inside values, although a document can hold them.
-/

namespace DiceNotation.Toml

inductive Value where
  | integer (n : Int64)
  /-- `mantissa * 10 ^ exponent`. -/
  | decimal (mantissa exponent : Int)
  | text (s : String)
  | bool (b : Bool)
  | dateTime (d : DateTime)
  | array (items : List Value)
  | inline (entries : List (String × Value))

inductive Item where
  | value (v : Value)
  | table (t : Table Value)

abbrev Document := Table Item

end DiceNotation.Toml
