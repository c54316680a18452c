import DiceNotation.Config.Settings
import DiceNotation.Toml.Reader
import DiceNotation.Toml.Writer

/-!
# The settings file

`load` reads the settings of a path and writes the completed document back to it. Whatever cannot be read counts as an
empty document. A completed document that has no written form is not written, and a directory stays what it is.

How documents are read and written is left to a `Toml.Format`. Where none is given, it is the one of `Toml.Reader` and
`Toml.Writer`.
-/

namespace DiceNotation

/-- A reader and a writer of documents. Neither has to take everything. -/
structure Toml.Format where
  read? : String → Option Document
  write? : Document → Option String

/-- Documents line by line. -/
def Toml.Format.lines : Format where
  read? := Reader.document?
  write? := Writer.document?

theorem Toml.Format.read?_lines (text : String) : lines.read? text = Reader.document? text := rfl

theorem Toml.Format.write?_lines (d : Document) : lines.write? d = Writer.document? d := rfl

namespace Settings

open Toml (Document Format)

/-- What is found at a path. -/
inductive Entry where
  | missing
  | directory
  | file (content : List UInt8)
  deriving DecidableEq

/-- The document that a file of these bytes holds. -/
def document? (content : List UInt8) (format : Format := .lines) : Option Document :=
  (String.fromUTF8? ⟨content.toArray⟩).bind format.read?

def Entry.document (path : Entry) (format : Format := .lines) : Document :=
  match path with
  | file content => (document? content format).getD .empty
  | missing | directory => .empty

def Entry.write : Entry → List UInt8 → Entry
  | directory, _ => directory
  | _, content => file content

def load (path : Entry) (format : Format := .lines) : Settings × Entry :=
  let (settings, document) := complete (path.document format)
  match format.write? document with
  | some text => (settings, path.write text.toUTF8.data.toList)
  | none => (settings, path)

end Settings

end DiceNotation
