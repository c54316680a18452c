/-!
# Tokens

A token is a kind and its text. Opening and closing parentheses share a kind, and so do the operators of one level; the
text tells them apart. `Token.ofSymbol` gives the token of a character that stands for itself.
-/

namespace DiceNotation

inductive Token.Kind where
  | number
  | dice
  | additive
  | multiplicative
  | paren
  deriving DecidableEq

structure Token where
  kind : Token.Kind
  text : String
  deriving DecidableEq

namespace Token

/-- The kind of a character that is a token on its own. -/
def Kind.ofSymbol? : Char → Option Kind
  | '(' | ')' => some .paren
  | '*' | '/' => some .multiplicative
  | '+' | '-' => some .additive
  | _ => none

/-- An opening parenthesis is told by its kind and its text together. -/
def isOpening (t : Token) : Bool :=
  t.kind == .paren && t.text == "("

def isClosing (t : Token) : Bool :=
  t.kind == .paren && t.text == ")"

theorem not_isClosing_of_isOpening {t : Token} (h : t.isOpening = true) : t.isClosing = false := by
  simp only [isOpening, Bool.and_eq_true, beq_iff_eq] at h
  simp [isClosing, h.2]

theorem not_isOpening_of_isClosing {t : Token} (h : t.isClosing = true) : t.isOpening = false := by
  simp only [isClosing, Bool.and_eq_true, beq_iff_eq] at h
  simp [isOpening, h.2]

end Token

end DiceNotation
