import Mathlib.Control.Monad.Basic
import DiceNotation.Expr.Read
import DiceNotation.Expr.Render
import DiceNotation.Proofs.Acceptance
import DiceNotation.Proofs.Spelling

/-!
# Printed expressions read back

A printed expression writes its tokens (`written_render`), so the lexer finds these and the parser reads them.
**A text that is read prints to a text that is read the same, within the same limits** (`read_render`).
-/

namespace DiceNotation

open Grammar

/-! ## Writing the tokens -/

namespace Token

open Text

theorem word_ofNat (n : Nat) : Word (Nat.toDigits 10 n) (.ofNat n) :=
  .number (isNumeral_toDigits n)

theorem word_ofDice (count sides : Nat) :
    Word (Nat.toDigits 10 count ++ 'd' :: Nat.toDigits 10 sides) (.ofDice count sides) :=
  .dice (isNumeral_toDigits count) (isNumeral_toDigits sides)

theorem written_int (n : Int) : Written (toString n).toList (ofInt n) := by
  cases n with
  | ofNat n =>
    show Written n.repr.toList [ofNat n]
    rw [Nat.toList_repr]
    exact .of_word (word_ofNat n)
  | negSucc n =>
    show Written ("-" ++ (n + 1).repr).toList [ofOperator .sub, ofNat (n + 1)]
    rw [String.toList_append, Nat.toList_repr]
    exact .symbol rfl (.of_word (word_ofNat (n + 1)))

theorem Written.grouped {text : String} {ts : List Token} (h : Written text.toList ts) (needed : Bool) :
    Written (Expr.grouped needed text).toList (Token.grouped needed ts) := by
  cases needed with
  | false => exact h
  | true =>
    have hclosing : Kind.ofSymbol? ')' = some .paren := rfl
    have : Written ('(' :: (text.toList ++ [')'])) (opening :: (ts ++ [closing])) :=
      .symbol rfl (h.append (stops_of_ofSymbol? hclosing []) (.symbol hclosing .nil))
    simpa [Expr.grouped, Token.grouped] using this

end Token

namespace Expr

open Token

/-- The printed expression writes its tokens. -/
theorem written_render (e : Expr) : Written e.render.toList e.tokens := by
  induction e with
  | const v => exact (written_int v.toInt).grouped _
  | dice count sides =>
    have := Written.of_word (word_ofDice count.toNat sides.toNat)
    simpa [render, tokens, Nat.toString_eq_repr, Nat.toList_repr] using this
  | binary op l r ihl ihr =>
    have hop := ofSymbol?_symbol op
    have hblank : Text.isBlank ' ' = true := by decide
    have hright : Written (' ' :: op.symbol :: ' ' :: (grouped (r.level ≤ op.level) r.render).toList)
        (.ofOperator op :: Token.grouped (r.level ≤ op.level) r.tokens) :=
      .blank hblank (.symbol hop (.blank hblank (ihr.grouped _)))
    have := (ihl.grouped (l.level < op.level)).append (stops_of_isBlank hblank _) hright
    simpa [render, tokens] using this

end Expr

/-! ## Reading what was printed -/

namespace Expr

theorem tokenize_render (e : Expr) : Token.tokenize e.render = .ok e.tokens :=
  Token.tokenize_eq_ok_iff.2 (written_render e)

theorem read_eq_ok_iff {limits : Parser.Limits} {text : String} {e : Expr} :
    read limits text = .ok e ↔ ∃ ts, Token.tokenize text = .ok ts ∧ Parser.parse limits ts = .ok e := by
  constructor
  · intro h
    cases hts : Token.tokenize text with
    | error _ =>
      rw [read, hts] at h
      cases h
    | ok ts =>
      rw [read, hts] at h
      have h : (Parser.parse limits ts).mapError ReadError.parse = .ok e := h
      cases hparse : Parser.parse limits ts with
      | error _ =>
        rw [hparse] at h
        cases h
      | ok e' =>
        rw [hparse] at h
        cases h
        exact ⟨ts, rfl, hparse⟩
  · rintro ⟨ts, hts, hparse⟩
    rw [read, hts]
    show (Parser.parse limits ts).mapError ReadError.parse = .ok e
    rw [hparse]
    rfl

/-- **A text that is read prints to a text that is read the same within the same limits**, and the parentheses of the
printed text nest no deeper than those of the text it came from. -/
theorem read_render {limits : Parser.Limits} {raw : String} {e : Expr} (h : read limits raw = .ok e) :
    read limits e.render = .ok e ∧
      ∃ ts us, Token.tokenize raw = .ok ts ∧ Token.tokenize e.render = .ok us ∧ nesting us ≤ nesting ts := by
  obtain ⟨ts, hts, hparse⟩ := read_eq_ok_iff.1 h
  obtain ⟨hspells, hdepth, hdice⟩ := Parser.spells_of_parse hparse
  have hregular := (Token.tokenize_eq_ok_iff.1 hts).isRegular
  have hnesting : nesting e.tokens ≤ nesting ts := by
    have := hspells.deepest_tokens_le hregular 0
    rwa [grouped_expr] at this
  have hread : Parser.parse limits e.tokens = .ok e :=
    Parser.parse_of_spells hspells.spells_tokens (Nat.le_trans hnesting hdepth) hdice
  exact ⟨read_eq_ok_iff.2 ⟨e.tokens, tokenize_render e, hread⟩, ts, e.tokens, hts, tokenize_render e, hnesting⟩

/-- `(1 + 2) * (1d6 - 3)`. -/
def productOfGroups : Expr :=
  .binary .mul (.binary .add (.const 1) (.const 2)) (.binary .sub (.dice 1 6) (.const 3))

theorem productOfGroups_read_render :
    read ⟨2, 1⟩ "((1 + 2)) * (d6 - 3)" = .ok productOfGroups ∧
      read ⟨2, 1⟩ productOfGroups.render = .ok productOfGroups ∧
        ∃ ts us, Token.tokenize "((1 + 2)) * (d6 - 3)" = .ok ts ∧ Token.tokenize productOfGroups.render = .ok us ∧
          nesting us ≤ nesting ts := by
  have h : read ⟨2, 1⟩ "((1 + 2)) * (d6 - 3)" = .ok productOfGroups := by decide +kernel
  exact ⟨h, read_render h⟩

end Expr

end DiceNotation
