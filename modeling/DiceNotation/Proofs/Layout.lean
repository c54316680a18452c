import Mathlib.Data.List.Chain
import DiceNotation.Proofs.LexedTokens

/-!
# Layouts

A `Layout` writes tokens one after another, with blanks before, between and behind them. Only between two words there
has to be one. **A text that lays out tokens of texts has these tokens** (`tokenize_layout`), so a token's text stands
for the token wherever it is written, and the blanks between two tokens never matter to what is read.
-/

namespace DiceNotation.Token

open Text

/-! ## Tokens by themselves -/

/-- Numbers and dice terms are words, all other tokens symbols. -/
def isWord (t : Token) : Bool :=
  t.kind == .number || t.kind == .dice

theorem IsOperand.isWord {t : Token} (h : t.IsOperand) : t.isWord = true := by
  cases h with
  | number hk _ | dice hk _ _ _ => simp [Token.isWord, hk]

/-- The text of an operand is a word for the operand itself. -/
theorem IsOperand.word {t : Token} (h : t.IsOperand) : Word t.text.toList t := by
  obtain ⟨kind, text⟩ := t
  cases h with
  | number hk hn =>
    obtain rfl : kind = .number := hk
    simpa using Word.number hn
  | dice hk htext hn hm =>
    obtain rfl : kind = .dice := hk
    have hword := Word.dice hn hm
    rw [← htext] at hword
    simpa using hword

/-- A token that is no word is a symbol. -/
theorem IsLexed.symbol {t : Token} (h : t.IsLexed) (hw : t.isWord = false) :
    ∃ c, Kind.ofSymbol? c = some t.kind ∧ t.text = c.toString := by
  cases h with
  | operand h =>
    rw [h.isWord] at hw
    cases hw
  | opening h =>
    simp only [isOpening, Bool.and_eq_true, beq_iff_eq] at h
    exact ⟨'(', by rw [h.1]; rfl, h.2⟩
  | closing h =>
    simp only [isClosing, Bool.and_eq_true, beq_iff_eq] at h
    exact ⟨')', by rw [h.1]; rfl, h.2⟩
  | operator op h => exact ⟨op.symbol, by rw [h.1]; exact ofSymbol?_symbol op, h.2⟩

theorem IsLexed.word {t : Token} (h : t.IsLexed) (hw : t.isWord = true) : Word t.text.toList t := by
  have hk : t.kind = .number ∨ t.kind = .dice := by simpa [isWord] using hw
  exact (h.isOperand hk).word

/-! ## Layouts -/

/-- A token with the blanks before it. -/
structure Placed where
  gap : String
  token : Token

/-- Something stands between two words. -/
def Placed.Apart (x y : Placed) : Prop :=
  x.token.isWord = true → y.token.isWord = true → y.gap ≠ ""

structure Layout where
  placed : List Placed
  /-- The blanks behind the last token. -/
  rest : String
  gap_blank : ∀ x ∈ placed, ∀ c ∈ x.gap.toList, isBlank c = true
  rest_blank : ∀ c ∈ rest.toList, isBlank c = true
  apart : placed.IsChain Placed.Apart

def Layout.tokens (l : Layout) : List Token :=
  l.placed.map (·.token)

def Layout.text (l : Layout) : String :=
  String.join (l.placed.map fun x => x.gap ++ x.token.text) ++ l.rest

/-! ## Their texts -/

theorem Written.blanks {bs cs : List Char} {ts : List Token} (hb : ∀ c ∈ bs, isBlank c = true) (h : Written cs ts) :
    Written (bs ++ cs) ts := by
  induction bs with
  | nil => exact h
  | cons b bs ih =>
    obtain ⟨hb, hbs⟩ := List.forall_mem_cons.1 hb
    exact .blank hb (ih hbs)

theorem stops_of_blanks {bs cs : List Char} (hb : ∀ c ∈ bs, isBlank c = true) (h : bs = [] → Stops cs) :
    Stops (bs ++ cs) := by
  cases bs with
  | nil => exact h rfl
  | cons b bs => exact stops_of_isBlank (hb b List.mem_cons_self) _

namespace Layout

/-- The characters of a layout. -/
def chars (placed : List Placed) (rest : String) : List Char :=
  placed.flatMap (fun x => x.gap.toList ++ x.token.text.toList) ++ rest.toList

theorem toList_text (l : Layout) : l.text.toList = chars l.placed l.rest := by
  simp [text, chars, List.flatMap_map]

variable {x : Placed} {placed : List Placed} {rest : String}

/-- A word does not go on into what is laid out behind it. -/
theorem stops_chars (hw : x.token.isWord = true) (hrest : ∀ c ∈ rest.toList, isBlank c = true)
    (hgap : ∀ y ∈ placed, ∀ c ∈ y.gap.toList, isBlank c = true) (hlexed : ∀ y ∈ placed, y.token.IsLexed)
    (hapart : (x :: placed).IsChain Placed.Apart) : Stops (chars placed rest) := by
  cases placed with
  | nil =>
    have hstops : Stops (rest.toList ++ []) := stops_of_blanks hrest fun _ => trivial
    simpa [chars] using hstops
  | cons y placed =>
    have hsplit : chars (y :: placed) rest = y.gap.toList ++ (y.token.text.toList ++ chars placed rest) := by
      simp [chars]
    rw [hsplit]
    refine stops_of_blanks (hgap y List.mem_cons_self) fun hempty => ?_
    have hsymbol : y.token.isWord = false := by
      cases hy : y.token.isWord with
      | false => rfl
      | true => exact absurd (String.toList_eq_nil_iff.1 hempty) ((List.isChain_cons_cons.1 hapart).1 hw hy)
    obtain ⟨c, hc, htext⟩ := (hlexed y List.mem_cons_self).symbol hsymbol
    rw [htext, Char.toString_eq_singleton, String.toList_singleton]
    exact stops_of_ofSymbol? hc _

theorem written_chars (hrest : ∀ c ∈ rest.toList, isBlank c = true)
    (hgap : ∀ x ∈ placed, ∀ c ∈ x.gap.toList, isBlank c = true) (hlexed : ∀ x ∈ placed, x.token.IsLexed)
    (hapart : placed.IsChain Placed.Apart) : Written (chars placed rest) (placed.map (·.token)) := by
  induction placed with
  | nil =>
    have hrest : Written (rest.toList ++ []) [] := .blanks hrest .nil
    simpa [chars] using hrest
  | cons x placed ih =>
    obtain ⟨hx, hgap⟩ := List.forall_mem_cons.1 hgap
    obtain ⟨ht, hlexed⟩ := List.forall_mem_cons.1 hlexed
    have ih := ih hgap hlexed hapart.tail
    have hsplit : chars (x :: placed) rest = x.gap.toList ++ (x.token.text.toList ++ chars placed rest) := by
      simp [chars]
    rw [hsplit]
    refine .blanks hx ?_
    cases hw : x.token.isWord with
    | true => exact .word (ht.word hw) (stops_chars hw hrest hgap hlexed hapart) ih
    | false =>
      obtain ⟨c, hc, htext⟩ := ht.symbol hw
      have htoken : x.token = ⟨x.token.kind, c.toString⟩ := by rw [← htext]
      rw [htext, Char.toString_eq_singleton, String.toList_singleton, List.map_cons, htoken]
      exact .symbol hc ih

end Layout

/-- **Layout does not matter.** A text that lays out tokens has these tokens if they are tokens of any text at all: they
are where kind and text agree. So every text with these tokens is read like it, whatever the limits. -/
theorem tokenize_layout (l : Layout) :
    (tokenize l.text = .ok l.tokens ↔ ∀ t ∈ l.tokens, t.IsLexed) ∧
    ∀ raw, tokenize raw = .ok l.tokens →
      tokenize l.text = .ok l.tokens ∧ ∀ limits, Expr.read limits l.text = Expr.read limits raw := by
  have hlayout : (∀ t ∈ l.tokens, t.IsLexed) → tokenize l.text = .ok l.tokens := by
    intro hlexed
    have hlexed : ∀ x ∈ l.placed, x.token.IsLexed := fun x hx => hlexed x.token (List.mem_map_of_mem hx)
    rw [tokenize_eq_ok_iff, l.toList_text]
    exact Layout.written_chars l.rest_blank l.gap_blank hlexed l.apart
  refine ⟨⟨fun h => (tokenize_eq_ok_iff.1 h).isLexed, hlayout⟩, fun raw hraw => ?_⟩
  have htext := hlayout (tokenize_eq_ok_iff.1 hraw).isLexed
  refine ⟨htext, fun limits => ?_⟩
  rw [Expr.read, Expr.read, htext, hraw]

/-- Two words with an ideographic space between them, and a word that touches a parenthesis. -/
def looseTerm : Layout where
  placed := [⟨"\u00a0", ⟨.number, "007"⟩⟩, ⟨"\u3000", ⟨.dice, "1d6"⟩⟩, ⟨"", ⟨.paren, ")"⟩⟩, ⟨"", ⟨.dice, "2d08"⟩⟩]
  rest := "\u0085\n"
  gap_blank := by
    have hblank : isBlank '\u00a0' = true ∧ isBlank '\u3000' = true := by decide
    simp [hblank]
  rest_blank := List.all_eq_true.1 (by decide)
  apart := by simp [Placed.Apart, isWord]

theorem looseTerm_read :
    tokenize "007 d6)2d08" = .ok looseTerm.tokens ∧
      tokenize "\u00a0007\u30001d6)2d08\u0085\n" = .ok looseTerm.tokens ∧
      Expr.read ⟨3, 10⟩ "\u00a0007\u30001d6)2d08\u0085\n" = Expr.read ⟨3, 10⟩ "007 d6)2d08" := by
  have htext : looseTerm.text = "\u00a0007\u30001d6)2d08\u0085\n" := by decide +kernel
  have hraw : tokenize "007 d6)2d08" = .ok looseTerm.tokens := by decide +kernel
  obtain ⟨htokens, hread⟩ := (tokenize_layout looseTerm).2 "007 d6)2d08" hraw
  rw [htext] at htokens hread
  exact ⟨hraw, htokens, hread ⟨3, 10⟩⟩

end DiceNotation.Token
