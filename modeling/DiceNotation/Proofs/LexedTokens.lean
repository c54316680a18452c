import DiceNotation.Expr.Read
import DiceNotation.Proofs.Lexing
import DiceNotation.Proofs.OperandErrors
import DiceNotation.Proofs.Steps

/-!
# What the parser can rely on

The parser looks at the text of every token again, since a token list may be put together by hand. Of the tokens of a
text (`Token.IsLexed`) a number is a numeral, a dice term has two numerals, and an operator has the kind of its level
(`Token.Written.isLexed`). So some errors never come up, whatever else is wrong with the text and however the parser
reads on after it: **no text brings about an error that is marked as internal, or a malformed dice term**
(`collect_of_tokenize`), and a token that is out of place is an operator or a closing parenthesis.
-/

namespace DiceNotation

open Text

/-! ## The tokens of a text -/

/-- A token whose kind and text agree. -/
inductive Token.IsLexed : Token → Prop
  | operand {t : Token} : t.IsOperand → IsLexed t
  | opening {t : Token} : t.isOpening = true → IsLexed t
  | closing {t : Token} : t.isClosing = true → IsLexed t
  | operator {t : Token} (op : Operator) : t.IsOperator op.kind op → IsLexed t

namespace Token

theorem Word.isOperand {w : List Char} {t : Token} (h : Word w t) : t.IsOperand := by
  cases h with
  | number hn => exact .number rfl (by simpa using hn)
  | dice hn hm => exact .dice rfl String.toList_ofList hn hm
  | @die m hm =>
    have htext : ('1' :: 'd' :: m : List Char) = ['1'] ++ 'd' :: m := rfl
    exact .dice rfl (String.toList_ofList.trans htext) (by decide) hm

theorem isLexed_symbol {c : Char} {kind : Kind} (h : Kind.ofSymbol? c = some kind) :
    IsLexed ⟨kind, c.toString⟩ := by
  unfold Kind.ofSymbol? at h
  split at h <;> cases h
  · exact .opening rfl
  · exact .closing rfl
  · exact .operator .mul ⟨rfl, rfl⟩
  · exact .operator .div ⟨rfl, rfl⟩
  · exact .operator .add ⟨rfl, rfl⟩
  · exact .operator .sub ⟨rfl, rfl⟩

theorem Written.isLexed {cs : List Char} {ts : List Token} (h : Written cs ts) : ∀ t ∈ ts, t.IsLexed := by
  induction h with
  | nil => simp
  | blank _ _ ih => exact ih
  | symbol hk _ ih => exact List.forall_mem_cons.2 ⟨isLexed_symbol hk, ih⟩
  | word hw _ _ ih => exact List.forall_mem_cons.2 ⟨.operand hw.isOperand, ih⟩

theorem IsLexed.isOperand {t : Token} (h : t.IsLexed) (hk : t.kind = .number ∨ t.kind = .dice) : t.IsOperand := by
  cases h with
  | operand h => exact h
  | opening h =>
    rw [Parser.State.kind_of_isOpening h] at hk
    simp at hk
  | closing h =>
    rw [Parser.State.kind_of_isClosing h] at hk
    simp at hk
  | operator op h =>
    rw [h.1] at hk
    cases op <;> simp [Operator.kind] at hk

theorem IsLexed.isOperator {t : Token} (h : t.IsLexed) (hk : t.kind = .additive ∨ t.kind = .multiplicative) :
    ∃ op : Operator, t.text = op.symbol.toString := by
  cases h with
  | operand h => cases h <;> simp [*] at hk
  | opening h =>
    rw [Parser.State.kind_of_isOpening h] at hk
    simp at hk
  | closing h =>
    rw [Parser.State.kind_of_isClosing h] at hk
    simp at hk
  | operator op h => exact ⟨op, h.2⟩

/-- The texts of the tokens that can not begin an operand. -/
theorem IsLexed.text_mem {t : Token} (h : t.IsLexed) (hnumber : t.kind ≠ .number) (hdice : t.kind ≠ .dice)
    (hopening : t.isOpening = false) : t.text ∈ [")", "+", "-", "*", "/"] := by
  cases h with
  | operand h =>
    cases h with
    | number hk _ => exact absurd hk hnumber
    | dice hk _ _ _ => exact absurd hk hdice
  | opening h =>
    rw [h] at hopening
    cases hopening
  | closing h =>
    simp only [isClosing, Bool.and_eq_true, beq_iff_eq] at h
    simp [h.2]
  | operator op h =>
    rw [h.2]
    cases op <;> decide

end Token

/-! ## Their errors -/

/-- An error that a text can bring about. -/
def ParseError.IsOfText : ParseError → Prop
  | malformedDice _ | numberNotNumeral _ | diceCountNotNumeral _ | notAnOperator _ => False
  | unexpectedToken text => text ∈ [")", "+", "-", "*", "/"]
  | _ => True

namespace Parser

variable {limits : Limits} {s s' : State} {t : Token} {ts : List Token} {errors : List ParseError} {read : Option Expr}

theorem isOfText_of_constant {error : ParseError} (ht : t.IsOperand) (hk : t.kind = .number)
    (h : constant t.text = .error error) : error.IsOfText := by
  cases ht with
  | number _ hn =>
    rw [constant_of_isNumeral hn] at h
    split at h <;> cases h
    trivial
  | dice hdice _ _ _ =>
    rw [hdice] at hk
    cases hk

theorem isOfText_of_diceTerm {error : ParseError} (ht : t.IsOperand) (hk : t.kind = .dice)
    (h : diceTerm t.text = .error error) : error.IsOfText := by
  cases ht with
  | number hnumber _ =>
    rw [hnumber] at hk
    cases hk
  | dice _ htext hn hm =>
    rw [diceTerm_of_isNumeral htext hn hm] at h
    repeat' split at h
    all_goals cases h
    all_goals trivial

theorem Yields.isOfText {dice dice' : Nat} {x : Option Expr} (h : Yields limits t dice errors x dice')
    (ht : t.IsLexed) : ∀ error ∈ errors, error.IsOfText := by
  cases h with
  | const _ _ | dice _ _ _ => simp
  | constFault hk h => simpa using isOfText_of_constant (ht.isOperand (.inl hk)) hk h
  | diceFault hk h => simpa using isOfText_of_diceTerm (ht.isOperand (.inr hk)) hk h
  | tooMany _ _ _ => simp [ParseError.IsOfText]

theorem operator_isOfText {op : Option Operator} (ht : t.IsLexed) (hk : t.kind = .additive ∨ t.kind = .multiplicative)
    (h : State.operator t.text = (errors, op)) : ∀ error ∈ errors, error.IsOfText := by
  obtain ⟨o, ho⟩ := ht.isOperator hk
  obtain ⟨-, -, rfl, -⟩ | ⟨hnone, -, -⟩ := operator_eq h
  · simp
  · rw [ho, Operator.ofSymbol?_symbol] at hnone
    cases hnone

theorem Continues.isOfText {blamed : Bool} (h : Continues s read blamed t errors s') (ht : t.IsLexed) :
    ∀ error ∈ errors, error.IsOfText := by
  cases h with
  | additive hk ho => exact operator_isOfText ht (.inl hk) ho
  | multiplicative hk ho => exact operator_isOfText ht (.inr hk) ho
  | closing _ _ => simp
  | last _ _ _ =>
    refine List.forall_mem_append.2 ⟨fun error h => ?_, ?_⟩
    · rw [eq_of_mem_unmatched h]
      trivial
    · cases blamed <;> simp [ParseError.IsOfText]

theorem Steps.isOfText (h : Steps limits s t errors s') (ht : t.IsLexed) : ∀ error ∈ errors, error.IsOfText := by
  cases h with
  | operand _ h => exact h.isOfText ht
  | tooDeep _ _ _ => simp [ParseError.IsOfText]
  | misplaced _ hnumber hdice hopening h =>
    exact List.forall_mem_cons.2 ⟨ht.text_mem hnumber hdice hopening, h.isOfText ht⟩
  | operator _ h => exact h.isOfText ht
  | opening _ _ _ | innerOpening _ _ | innerClosing _ _ | skipped _ _ | passed _ _ _ | ignored _ => simp

theorem collect_isOfText (hts : ∀ t ∈ ts, t.IsLexed) : ∀ error ∈ (collect limits ts).1, error.IsOfText := by
  cases ts with
  | nil => simp [collect, ParseError.IsOfText]
  | cons t ts =>
    rw [collect_of_run (by simp) rfl]
    refine List.forall_mem_append.2 ⟨fun error h => ?_, fun error h => ?_⟩
    · obtain ⟨u, hu, s, errors, s', hstep, hmem⟩ := exists_step_of_mem_run h
      exact hstep.isOfText (hts u hu) error hmem
    · rcases eq_of_mem_finish h with rfl | rfl
      · trivial
      · trivial

/-- **The lexer keeps its contract.** No token of a text has a text that its kind does not allow, so none of the errors
for such tokens comes up, and each token that is out of place is one of `)`, `+`, `-`, `*` and `/`. -/
theorem collect_of_tokenize {raw : String} {ts : List Token} (h : Token.tokenize raw = .ok ts) (limits : Limits) :
    ∀ error ∈ (collect limits ts).1, error.IsOfText :=
  collect_isOfText (Token.tokenize_eq_ok_iff.1 h).isLexed

theorem misspelledGroup_errors :
    ∃ ts, Token.tokenize "3d0 + * (99999999999999999999 d6) )" = .ok ts ∧
      (collect ⟨1, 10⟩ ts).1 =
        [.noSides "3d0", .unexpectedToken "*", .numberOutOfRange "99999999999999999999", .unmatchedParenthesis,
          .trailingToken "1d6"] ∧
      ∀ error ∈ (collect ⟨1, 10⟩ ts).1, error.IsOfText := by
  have h : ∃ ts, Token.tokenize "3d0 + * (99999999999999999999 d6) )" = .ok ts ∧
      (collect ⟨1, 10⟩ ts).1 =
        [.noSides "3d0", .unexpectedToken "*", .numberOutOfRange "99999999999999999999", .unmatchedParenthesis,
          .trailingToken "1d6"] := ⟨_, rfl, by decide +kernel⟩
  obtain ⟨ts, hts, herrors⟩ := h
  exact ⟨ts, hts, herrors, collect_of_tokenize hts ⟨1, 10⟩⟩

end Parser

end DiceNotation
