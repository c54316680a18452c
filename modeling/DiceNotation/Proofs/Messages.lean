import DiceNotation.Proofs.Blame
import DiceNotation.Proofs.LexedTokens
import DiceNotation.Proofs.Words
import DiceNotation.Proofs.ZeroDivisions
import DiceNotation.Service.State

/-!
# Messages and traces in one line

A text is cut at its blanks, whatever kind of blank they are, so no word of it has one, and no token. What is printed of
a roll besides words and numbers has no blanks but spaces (`IsInline`). So **all messages about a text and all traces
stay in one line** (`Expr.isInline_message_of_read`, `Outcome.isInline_trace`). The only text without a token is a blank
one: no other is answered by the message that there is no expression (`Expr.not_begins_message_of_read`).
-/

namespace DiceNotation

/-! ## Texts in one line -/

namespace Text

/-- The text has no blanks but spaces. -/
def IsInline (text : String) : Prop :=
  ∀ c ∈ text.toList, isBlank c = true → c = ' '

instance : DecidablePred IsInline :=
  fun text => List.decidableBAll (fun c => isBlank c = true → c = ' ') text.toList

theorem isInline_append {text text' : String} : IsInline (text ++ text') ↔ IsInline text ∧ IsInline text' := by
  simp [IsInline, or_imp, forall_and]

theorem isInline_intercalate {sep : String} {texts : List String} (hsep : IsInline sep)
    (h : ∀ text ∈ texts, IsInline text) : IsInline (sep.intercalate texts) := by
  intro c hc
  rw [String.toList_intercalate] at hc
  rcases Trace.mem_of_mem_intercalate hc with hc | ⟨cs, hcs, hc⟩
  · exact hsep c hc
  · obtain ⟨text, htext, rfl⟩ := List.mem_map.1 hcs
    exact h text htext c hc

theorem isInline_of_isWordChar {text : String} (h : ∀ c ∈ text.toList, Token.IsWordChar c) : IsInline text := by
  intro c hc hblank
  rw [(h c hc).1] at hblank
  cases hblank

theorem isInline_int (n : Int) : IsInline (toString n) := by
  intro c hc hblank
  rcases Trace.isDigit_or_minus_of_mem_int hc with hdigit | rfl
  · rw [(Token.isWordChar_of_isDigit hdigit).1] at hblank
    cases hblank
  · cases hblank

theorem isInline_nat (n : Nat) : IsInline (toString n) :=
  isInline_int n

end Text

open Text

/-! ## Words and tokens -/

namespace Token

theorem isInline_symbol {c : Char} {kind : Kind} (h : Kind.ofSymbol? c = some kind) : IsInline c.toString := by
  intro d hd hblank
  obtain rfl : d = c := by simpa [Char.toString_eq_singleton] using hd
  rw [isBlank_of_ofSymbol? h] at hblank
  cases hblank

theorem Written.isInline_text {cs : List Char} {ts : List Token} (h : Written cs ts) :
    ∀ text ∈ ts.map Token.text, IsInline text := by
  induction h with
  | nil => simp
  | blank _ _ ih => exact ih
  | symbol hk _ ih => exact List.forall_mem_cons.2 ⟨isInline_symbol hk, ih⟩
  | word hw _ _ ih => exact List.forall_mem_cons.2 ⟨isInline_of_isWordChar hw.isWordChar_text, ih⟩

/-- Only blanks write no token. -/
theorem Written.isBlank_of_nil {cs : List Char} (h : Written cs []) : ∀ c ∈ cs, isBlank c = true := by
  generalize hts : ([] : List Token) = ts at h
  induction h with
  | nil => simp
  | blank hb _ ih => exact List.forall_mem_cons.2 ⟨hb, ih hts⟩
  | symbol _ _ _ | word _ _ _ _ => cases hts

theorem exists_of_mapM_eq_error {α β ε : Type} {f : α → Except ε β} {as : List α} {e : ε}
    (h : as.mapM f = .error e) : ∃ a ∈ as, f a = .error e := by
  induction as with
  | nil => cases h
  | cons a as ih =>
    rw [List.mapM_cons] at h
    cases ha : f a with
    | error e' =>
      rw [ha] at h
      cases h
      exact ⟨a, List.mem_cons_self, ha⟩
    | ok b =>
      have has : as.mapM f = .error e := by
        rw [ha] at h
        cases hbs : as.mapM f with
        | error e' =>
          rw [hbs] at h
          exact h
        | ok bs =>
          rw [hbs] at h
          cases h
      obtain ⟨a', hmem, ha'⟩ := ih has
      exact ⟨a', List.mem_cons_of_mem a hmem, ha'⟩

/-- What is refused is a word of the text. -/
theorem exists_word_of_tokenize {text : String} {error : LexError} (h : tokenize text = .error error) :
    ∃ i w, WordAt text.toList i w ∧ error = .unrecognized (String.ofList w) := by
  obtain ⟨p, hp, herror⟩ := exists_of_mapM_eq_error h
  obtain ⟨spots, hspots, hpieces⟩ := lists_pieces text.toList
  rw [← hpieces] at hp
  obtain ⟨⟨i, p⟩, hmem, rfl⟩ := List.mem_map.1 hp
  cases ((hspots.mem_iff i p).1 hmem).2 with
  | @word w hw =>
    have hno : ¬ HasToken w := by
      rintro ⟨t, ht⟩
      have hclassify : classify w = .error error := herror
      rw [classify_eq_ok_iff.2 ht] at hclassify
      cases hclassify
    exact ⟨i, w, hw, Except.error.inj (herror.symm.trans (classify_eq_error hno))⟩
  | symbol _ _ => cases herror

end Token

/-! ## What a text can bring about -/

namespace Parser

variable {limits : Limits} {s s' : State} {t : Token} {ts : List Token} {errors : List ParseError} {read : Option Expr}

theorem errors_of_parse (h : parse limits ts = .error errors) : (collect limits ts).1 = errors := by
  unfold parse at h
  split at h <;> simp_all

theorem Yields.empty_notMem {dice dice' : Nat} {x : Option Expr} (h : Yields limits t dice errors x dice') :
    .empty ∉ errors := by
  obtain ⟨e, rfl, -⟩ | ⟨error, hmem, rfl, -⟩ := h.errors_eq
  · exact List.not_mem_nil
  · intro hempty
    obtain rfl := List.mem_singleton.1 hempty
    simp [faults] at hmem

theorem operator_empty_notMem {text : String} {op : Option Operator} (h : State.operator text = (errors, op)) :
    .empty ∉ errors := by
  obtain ⟨-, -, rfl, -⟩ | ⟨-, rfl, -⟩ := operator_eq h
  · exact List.not_mem_nil
  · simp

theorem Continues.empty_notMem {blamed : Bool} (h : Continues s read blamed t errors s') : .empty ∉ errors := by
  cases h with
  | additive _ ho | multiplicative _ ho => exact operator_empty_notMem ho
  | closing _ _ => exact List.not_mem_nil
  | last _ _ _ =>
    intro hempty
    rcases List.mem_append.1 hempty with h | h
    · cases eq_of_mem_unmatched h
    · cases blamed <;> simp at h

theorem Steps.empty_notMem (h : Steps limits s t errors s') : .empty ∉ errors := by
  cases h with
  | operand _ h => exact h.empty_notMem
  | misplaced _ _ _ _ h => simpa using h.empty_notMem
  | operator _ h => exact h.empty_notMem
  | tooDeep _ _ _ => simp
  | opening _ _ _ | innerOpening _ _ | innerClosing _ _ | skipped _ _ | passed _ _ _ | ignored _ =>
    exact List.not_mem_nil

/-- Where there is a token, there is something to blame. -/
theorem empty_notMem_collect (hts : ts ≠ []) : .empty ∉ (collect limits ts).1 := by
  rw [collect_of_run hts rfl]
  intro hempty
  rcases List.mem_append.1 hempty with h | h
  · obtain ⟨_, _, _, _, _, hstep, hmem⟩ := exists_step_of_mem_run h
    exact hstep.empty_notMem hmem
  · rcases eq_of_mem_finish h with h | h <;> cases h

end Parser

namespace Expr

variable {limits : Parser.Limits} {text : String}

theorem error_of_read {error : ReadError} (h : read limits text = .error error) :
    (∃ refused, Token.tokenize text = .error refused ∧ error = .lex refused) ∨
      ∃ ts, Token.tokenize text = .ok ts ∧ error = .parse (Parser.collect limits ts).1 := by
  cases hts : Token.tokenize text with
  | error refused =>
    rw [read, hts] at h
    cases h
    exact .inl ⟨refused, rfl, rfl⟩
  | ok ts =>
    rw [read, hts] at h
    have h : (Parser.parse limits ts).mapError .parse = .error error := h
    cases hparse : Parser.parse limits ts with
    | ok e =>
      rw [hparse] at h
      cases h
    | error errors =>
      rw [hparse] at h
      cases h
      exact .inr ⟨ts, rfl, by rw [Parser.errors_of_parse hparse]⟩

/-- Only a blank text has no expression at all. -/
theorem empty_notMem_of_read {errors : List ParseError} (hblank : ∃ c ∈ text.toList, isBlank c = false)
    (h : read limits text = .error (.parse errors)) : .empty ∉ errors := by
  obtain ⟨_, _, hlex⟩ | ⟨ts, hts, hparse⟩ := error_of_read h
  · cases hlex
  · have hne : ts ≠ [] := by
      rintro rfl
      obtain ⟨c, hc, hnot⟩ := hblank
      rw [(Token.tokenize_eq_ok_iff.1 hts).isBlank_of_nil c hc] at hnot
      cases hnot
    cases hparse
    exact Parser.empty_notMem_collect hne

end Expr

/-! ## Messages -/

/-- The text begins with this character. -/
def Text.Begins (c : Char) (text : String) : Prop :=
  ∃ cs, text.toList = c :: cs

theorem Text.Begins.append {c : Char} {text : String} (h : Begins c text) (rest : String) :
    Begins c (text ++ rest) := by
  obtain ⟨cs, hcs⟩ := h
  exact ⟨cs ++ rest.toList, by rw [String.toList_append, hcs]; rfl⟩

theorem Text.Begins.intercalate {c : Char} {text : String} (h : Begins c text) (sep : String) (rest : List String) :
    Begins c (sep.intercalate (text :: rest)) := by
  obtain ⟨cs, hcs⟩ := h
  rw [Begins, String.toList_intercalate, List.map_cons, hcs]
  cases rest with
  | nil => exact ⟨cs, List.intercalate_singleton⟩
  | cons next rest =>
    rw [List.intercalate_cons_of_ne_nil (by simp)]
    exact ⟨_, rfl⟩

theorem Text.Begins.eq {c d : Char} {text : String} (h : Begins c text) (h' : Begins d text) : c = d := by
  obtain ⟨cs, hcs⟩ := h
  obtain ⟨ds, hds⟩ := h'
  exact (List.cons.inj (hcs.symm.trans hds)).1

namespace ParseError

theorem isInline_quoted {text : String} (h : IsInline text) : IsInline (quoted text) :=
  isInline_append.2 ⟨isInline_append.2 ⟨by decide, h⟩, by decide⟩

/-- An error of a text is told in one line, if the token that it names stands in one line. -/
theorem isInline_message {error : ParseError} (hkind : error.IsOfText)
    (htext : ∀ text ∈ error.tokenText?, IsInline text) : IsInline error.message := by
  cases error with
  | malformedDice _ | numberNotNumeral _ | diceCountNotNumeral _ | notAnOperator _ => cases hkind
  | noSides text | diceOutOfRange text | numberOutOfRange text =>
    exact isInline_append.2 ⟨isInline_quoted (htext text rfl), by decide⟩
  | tooManyDice text maxDice =>
    have hcount : IsInline (quoted text ++ " rolls more than " ++ toString maxDice) :=
      isInline_append.2 ⟨isInline_append.2 ⟨isInline_quoted (htext text rfl), by decide⟩, isInline_nat maxDice⟩
    exact isInline_append.2 ⟨hcount, by decide⟩
  | unexpectedToken text | trailingToken text =>
    exact isInline_append.2 ⟨isInline_append.2 ⟨by decide, isInline_quoted (htext text rfl)⟩, by decide⟩
  | nestingTooDeep maxDepth =>
    exact isInline_append.2 ⟨isInline_append.2 ⟨by decide, isInline_nat maxDepth⟩, by decide⟩
  | unmatchedParenthesis | unexpectedEnd | empty => decide

/-- No other message begins like the one about no expression. -/
theorem exists_begins_message {error : ParseError} (h : error ≠ .empty) : ∃ c, c ≠ 'e' ∧ Begins c error.message := by
  have hquoted : ∀ text rest, Begins '"' (quoted text ++ rest) := fun text rest =>
    ((Begins.append ⟨[], rfl⟩ text).append _).append rest
  have hunexpected : ∀ text rest, Begins 'u' ("unexpected " ++ quoted text ++ rest) := fun text rest =>
    (Begins.append ⟨_, rfl⟩ _).append rest
  cases error with
  | empty => exact absurd rfl h
  | malformedDice text | noSides text | diceOutOfRange text | numberOutOfRange text =>
    exact ⟨'"', by decide, hquoted text _⟩
  | tooManyDice text maxDice => exact ⟨'"', by decide, ((hquoted text _).append _).append _⟩
  | unmatchedParenthesis => exact ⟨'U', by decide, _, rfl⟩
  | unexpectedEnd => exact ⟨'u', by decide, _, rfl⟩
  | unexpectedToken text | trailingToken text => exact ⟨'u', by decide, hunexpected text _⟩
  | nestingTooDeep maxDepth => exact ⟨'p', by decide, (Begins.append ⟨_, rfl⟩ _).append _⟩
  | numberNotNumeral text | diceCountNotNumeral text | notAnOperator text =>
    exact ⟨'i', by decide, (Begins.append ⟨_, rfl⟩ _).append _⟩

end ParseError

namespace Expr

variable {limits : Parser.Limits} {text : String} {error : ReadError}

/-- What is wrong with a text is told in one line. -/
theorem isInline_message_of_read (h : read limits text = .error error) : IsInline error.message := by
  obtain ⟨refused, hts, rfl⟩ | ⟨ts, hts, rfl⟩ := error_of_read h
  · obtain ⟨i, w, hw, rfl⟩ := Token.exists_word_of_tokenize hts
    have hword : IsInline (String.ofList w) := isInline_of_isWordChar (by simpa using hw.2.1)
    exact isInline_append.2 ⟨isInline_append.2 ⟨by decide, hword⟩, by decide⟩
  · refine isInline_intercalate (by decide) fun message hmessage => ?_
    obtain ⟨error, herror, rfl⟩ := List.mem_map.1 hmessage
    refine ParseError.isInline_message (Parser.collect_of_tokenize hts limits error herror) fun text htext => ?_
    have hnamed : text ∈ (Parser.collect limits ts).1.filterMap ParseError.tokenText? :=
      List.mem_filterMap.2 ⟨error, herror, htext⟩
    exact (Token.tokenize_eq_ok_iff.1 hts).isInline_text text ((Parser.collect_blames limits ts).subset hnamed)

/-- A text that is not blank is not answered as if it were. -/
theorem not_begins_message_of_read (hblank : ∃ c ∈ text.toList, isBlank c = false)
    (h : read limits text = .error error) : ¬ Begins 'e' error.message := by
  intro hbegins
  cases error with
  | lex refused =>
    have hquote : Begins '"' (ReadError.message (.lex refused)) :=
      (Begins.append (Begins.append ⟨[], rfl⟩ _) _)
    exact absurd (hbegins.eq hquote) (by decide)
  | parse errors =>
    have hempty := empty_notMem_of_read hblank h
    cases errors with
    | nil =>
      obtain ⟨cs, hcs⟩ := hbegins
      cases hcs
    | cons first later =>
      obtain ⟨c, hc, hfirst⟩ := ParseError.exists_begins_message (List.ne_of_not_mem_cons hempty).symm
      exact hc (Begins.eq (hfirst.intercalate "; " (later.map ParseError.message)) hbegins)

end Expr

theorem EvalError.isInline_message (error : EvalError) : IsInline error.message := by
  cases error <;> decide

/-! ## Traces -/

namespace Evaluation

theorem isInline_bracketed (faces : List Nat) : IsInline (bracketed faces) := by
  have hfaces : IsInline (", ".intercalate (faces.map toString)) := by
    refine isInline_intercalate (by decide) fun text htext => ?_
    obtain ⟨n, -, rfl⟩ := List.mem_map.1 htext
    exact isInline_nat n
  exact isInline_append.2 ⟨isInline_append.2 ⟨by decide, hfaces⟩, by decide⟩

theorem isInline_of_ofFaces {faces : List Nat} {v : Evaluation} (h : ofFaces faces = .ok v) : IsInline v.trace := by
  unfold ofFaces at h
  split at h <;> cases h
  exact isInline_bracketed faces

end Evaluation

/-- The trace of a roll is told in one line. -/
theorem Outcome.isInline_trace {e : Expr} {faces : List Nat} {v : Evaluation} (h : Outcome e faces v) :
    IsInline v.trace := by
  induction h with
  | const value => exact isInline_int value.toInt
  | dice _ hv => exact Evaluation.isInline_of_ofFaces hv
  | @binary op _ _ _ _ _ _ _ _ _ hv ihl ihr =>
    rw [Evaluation.trace_of_join hv]
    split
    · decide
    · simp only [isInline_append]
      exact ⟨⟨⟨⟨ihl, by decide⟩, Token.isInline_symbol (Token.ofSymbol?_symbol op)⟩, by decide⟩, ihr⟩

end DiceNotation
