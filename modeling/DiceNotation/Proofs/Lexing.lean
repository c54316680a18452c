import DiceNotation.Expr.Operator
import DiceNotation.Token.Lexer

/-!
# Token lists as texts

`Written cs ts` says that the characters `cs` write the tokens `ts`: every token stands for a word or for a symbol,
blanks stand anywhere between them, and a word goes on as far as it can. **A text has the tokens that it writes and no
others** (`tokenize_eq_ok_iff`). The right side says nothing of how a text is cut, so texts are put together from parts
without running the lexer (`Written.append`). The kind and the text of a token that a text writes do not contradict each
other (`Written.isRegular`).
-/

namespace DiceNotation

/-- The kind of an operator's token. -/
def Operator.kind : Operator → Token.Kind
  | add | sub => .additive
  | mul | div => .multiplicative

namespace Token

open Text

/-! ## Words -/

/-- The characters that are tokens on their own. -/
def symbols : List Char :=
  ['(', ')', '*', '/', '+', '-']

theorem mem_symbols {c : Char} {kind : Kind} (h : Kind.ofSymbol? c = some kind) : c ∈ symbols := by
  unfold Kind.ofSymbol? at h
  split at h <;> simp [symbols] at h ⊢

/-- The characters that words are made of. -/
def IsWordChar (c : Char) : Prop :=
  isBlank c = false ∧ Kind.ofSymbol? c = none

/-- A word and its token. A count that is left out is written as `1`. -/
inductive Word : List Char → Token → Prop
  | number {n : List Char} : isNumeral n = true → Word n ⟨.number, String.ofList n⟩
  | dice {n m : List Char} : isNumeral n = true → isNumeral m = true →
      Word (n ++ 'd' :: m) ⟨.dice, String.ofList (n ++ 'd' :: m)⟩
  | die {m : List Char} : isNumeral m = true → Word ('d' :: m) ⟨.dice, String.ofList ('1' :: 'd' :: m)⟩

theorem isWordChar_of_isDigit {c : Char} (h : c.isDigit = true) : IsWordChar c := by
  have hc : 48 ≤ c.toNat ∧ c.toNat ≤ 57 := by simpa [Char.isDigit, UInt32.le_iff_toNat_le] using h
  constructor
  · have hranges : ∀ r ∈ blankRanges, r.2 < 48 ∨ 57 < r.1 := by decide
    rw [isBlank, List.any_eq_false]
    intro r hr
    have := hranges r hr
    simp only [Bool.and_eq_true, decide_eq_true_eq, not_and]
    omega
  · cases hk : Kind.ofSymbol? c with
    | none => rfl
    | some kind =>
      have hsymbols : symbols.all (fun s => !s.isDigit) = true := by decide
      have := List.all_eq_true.1 hsymbols c (mem_symbols hk)
      rw [h] at this
      cases this

theorem isWordChar_d : IsWordChar 'd' := by
  constructor <;> decide

theorem isBlank_of_ofSymbol? {c : Char} {kind : Kind} (h : Kind.ofSymbol? c = some kind) : isBlank c = false := by
  have hsymbols : symbols.all (fun s => !isBlank s) = true := by decide
  have := List.all_eq_true.1 hsymbols c (mem_symbols h)
  simpa using this

theorem dice?_eq_some_iff {w n m : List Char} :
    dice? w = some (n, m) ↔ w = n ++ 'd' :: m ∧ (∀ c ∈ n, c.isDigit = true) ∧ isNumeral m = true := by
  constructor
  · intro h
    unfold dice? at h
    split at h
    · next sides hdrop =>
      split at h
      · next hm =>
        cases h
        refine ⟨?_, fun c hc => List.all_eq_true.1 List.all_takeWhile c hc, hm⟩
        rw [← hdrop, List.takeWhile_append_dropWhile]
      · cases h
    · cases h
  · rintro ⟨rfl, hn, hm⟩
    have hd : Char.isDigit 'd' = false := by decide
    simp [dice?, List.dropWhile_append_of_pos hn, List.takeWhile_append_of_pos hn, hd, hm]

theorem classify_eq_ok_iff {w : List Char} {t : Token} : classify w = .ok t ↔ Word w t := by
  constructor
  · intro h
    unfold classify number? at h
    split at h
    · next hw =>
      split at hw
      · next hn => cases hw; cases h; exact .number hn
      · cases hw
    · split at h
      · next n m hdice =>
        obtain ⟨rfl, hn, hm⟩ := dice?_eq_some_iff.1 hdice
        cases h
        cases n with
        | nil => exact .die hm
        | cons c cs => exact .dice (isNumeral_iff.2 ⟨by simp, hn⟩) hm
      · cases h
  · have hnum : ∀ n m : List Char, number? (n ++ 'd' :: m) = none := by
      intro n m
      have hd : Char.isDigit 'd' = false := by decide
      simp [number?, isNumeral, hd]
    intro h
    cases h with
    | number hn => simp [classify, number?, hn]
    | @dice n m hn hm =>
      obtain ⟨hne, hdigits⟩ := isNumeral_iff.1 hn
      simp [classify, hnum, dice?_eq_some_iff.2 ⟨rfl, hdigits, hm⟩, hne]
    | @die m hm =>
      have hdice : dice? ('d' :: m) = some ([], m) := dice?_eq_some_iff.2 ⟨rfl, by simp, hm⟩
      have hnum := hnum [] m
      rw [List.nil_append] at hnum
      simp [classify, hnum, hdice]

theorem Word.ne_nil {w : List Char} {t : Token} (h : Word w t) : w ≠ [] := by
  cases h with
  | number hn => exact (isNumeral_iff.1 hn).1
  | dice _ _ | die _ => simp

theorem Word.isWordChar {w : List Char} {t : Token} (h : Word w t) : ∀ c ∈ w, IsWordChar c := by
  have hnumeral : ∀ {n}, isNumeral n = true → ∀ c ∈ n, IsWordChar c := fun hn c hc =>
    isWordChar_of_isDigit ((isNumeral_iff.1 hn).2 c hc)
  intro c hc
  cases h with
  | number hn => exact hnumeral hn c hc
  | dice hn hm =>
    simp only [List.mem_append, List.mem_cons] at hc
    obtain hc | rfl | hc := hc
    · exact hnumeral hn c hc
    · exact isWordChar_d
    · exact hnumeral hm c hc
  | die hm =>
    obtain rfl | hc := List.mem_cons.1 hc
    · exact isWordChar_d
    · exact hnumeral hm c hc

/-! ## Texts -/

/-- No word goes on into these characters. -/
def Stops : List Char → Prop
  | [] => True
  | c :: _ => ¬ IsWordChar c

/-- The characters write the tokens. -/
inductive Written : List Char → List Token → Prop
  | nil : Written [] []
  | blank {c : Char} {cs : List Char} {ts : List Token} : isBlank c = true → Written cs ts → Written (c :: cs) ts
  | symbol {c : Char} {kind : Kind} {cs : List Char} {ts : List Token} :
      Kind.ofSymbol? c = some kind → Written cs ts → Written (c :: cs) (⟨kind, c.toString⟩ :: ts)
  | word {w cs : List Char} {t : Token} {ts : List Token} :
      Word w t → Stops cs → Written cs ts → Written (w ++ cs) (t :: ts)

theorem stops_of_isBlank {c : Char} (h : isBlank c = true) (cs : List Char) : Stops (c :: cs) := by
  intro hc
  rw [hc.1] at h
  cases h

theorem stops_of_ofSymbol? {c : Char} {kind : Kind} (h : Kind.ofSymbol? c = some kind) (cs : List Char) :
    Stops (c :: cs) := by
  intro hc
  rw [hc.2] at h
  cases h

theorem Stops.append {cs ds : List Char} (hc : Stops cs) (hd : Stops ds) : Stops (cs ++ ds) := by
  cases cs with
  | nil => exact hd
  | cons c cs => exact hc

/-- What stands before a stop and what stands after it are independent. -/
theorem Written.append {cs ds : List Char} {ts us : List Token} (h : Written cs ts) (hd : Stops ds)
    (h' : Written ds us) : Written (cs ++ ds) (ts ++ us) := by
  induction h with
  | nil => exact h'
  | blank hb _ ih => exact .blank hb ih
  | symbol hk _ ih => exact .symbol hk ih
  | word hw hs _ ih =>
    rw [List.append_assoc]
    exact .word hw (hs.append hd) ih

theorem Written.of_word {w : List Char} {t : Token} (h : Word w t) : Written w [t] := by
  have := Written.word h (show Stops [] from trivial) .nil
  rwa [List.append_nil] at this

/-! ## The lexer -/

theorem piecesAfter_wordChar {c : Char} (h : IsWordChar c) (pending cs : List Char) :
    piecesAfter pending (c :: cs) = piecesAfter (c :: pending) cs := by
  simp [piecesAfter, h.1, h.2]

theorem piecesAfter_word {w : List Char} (hw : ∀ c ∈ w, IsWordChar c) (pending cs : List Char) :
    piecesAfter pending (w ++ cs) = piecesAfter (w.reverse ++ pending) cs := by
  induction w generalizing pending with
  | nil => rfl
  | cons c w ih =>
    obtain ⟨hc, hw⟩ := List.forall_mem_cons.1 hw
    rw [List.cons_append, piecesAfter_wordChar hc, ih hw, List.reverse_cons, List.append_assoc]
    rfl

theorem piecesAfter_stop {cs : List Char} (hs : Stops cs) (pending : List Char) :
    piecesAfter pending cs = Piece.ofPending pending ++ piecesAfter [] cs := by
  cases cs with
  | nil => simp [piecesAfter, Piece.ofPending]
  | cons c cs =>
    cases hb : isBlank c with
    | true => simp [piecesAfter, Piece.ofPending, hb]
    | false =>
      cases hk : Kind.ofSymbol? c with
      | some kind => simp [piecesAfter, Piece.ofPending, hb, hk]
      | none => exact absurd ⟨hb, hk⟩ hs

theorem piecesAfter_symbol {c : Char} {kind : Kind} (h : Kind.ofSymbol? c = some kind) (cs : List Char) :
    piecesAfter [] (c :: cs) = .symbol kind c :: piecesAfter [] cs := by
  simp [piecesAfter, Piece.ofPending, isBlank_of_ofSymbol? h, h]

theorem ofPending_reverse {w : List Char} (h : w ≠ []) : Piece.ofPending w.reverse = [.word w] := by
  cases hw : w.reverse with
  | nil => exact absurd (List.reverse_eq_nil_iff.1 hw) h
  | cons c cs => rw [Piece.ofPending, ← hw, List.reverse_reverse]

section

variable {α β ε : Type} {f : α → Except ε β}

theorem mapM_cons_eq_ok {a : α} {as : List α} {bs : List β} :
    (a :: as).mapM f = .ok bs ↔ ∃ b cs, f a = .ok b ∧ as.mapM f = .ok cs ∧ bs = b :: cs := by
  rw [List.mapM_cons]
  cases f a with
  | error _ => simp [bind, Except.bind]
  | ok b =>
    cases as.mapM f with
    | error _ => simp [bind, Except.bind]
    | ok cs => simp [bind, Except.bind, pure, Except.pure, eq_comm]

theorem mapM_append_eq_ok {as as' : List α} {bs : List β} :
    (as ++ as').mapM f = .ok bs ↔ ∃ cs ds, as.mapM f = .ok cs ∧ as'.mapM f = .ok ds ∧ bs = cs ++ ds := by
  rw [List.mapM_append]
  cases as.mapM f with
  | error _ => simp [bind, Except.bind]
  | ok cs =>
    cases as'.mapM f with
    | error _ => simp [bind, Except.bind]
    | ok ds => simp [bind, Except.bind, pure, Except.pure, eq_comm]

end

theorem Written.pieces {cs : List Char} {ts : List Token} (h : Written cs ts) :
    (piecesAfter [] cs).mapM Piece.token = .ok ts := by
  induction h with
  | nil => rfl
  | blank hb _ ih =>
    simp only [piecesAfter, hb, Piece.ofPending]
    exact ih
  | @symbol c kind cs ts hk _ ih =>
    rw [piecesAfter_symbol hk]
    exact mapM_cons_eq_ok.2 ⟨_, ts, rfl, ih, rfl⟩
  | @word w cs t ts hw hs _ ih =>
    have hp : piecesAfter [] (w ++ cs) = .word w :: piecesAfter [] cs := by
      rw [piecesAfter_word hw.isWordChar, List.append_nil, piecesAfter_stop hs, ofPending_reverse hw.ne_nil]
      rfl
    rw [hp]
    exact mapM_cons_eq_ok.2 ⟨t, ts, classify_eq_ok_iff.2 hw, ih, rfl⟩

theorem Written.of_pending {pending cs : List Char} {ts us : List Token}
    (h : (Piece.ofPending pending).mapM Piece.token = .ok ts) (hs : Stops cs) (hw : Written cs us) :
    Written (pending.reverse ++ cs) (ts ++ us) := by
  cases pending with
  | nil =>
    cases h
    exact hw
  | cons c pending =>
    obtain ⟨t, ts, ht, hts, rfl⟩ := mapM_cons_eq_ok.1 h
    cases hts
    exact .word (classify_eq_ok_iff.1 ht) hs hw

theorem written_of_pieces {pending cs : List Char} {ts : List Token}
    (h : (piecesAfter pending cs).mapM Piece.token = .ok ts) : Written (pending.reverse ++ cs) ts := by
  induction cs generalizing pending ts with
  | nil =>
    have := Written.of_pending h (show Stops [] from trivial) .nil
    rwa [List.append_nil ts] at this
  | cons c cs ih =>
    by_cases hc : IsWordChar c
    · rw [piecesAfter_wordChar hc] at h
      have := ih h
      rwa [List.reverse_cons, List.append_assoc] at this
    · have hs : Stops (c :: cs) := hc
      rw [piecesAfter_stop hs] at h
      obtain ⟨ts, us, hts, hus, rfl⟩ := mapM_append_eq_ok.1 h
      refine .of_pending hts hs ?_
      cases hb : isBlank c with
      | true =>
        simp only [piecesAfter, hb, ↓reduceIte, Piece.ofPending, List.nil_append] at hus
        exact .blank hb (ih hus)
      | false =>
        cases hk : Kind.ofSymbol? c with
        | none => exact absurd ⟨hb, hk⟩ hc
        | some kind =>
          rw [piecesAfter_symbol hk] at hus
          obtain ⟨t, vs, ht, hvs, rfl⟩ := mapM_cons_eq_ok.1 hus
          cases ht
          exact .symbol hk (ih hvs)

/-- **The lexer gives a text the tokens that it writes.** -/
theorem tokenize_eq_ok_iff {text : String} {ts : List Token} : tokenize text = .ok ts ↔ Written text.toList ts :=
  ⟨written_of_pieces, Written.pieces⟩

/-! ## Regular tokens -/

/-- A token with the text of an operator has the operator's kind. -/
def IsRegular (t : Token) : Prop :=
  ∀ op : Operator, t.text = op.symbol.toString → t.kind = op.kind

theorem ofSymbol?_symbol (op : Operator) : Kind.ofSymbol? op.symbol = some op.kind := by
  cases op <;> rfl

theorem Word.isWordChar_text {w : List Char} {t : Token} (h : Word w t) : ∀ c ∈ t.text.toList, IsWordChar c := by
  have hone : IsWordChar '1' := isWordChar_of_isDigit (by decide)
  have hw := h.isWordChar
  cases h with
  | number _ | dice _ _ => simpa using hw
  | die _ => simpa using List.forall_mem_cons.2 ⟨hone, hw⟩

theorem Written.isRegular {cs : List Char} {ts : List Token} (h : Written cs ts) : ∀ t ∈ ts, t.IsRegular := by
  induction h with
  | nil => simp
  | blank _ _ ih => exact ih
  | @symbol c kind _ _ hk _ ih =>
    refine List.forall_mem_cons.2 ⟨?_, ih⟩
    intro op hop
    have hc : c = op.symbol := by simpa [Char.toString_eq_singleton] using hop
    rw [hc, ofSymbol?_symbol] at hk
    exact (Option.some.inj hk).symm
  | @word _ _ t _ hw _ _ ih =>
    refine List.forall_mem_cons.2 ⟨?_, ih⟩
    intro op hop
    have hmem : op.symbol ∈ t.text.toList := by
      rw [hop, Char.toString_eq_singleton, String.toList_singleton]
      exact List.mem_singleton.2 rfl
    have hnone := (hw.isWordChar_text op.symbol hmem).2
    rw [ofSymbol?_symbol] at hnone
    cases hnone

end Token

end DiceNotation
