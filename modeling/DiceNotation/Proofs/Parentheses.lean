import DiceNotation.Proofs.Printing

/-!
# The fewest parentheses

`Token.DropsParens ts us` says that the tokens `us` are the tokens `ts` without some of the parentheses. A derivation
gives at least the parentheses that its tree is printed with: a group is the only way to put a loose operator under a
tighter one, and each printed pair is such a group (`Derives.dropsParens`). Apart from parentheses the two lists differ
only in leading zeros, which `Token.trim` removes.

**A printed expression is what was read, without the parentheses that can be left out and without leading zeros. No text
that is read as the same expression has fewer parentheses, and none of those that are printed can be left out**
(`Expr.render_fewest`).
-/

namespace DiceNotation

open Grammar

/-! ## Leading zeros -/

namespace Text

/-- A numeral without its leading zeros; the last digit stays. -/
def trimZeros : List Char → List Char
  | '0' :: c :: cs => trimZeros (c :: cs)
  | cs => cs

theorem digitChar_of_isDigit {c : Char} (h : c.isDigit = true) : c.toNat - '0'.toNat < 10 ∧
    Nat.digitChar (c.toNat - '0'.toNat) = c := by
  have hc : 48 ≤ c.toNat ∧ c.toNat ≤ 57 := by simpa [Char.isDigit, UInt32.le_iff_toNat_le] using h
  have hzero : '0'.toNat = 48 := rfl
  refine ⟨by omega, Char.toNat_inj.1 ?_⟩
  rw [Nat.toNat_digitChar_of_lt_ten (by omega)]
  omega

/-- Digits behind a number that is not zero go on with its digits. -/
theorem toDigits_ofDigitChars {cs : List Char} (hcs : ∀ c ∈ cs, c.isDigit = true) {n : Nat} (hn : 0 < n) :
    Nat.toDigits 10 (Nat.ofDigitChars 10 cs n) = Nat.toDigits 10 n ++ cs := by
  induction cs generalizing n with
  | nil => simp
  | cons c cs ih =>
    obtain ⟨hc, hcs⟩ := List.forall_mem_cons.1 hcs
    obtain ⟨hlt, hdigit⟩ := digitChar_of_isDigit hc
    rw [Nat.ofDigitChars_cons, ih hcs (by omega), ← Nat.toDigits_append_toDigits (by decide) hn hlt,
      Nat.toDigits_of_lt_base hlt, hdigit, List.append_assoc]
    rfl

theorem trimZeros_of_ne {c : Char} (h : c ≠ '0') (cs : List Char) : trimZeros (c :: cs) = c :: cs := by
  unfold trimZeros
  split
  · next heq => exact absurd (List.cons.inj heq).1 h
  · rfl

/-- A numeral without leading zeros is that of its value. -/
theorem trimZeros_eq {cs : List Char} (h : isNumeral cs = true) :
    trimZeros cs = Nat.toDigits 10 (numeralValue cs) := by
  obtain ⟨hne, hdigits⟩ := isNumeral_iff.1 h
  clear h
  induction cs with
  | nil => exact absurd rfl hne
  | cons c cs ih =>
    obtain ⟨hc, hcs⟩ := List.forall_mem_cons.1 hdigits
    by_cases h0 : c = '0'
    · subst h0
      cases cs with
      | nil => decide
      | cons c cs => exact ih (by simp) hcs
    · obtain ⟨hlt, hdigit⟩ := digitChar_of_isDigit hc
      have hpos : 0 < c.toNat - '0'.toNat := by
        refine Nat.pos_of_ne_zero fun hz => h0 ?_
        rw [← hdigit, hz]
        rfl
      rw [trimZeros_of_ne h0, numeralValue, Nat.ofDigitChars_cons, Nat.mul_zero, Nat.zero_add,
        toDigits_ofDigitChars hcs hpos, Nat.toDigits_of_lt_base hlt, hdigit]
      rfl

end Text

namespace Token

/-- A token without the leading zeros of its number, or of its count and its sides. -/
def trim (t : Token) : Token :=
  match t.kind with
  | .number => ⟨.number, String.ofList (Text.trimZeros t.text.toList)⟩
  | .dice =>
    match Parser.splitDice? t.text.toList with
    | some (count, sides) => ⟨.dice, String.ofList (Text.trimZeros count ++ 'd' :: Text.trimZeros sides)⟩
    | none => t
  | _ => t

theorem kind_trim (t : Token) : t.trim.kind = t.kind := by
  unfold trim
  split
  · next hk => exact hk.symm
  · next hk =>
    split
    · exact hk.symm
    · rfl
  · rfl

theorem trim_of_kind_ne {t : Token} (hnumber : t.kind ≠ .number) (hdice : t.kind ≠ .dice) : t.trim = t := by
  unfold trim
  split
  · next hk => exact absurd hk hnumber
  · next hk => exact absurd hk hdice
  · rfl

theorem eq_opening {t : Token} (h : t.isOpening = true) : t = opening := by
  obtain ⟨kind, text⟩ := t
  simp only [isOpening, Bool.and_eq_true, beq_iff_eq] at h
  rw [opening, h.1, h.2]

theorem eq_closing {t : Token} (h : t.isClosing = true) : t = closing := by
  obtain ⟨kind, text⟩ := t
  simp only [isClosing, Bool.and_eq_true, beq_iff_eq] at h
  rw [closing, h.1, h.2]

theorem trim_of_isOpening {t : Token} (h : t.isOpening = true) : t.trim = opening := by
  rw [eq_opening h]
  rfl

theorem trim_of_isClosing {t : Token} (h : t.isClosing = true) : t.trim = closing := by
  rw [eq_closing h]
  rfl

theorem IsRegular.trim_eq {t : Token} {kind : Kind} {op : Operator} (h : t.IsRegular) (ht : t.IsOperator kind op) :
    t.trim = ofOperator op := by
  have hk : t.kind = op.kind := h op ht.2
  have hnumber : op.kind ≠ .number := by cases op <;> decide
  have hdice : op.kind ≠ .dice := by cases op <;> decide
  rw [trim_of_kind_ne (hk ▸ hnumber) (hk ▸ hdice), ofOperator, ← hk, ← ht.2]

/-! ## Lists of tokens without some parentheses -/

/-- The second list is the first one without some of its parentheses. -/
inductive DropsParens : List Token → List Token → Prop
  | nil : DropsParens [] []
  | keep (t : Token) {ts us : List Token} : DropsParens ts us → DropsParens (t :: ts) (t :: us)
  | drop {t : Token} {ts us : List Token} : t.kind = .paren → DropsParens ts us → DropsParens (t :: ts) us

/-- The number of parentheses of both kinds. -/
def parens (ts : List Token) : Nat :=
  ts.countP (·.kind = .paren)

theorem parens_map_trim (ts : List Token) : parens (ts.map trim) = parens ts := by
  simp [parens, List.countP_map, Function.comp_def, kind_trim]

namespace DropsParens

variable {ts us vs ws : List Token}

theorem refl (ts : List Token) : DropsParens ts ts := by
  induction ts with
  | nil => exact .nil
  | cons t ts ih => exact .keep t ih

theorem append (h : DropsParens ts us) (h' : DropsParens vs ws) : DropsParens (ts ++ vs) (us ++ ws) := by
  induction h with
  | nil => exact h'
  | keep t _ ih => exact .keep t ih
  | drop ht _ ih => exact .drop ht ih

theorem trans (h : DropsParens ts us) (h' : DropsParens us vs) : DropsParens ts vs := by
  induction h generalizing vs with
  | nil => exact h'
  | keep t _ ih =>
    cases h' with
    | keep _ h' => exact .keep t (ih h')
    | drop ht h' => exact .drop ht (ih h')
  | drop ht _ ih => exact .drop ht (ih h')

theorem parens_le (h : DropsParens ts us) : parens us ≤ parens ts := by
  induction h with
  | nil => exact Nat.le_refl _
  | keep t _ ih =>
    simp only [parens, List.countP_cons] at ih ⊢
    omega
  | drop _ _ ih =>
    simp only [parens, List.countP_cons] at ih ⊢
    omega

/-- A pair of parentheses may go. -/
theorem ungroup (ts : List Token) : DropsParens (grouped true ts) ts := by
  have hclose : DropsParens (ts ++ [closing]) (ts ++ []) := (refl ts).append (.drop rfl .nil)
  rw [List.append_nil] at hclose
  exact .drop rfl hclose

theorem grouped_mono {p q : Bool} (hpq : q = true → p = true) (ts : List Token) :
    DropsParens (grouped p ts) (grouped q ts) := by
  cases q with
  | true => rw [hpq rfl]; exact refl _
  | false =>
    cases p with
    | true => exact ungroup ts
    | false => exact refl ts

end DropsParens

end Token

/-! ## The parentheses of a derivation -/

namespace Grammar

open Token

variable {n m : Nonterminal} {ts : List Token} {t : Token} {e : Expr}

/-- An operand is printed as its own token, which needs no parentheses anywhere. -/
theorem Operand.grouped_tokens (h : Operand t e) (n : Nonterminal) :
    grouped (e.level < n.level) e.tokens = [t.trim] := by
  have htokens : e.tokens = [t.trim] := by
    cases h with
    | const hk hn hv =>
      rw [Expr.tokens_const (by omega), trim, hk, Text.trimZeros_eq hn, ofNat, ← hv, Int.toNat_natCast]
    | @dice n m count sides hk htext hn hm hcount hsides =>
      have hsplit : Parser.splitDice? t.text.toList = some (n, m) :=
        Parser.splitDice?_eq_some_iff.2 ⟨htext, Text.not_mem_of_isNumeral hn, Text.not_mem_of_isNumeral hm⟩
      simp only [Expr.tokens, trim, hk, hsplit, Text.trimZeros_eq hn, Text.trimZeros_eq hm, hcount, hsides, ofDice]
  have hlevel : e.level = Nonterminal.primary.level := by cases h <;> rfl
  have hungrouped : decide (e.level < n.level) = false := decide_eq_false (by have := n.level_le; omega)
  rw [hungrouped]
  exact htokens

theorem dropsParens_grouped (hm : m.level ≤ n.level) (e : Expr) :
    DropsParens (grouped (e.level < n.level) e.tokens) (grouped (e.level < m.level) e.tokens) :=
  .grouped_mono (fun hlt => decide_eq_true (Nat.lt_of_lt_of_le (of_decide_eq_true hlt) hm)) e.tokens

/-- A chain is printed without grouping where it stands, and its parts as they are printed at their places. -/
theorem dropsParens_chain {us : List Token} {kind : Token.Kind} {op : Operator} {l r : Expr} (ht : t.IsOperator kind op)
    (hreg : t.IsRegular) (hl : DropsParens (ts.map trim) (grouped (l.level < op.left.level) l.tokens))
    (hr : DropsParens (us.map trim) (grouped (r.level < op.right.level) r.tokens)) :
    DropsParens ((ts ++ t :: us).map trim)
      (grouped ((Expr.binary op l r).level < op.left.level) (Expr.binary op l r).tokens) := by
  have hungrouped : decide ((Expr.binary op l r).level < op.left.level) = false :=
    decide_eq_false (by rw [op.level_left]; exact Nat.lt_irrefl _)
  rw [hungrouped, Expr.tokens_binary, List.map_append, List.map_cons, hreg.trim_eq ht]
  exact hl.append (.keep _ hr)

/-- A tree is printed as the tokens that derive it, without some of their parentheses. -/
theorem Derives.dropsParens (h : Spells n ts e) (hregular : ∀ t ∈ ts, t.IsRegular) :
    DropsParens (ts.map trim) (grouped (e.level < n.level) e.tokens) := by
  induction h with
  | leaf h =>
    rw [h.grouped_tokens]
    exact .refl _
  | @group o c ts e ho _ hc ih =>
    have ih := ih fun t ht => hregular t (by simp [ht])
    rw [Expr.grouped_expr] at ih
    have hgroup : DropsParens ((o :: (ts ++ [c])).map trim) (grouped true e.tokens) := by
      rw [List.map_cons, List.map_append, List.map_singleton, trim_of_isOpening ho, trim_of_isClosing hc]
      exact .keep _ (ih.append (.refl _))
    exact hgroup.trans (.grouped_mono (fun _ => rfl) e.tokens)
  | factor h ih | expr h ih => exact (ih hregular).trans (dropsParens_grouped (by decide) _)
  -- The kind decides the level of a chain, and on a regular token the operator agrees with it.
  | @multiply ts us t op l r _ ht _ ihl ihr =>
    obtain ⟨hts, hreg, hus⟩ := (List.forall_mem_append.1 hregular).imp_right List.forall_mem_cons.1
    have hkind := hreg.kind_eq ht
    cases op with
    | add | sub => cases hkind
    | mul | div => exact dropsParens_chain ht hreg (ihl hts) (ihr hus)
  | @add ts us t op l r _ ht _ ihl ihr =>
    obtain ⟨hts, hreg, hus⟩ := (List.forall_mem_append.1 hregular).imp_right List.forall_mem_cons.1
    have hkind := hreg.kind_eq ht
    cases op with
    | add | sub => exact dropsParens_chain ht hreg (ihl hts) (ihr hus)
    | mul | div => cases hkind

end Grammar

/-! ## The parentheses of a text -/

namespace Token

/-- The number of parentheses among the characters of a text. -/
def parenChars (cs : List Char) : Nat :=
  cs.countP (Kind.ofSymbol? · = some .paren)

theorem parenChars_append (cs ds : List Char) : parenChars (cs ++ ds) = parenChars cs + parenChars ds :=
  List.countP_append

theorem parenChars_opening (cs : List Char) : parenChars ('(' :: cs) = parenChars cs + 1 :=
  List.countP_cons_of_pos (by decide)

theorem parenChars_closing (cs : List Char) : parenChars (')' :: cs) = parenChars cs + 1 :=
  List.countP_cons_of_pos (by decide)

theorem Word.kind_ne_paren {w : List Char} {t : Token} (h : Word w t) : t.kind ≠ .paren := by
  cases h <;> simp

/-- A text has as many parentheses as its tokens. -/
theorem Written.parens_eq {cs : List Char} {ts : List Token} (h : Written cs ts) : parens ts = parenChars cs := by
  induction h with
  | nil => rfl
  | @blank c cs ts hb _ ih =>
    have hc : Kind.ofSymbol? c ≠ some .paren := by
      intro hc
      rw [isBlank_of_ofSymbol? hc] at hb
      cases hb
    rw [ih, parenChars, parenChars, List.countP_cons_of_neg (by simpa using hc)]
  | @symbol c kind cs ts hk _ ih =>
    simp only [parens, parenChars, List.countP_cons, hk, Option.some.injEq] at ih ⊢
    rw [ih]
  | @word w cs t ts hw _ _ ih =>
    have hnone : parenChars w = 0 := by
      refine List.countP_eq_zero.2 fun c hc => ?_
      simp [(hw.isWordChar c hc).2]
    rw [parenChars_append, hnone, Nat.zero_add, ← ih, parens, parens,
      List.countP_cons_of_neg (by simpa using hw.kind_ne_paren)]

end Token

namespace Expr

open Token

variable {limits : Parser.Limits} {raw : String} {e : Expr}

/-- The tokens of the printed expression are those that were read, without leading zeros and some parentheses. -/
theorem exists_dropsParens (h : read limits raw = .ok e) :
    ∃ ts, tokenize raw = .ok ts ∧ DropsParens (ts.map trim) e.tokens := by
  obtain ⟨ts, hts, hparse⟩ := read_eq_ok_iff.1 h
  have hdrops := (Parser.spells_of_parse hparse).1.dropsParens (tokenize_eq_ok_iff.1 hts).isRegular
  rw [grouped_expr] at hdrops
  exact ⟨ts, hts, hdrops⟩

/-- A text that is read as an expression has at least the parentheses of the printed one. -/
theorem parens_tokens_le (h : read limits raw = .ok e) :
    ∃ ts, tokenize raw = .ok ts ∧ parens e.tokens ≤ parens ts := by
  obtain ⟨ts, hts, hdrops⟩ := exists_dropsParens h
  have hle := hdrops.parens_le
  rw [parens_map_trim] at hle
  exact ⟨ts, hts, hle⟩

/-- **A printed expression is what was read, without some parentheses and without leading zeros.** No text that is read
as the same expression has fewer parentheses, and no two that are printed, an opening one and a closing one behind it,
can be left out. -/
theorem render_fewest (h : read limits raw = .ok e) : ∃ us, tokenize e.render = .ok us ∧
    (∃ ts, tokenize raw = .ok ts ∧ DropsParens (ts.map trim) us) ∧
    (∀ limits' raw', read limits' raw' = .ok e → ∃ ts, tokenize raw' = .ok ts ∧ parens us ≤ parens ts) ∧
    ∀ a b c, e.render.toList = a ++ '(' :: (b ++ ')' :: c) →
      ∀ limits', read limits' (String.ofList (a ++ b ++ c)) ≠ .ok e := by
  refine ⟨e.tokens, tokenize_render e, exists_dropsParens h, fun _ _ => parens_tokens_le, ?_⟩
  intro a b c hrender limits' h'
  obtain ⟨ts, hts, hle⟩ := parens_tokens_le h'
  have hrest : parens ts = parenChars a + parenChars b + parenChars c := by
    rw [(tokenize_eq_ok_iff.1 hts).parens_eq, String.toList_ofList, parenChars_append, parenChars_append]
  have hwhole : parens e.tokens = parenChars a + parenChars b + parenChars c + 2 := by
    rw [(written_render e).parens_eq, hrender, parenChars_append, parenChars_opening, parenChars_append,
      parenChars_closing]
    omega
  omega

theorem productOfGroups_fewest : read ⟨2, 1⟩ "((001 + 2)) * (d06 - 3)" = .ok productOfGroups ∧
    ∃ us, tokenize productOfGroups.render = .ok us ∧
      (∃ ts, tokenize "((001 + 2)) * (d06 - 3)" = .ok ts ∧ DropsParens (ts.map trim) us) ∧
      (∀ limits raw, read limits raw = .ok productOfGroups →
        ∃ ts, tokenize raw = .ok ts ∧ parens us ≤ parens ts) ∧
      ∀ a b c, productOfGroups.render.toList = a ++ '(' :: (b ++ ')' :: c) →
        ∀ limits, read limits (String.ofList (a ++ b ++ c)) ≠ .ok productOfGroups := by
  have h : read ⟨2, 1⟩ "((001 + 2)) * (d06 - 3)" = .ok productOfGroups := by decide +kernel
  exact ⟨h, render_fewest h⟩

end Expr

end DiceNotation
