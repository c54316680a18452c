import DiceNotation.Proofs.Holes
import DiceNotation.Proofs.Truncation
import DiceNotation.Proofs.Unambiguity

/-!
# What is printed and read again

A negative constant is printed with an operator right behind a parenthesis, and dice without sides as a term `Nd0`
(`Expr.unreadable_of_not_isReadable`). No list of tokens that the parser accepts has either: by the moves that lead to
them, after an opening parenthesis it waits for an operand, and a term without sides is none. So a printed expression
whose tokens are accepted is readable, and as such it has one derivation only.

**A printed expression is read as itself or not at all** (`Expr.rereads`).
-/

namespace DiceNotation

open Grammar

/-! ## What the parser does not accept -/

namespace Parser

variable {limits : Limits} {ts : List Token} {e : Expr}

/-- Every token of an accepted list is read by a move, and the rest goes on from there. -/
theorem exists_move {before after : List Token} {t : Token} (h : parse limits (before ++ t :: after) = .ok e) :
    ∃ s s' last, Moves limits s t s' ∧ s'.run limits after = ([], last) := by
  obtain ⟨s, last, read, -, hopen, hrun, -⟩ := exists_state_of_append h
  obtain ⟨s', ht, hrun⟩ := State.run_cons_eq_nil.1 hrun
  exact ⟨s, s', last, (State.step_eq_nil_iff hopen).1 ht, hrun⟩

theorem Moves.phase_of_opening {s s' : State} (h : Moves limits s .opening s') : s'.phase = .operand := by
  cases h with
  | const _ ht | dice _ ht _ => exact absurd rfl ht.kind_ne
  | opening _ _ _ => rfl
  | additive _ ht | multiplicative _ ht => cases ht.1
  | closing _ ht _ => cases ht

theorem Moves.phase_of_operator {s s' : State} {op : Operator} (h : Moves limits s (.ofOperator op) s') :
    s.phase ≠ .operand := by
  have hkind : ∀ {e}, ¬ Operand (.ofOperator op) e := by
    intro e ht
    cases ht with
    | const hk _ _ | dice hk _ _ _ _ _ _ => cases op <;> cases hk
  cases h with
  | const _ ht | dice _ ht _ => exact absurd ht hkind
  | opening _ ht _ => exact absurd (State.kind_of_isOpening ht) (kind_ofOperator_ne op)
  | additive hp _ | multiplicative hp _ | closing hp _ _ => simp [hp]

/-- No operator stands right behind an opening parenthesis. -/
theorem not_infix_of_parse (h : parse limits ts = .ok e) (op : Operator) : ¬ [.opening, .ofOperator op] <:+: ts := by
  rintro ⟨before, after, rfl⟩
  rw [List.append_assoc] at h
  obtain ⟨s, s', last, hopening, hrun⟩ := exists_move h
  obtain ⟨s'', hstep, -⟩ := State.run_cons_eq_nil.1 hrun
  have hoperator := (State.step_eq_nil_iff hopening.isOpen_after).1 hstep
  exact hoperator.phase_of_operator hopening.phase_of_opening

theorem splitDice?_ofDice (count sides : Nat) :
    splitDice? (Token.ofDice count sides).text.toList = some (Nat.toDigits 10 count, Nat.toDigits 10 sides) :=
  splitDice?_eq_some_iff.2 ⟨String.toList_ofList, Text.not_mem_of_isNumeral (Text.isNumeral_toDigits count),
    Text.not_mem_of_isNumeral (Text.isNumeral_toDigits sides)⟩

/-- No term without sides is accepted. -/
theorem notMem_of_parse (h : parse limits ts = .ok e) (count : Nat) : .ofDice count 0 ∉ ts := by
  intro hmem
  obtain ⟨before, after, rfl⟩ := List.append_of_mem hmem
  obtain ⟨s, s', last, hmove, -⟩ := exists_move h
  cases hmove with
  | const _ ht => cases ht with | const hk _ _ => cases hk
  | dice _ ht _ =>
    cases ht with
    | @dice n m _ sides _ htext hn hm _ hsides h0 =>
      have hsplit : splitDice? (Token.ofDice count 0).text.toList = some (n, m) :=
        splitDice?_eq_some_iff.2 ⟨htext, Text.not_mem_of_isNumeral hn, Text.not_mem_of_isNumeral hm⟩
      rw [splitDice?_ofDice] at hsplit
      cases hsplit
      rw [Text.numeralValue_toDigits] at hsides
      exact h0 (UInt32.toNat_inj.1 hsides.symm)
  | opening _ ht _ | closing _ ht _ => cases ht
  | additive _ ht | multiplicative _ ht => cases ht.1

/-- A list that is not accepted has an error to show. -/
theorem exists_cons_of_parse {errors : List ParseError} (h : parse limits ts = .error errors) :
    ∃ error later, errors = error :: later := by
  have hno : ∀ e, parse limits ts ≠ .ok e := by simp [h]
  rcases collect_cases limits ts with ⟨e, hc⟩ | ⟨e, t, hover⟩ | ⟨error, later, hc, -⟩
  · exact absurd (parse_eq_ok.2 hc) (hno e)
  · rw [parse_eq_error (collect_of_leavesOver hover) hno] at h
    cases h
    exact ⟨_, _, rfl⟩
  · rw [parse_eq_error hc hno] at h
    cases h
    exact ⟨error, later, rfl⟩

end Parser

/-! ## What is printed of other expressions -/

namespace Expr

variable {e : Expr} {limits : Parser.Limits}

/-- The tokens of a part stand among those of the whole, with parentheses or without. -/
theorem infix_grouped (needed : Bool) (ts : List Token) : ts <:+: Token.grouped needed ts := by
  cases needed with
  | false => exact List.infix_refl ts
  | true => exact ⟨[.opening], [.closing], by simp [Token.grouped]⟩

theorem left_infix_tokens (op : Operator) (l r : Expr) : l.tokens <:+: (binary op l r).tokens :=
  (infix_grouped _ l.tokens).trans (List.prefix_append _ _).isInfix

theorem right_infix_tokens (op : Operator) (l r : Expr) : r.tokens <:+: (binary op l r).tokens :=
  (infix_grouped _ r.tokens).trans ((List.suffix_cons _ _).trans (List.suffix_append _ _)).isInfix

/-- An expression that is not readable shows it in its tokens. -/
theorem unreadable_of_not_isReadable (h : ¬ e.IsReadable) :
    [.opening, .ofOperator .sub] <:+: e.tokens ∨ ∃ count, .ofDice count 0 ∈ e.tokens := by
  induction e with
  | const v =>
    have hv : v.toInt < 0 := Int.not_le.1 h
    obtain ⟨k, hk⟩ := Int.eq_negSucc_of_lt_zero hv
    rw [tokens_const_of_neg hv, hk]
    exact .inl (List.prefix_append [_, _] _).isInfix
  | dice count sides =>
    obtain rfl : sides = 0 := Classical.not_not.1 h
    exact .inr ⟨count.toNat, List.mem_singleton_self _⟩
  | binary op l r ihl ihr =>
    rcases Classical.not_and_iff_not_or_not.1 h with h | h
    · refine (ihl h).imp (·.trans (left_infix_tokens op l r)) ?_
      exact fun ⟨count, hmem⟩ => ⟨count, (left_infix_tokens op l r).subset hmem⟩
    · refine (ihr h).imp (·.trans (right_infix_tokens op l r)) ?_
      exact fun ⟨count, hmem⟩ => ⟨count, (right_infix_tokens op l r).subset hmem⟩

/-- A printed expression whose tokens are accepted is read as itself. -/
theorem eq_of_parse_tokens {e' : Expr} (h : Parser.parse limits e.tokens = .ok e') : e.IsReadable ∧ e' = e := by
  have hreadable : e.IsReadable := by
    by_contra hnot
    rcases unreadable_of_not_isReadable hnot with hinfix | ⟨count, hmem⟩
    · exact Parser.not_infix_of_parse h .sub hinfix
    · exact Parser.notMem_of_parse h count hmem
  exact ⟨hreadable, Parser.spells_unique (Parser.spells_of_parse h).1 (spells_tokens hreadable e.one_le_level)⟩

theorem read_render_eq (limits : Parser.Limits) (e : Expr) :
    read limits e.render = (Parser.parse limits e.tokens).mapError .parse := by
  rw [read, tokenize_render]
  rfl

/-- **A printed expression is read as itself or not at all**: as itself if none of its constants is negative, its dice
have sides, and the number of its dice and the nesting of its printed parentheses are within the limits; otherwise it is
refused by the parser. -/
theorem rereads (limits : Parser.Limits) (e : Expr) : ∃ ts, Token.tokenize e.render = .ok ts ∧
    (e.IsReadable ∧ Parser.saturate e.diceCount ≤ limits.maxDice ∧ nesting ts ≤ limits.maxDepth →
      read limits e.render = .ok e) ∧
    (¬ (e.IsReadable ∧ Parser.saturate e.diceCount ≤ limits.maxDice ∧ nesting ts ≤ limits.maxDepth) →
      ∃ error later, read limits e.render = .error (.parse (error :: later))) := by
  refine ⟨e.tokens, tokenize_render e, fun ⟨hreadable, hdice, hdepth⟩ => ?_, fun hnot => ?_⟩
  · rw [read_render_eq, Parser.parse_of_spells (spells_tokens hreadable e.one_le_level) hdepth hdice]
    rfl
  · rw [read_render_eq]
    cases hparse : Parser.parse limits e.tokens with
    | ok e' =>
      obtain ⟨hreadable, rfl⟩ := eq_of_parse_tokens hparse
      obtain ⟨-, hdepth, hdice⟩ := Parser.spells_of_parse hparse
      exact absurd ⟨hreadable, hdice, hdepth⟩ hnot
    | error errors =>
      obtain ⟨error, later, rfl⟩ := Parser.exists_cons_of_parse hparse
      exact ⟨error, later, rfl⟩

end Expr

end DiceNotation
