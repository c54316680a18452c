import DiceNotation.Proofs.Recovery

/-!
# What is wrong with operands

`WellFormed ts` says that tokens are an expression as far as their form goes: numbers may be of any size. Of such tokens
the parser reports what is wrong with each operand on its own, in order, and nothing else (`collect_eq_operandErrors`).
`Token.operandErrors` says what that is: a constant that is no value, dice without sides, a count or sides that are no
32-bit words, and dice that make too many with all those before them. Dice with one of the errors before do not count as
rolled.
-/

namespace DiceNotation

open Text

/-! ## Operands of any size -/

/-- A numeral, or two numerals around a `d`. -/
inductive Token.IsOperand : Token → Prop
  | number {t : Token} : t.kind = .number → isNumeral t.text.toList = true → IsOperand t
  | dice {t : Token} {n m : List Char} :
      t.kind = .dice → t.text.toList = n ++ 'd' :: m → isNumeral n = true → isNumeral m = true → IsOperand t

theorem Token.IsOperand.kind_ne {t : Token} (h : t.IsOperand) : t.kind ≠ .paren := by
  cases h <;> simp [*]

/-- The tokens are an expression but for the size of its numbers. An operator is told by its text, its level by its
kind. -/
abbrev Grammar.WellFormed (n : Grammar.Nonterminal) (ts : List Token) : Prop :=
  Grammar.Derives (fun t (_ : Unit) => t.IsOperand) (fun _ _ _ => ()) n ts ()

namespace Token

def diceCount (t : Token) : Nat :=
  numeralValue (t.text.toList.takeWhile (· ≠ 'd'))

def diceSides (t : Token) : Nat :=
  numeralValue (t.text.toList.dropWhile (· ≠ 'd')).tail

/-- The dice of a dice token count if there are sides and both numbers are 32-bit words. -/
def rolled (t : Token) : Nat :=
  if t.kind = .dice ∧ t.diceCount < 0x100000000 ∧ 0 < t.diceSides ∧ t.diceSides < 0x100000000 then t.diceCount else 0

/-- What is wrong with an operand, where all dice up to it are `total`. -/
def operandErrors (maxDice total : Nat) (t : Token) : List ParseError :=
  match t.kind with
  | .number => if numeralValue t.text.toList < 0x8000000000000000 then [] else [.numberOutOfRange t.text]
  | .dice =>
    if t.diceCount < 0x100000000 ∧ t.diceSides = 0 then [.noSides t.text]
    else if 0x100000000 ≤ t.diceCount ∨ 0x100000000 ≤ t.diceSides then [.diceOutOfRange t.text]
    else if maxDice < total then [.tooManyDice t.text maxDice]
    else []
  | _ => []

theorem ne_d_of_isNumeral {n : List Char} (h : isNumeral n = true) : ∀ c ∈ n, decide (c ≠ 'd') = true := by
  intro c hc
  have : c ≠ 'd' := by rintro rfl; exact not_mem_of_isNumeral h hc
  simpa using this

theorem diceCount_eq {t : Token} {n m : List Char} (ht : t.text.toList = n ++ 'd' :: m) (hn : isNumeral n = true) :
    t.diceCount = numeralValue n := by
  rw [diceCount, ht, List.takeWhile_append_of_pos (ne_d_of_isNumeral hn)]
  simp

theorem diceSides_eq {t : Token} {n m : List Char} (ht : t.text.toList = n ++ 'd' :: m) (hn : isNumeral n = true) :
    t.diceSides = numeralValue m := by
  rw [diceSides, ht, List.dropWhile_append_of_pos (ne_d_of_isNumeral hn)]
  simp

end Token

namespace Parser

open Grammar State

/-- The number of all dice that count. -/
def rolled : List Token → Nat
  | [] => 0
  | t :: ts => t.rolled + rolled ts

/-- What is wrong with each operand in turn, after `before` dice. The dice are counted in a 64-bit word. -/
def operandErrors (maxDice : Nat) : (before : Nat) → List Token → List ParseError
  | _, [] => []
  | before, t :: ts =>
    t.operandErrors maxDice (saturate (before + t.rolled)) ++ operandErrors maxDice (before + t.rolled) ts

variable {limits : Limits} {maxDice before : Nat} {t u : Token} {ts us : List Token}

theorem rolled_append (ts us : List Token) : rolled (ts ++ us) = rolled ts + rolled us := by
  induction ts with
  | nil => exact (Nat.zero_add _).symm
  | cons t ts ih => simp only [List.cons_append, rolled, ih, Nat.add_assoc]

theorem operandErrors_append (maxDice before : Nat) (ts us : List Token) :
    operandErrors maxDice before (ts ++ us) =
      operandErrors maxDice before ts ++ operandErrors maxDice (before + rolled ts) us := by
  induction ts generalizing before with
  | nil => simp [operandErrors, rolled]
  | cons t ts ih => simp [operandErrors, rolled, ih, Nat.add_assoc]

theorem rolled_singleton (t : Token) : rolled [t] = t.rolled :=
  Nat.add_zero _

theorem operandErrors_singleton (maxDice before : Nat) (t : Token) :
    operandErrors maxDice before [t] = t.operandErrors maxDice (saturate (before + t.rolled)) := by
  simp [operandErrors]

/-- Operators and parentheses are no operands. -/
structure IsMark (t : Token) : Prop where
  ne_number : t.kind ≠ .number
  ne_dice : t.kind ≠ .dice

namespace IsMark

theorem of_isOperator {kind : Token.Kind} {n m : Nonterminal} {op : Operator} (hk : Joins kind n m)
    (h : t.IsOperator kind op) : IsMark t := by
  cases hk <;> exact ⟨by rw [h.1]; decide, by rw [h.1]; decide⟩

theorem of_kind_paren (h : t.kind = .paren) : IsMark t :=
  ⟨by rw [h]; decide, by rw [h]; decide⟩

theorem rolled_eq_zero (h : IsMark t) : t.rolled = 0 := by
  simp [Token.rolled, h.ne_dice]

theorem operandErrors_eq_nil (h : IsMark t) (maxDice total : Nat) : t.operandErrors maxDice total = [] := by
  unfold Token.operandErrors
  split
  · next hk => exact absurd hk h.ne_number
  · next hk => exact absurd hk h.ne_dice
  · rfl

theorem rolled_chain (h : IsMark t) (ts us : List Token) : rolled (ts ++ t :: us) = rolled ts + rolled us := by
  simp [rolled_append, rolled, h.rolled_eq_zero]

theorem operandErrors_chain (h : IsMark t) (maxDice before : Nat) (ts us : List Token) :
    operandErrors maxDice before (ts ++ t :: us) =
      operandErrors maxDice before ts ++ operandErrors maxDice (before + rolled ts) us := by
  simp [operandErrors_append, operandErrors, h.rolled_eq_zero, h.operandErrors_eq_nil]

theorem rolled_group (ht : IsMark t) (hu : IsMark u) (ts : List Token) : rolled (t :: (ts ++ [u])) = rolled ts := by
  simp [rolled_append, rolled, ht.rolled_eq_zero, hu.rolled_eq_zero]

theorem operandErrors_group (ht : IsMark t) (hu : IsMark u) (maxDice before : Nat) (ts : List Token) :
    operandErrors maxDice before (t :: (ts ++ [u])) = operandErrors maxDice before ts := by
  simp [operandErrors_append, operandErrors, ht.rolled_eq_zero, ht.operandErrors_eq_nil, hu.operandErrors_eq_nil]

end IsMark

/-! ## Reading operands -/

theorem fits_natCast_iff {n : Nat} : Value.Fits n ↔ n < 0x8000000000000000 := by
  unfold Value.Fits
  omega

theorem constant_of_isNumeral {text : String} (h : isNumeral text.toList = true) :
    constant text =
      if numeralValue text.toList < 0x8000000000000000 then .ok (.const (Int64.ofInt (numeralValue text.toList)))
      else .error (.numberOutOfRange text) := by
  by_cases hlt : numeralValue text.toList < 0x8000000000000000
  · simp [constant, h, Value.ofInt?, fits_natCast_iff, hlt]
  · simp [constant, h, Value.ofInt?, fits_natCast_iff, hlt]

theorem diceTerm_of_isNumeral {text : String} {n m : List Char} (htext : text.toList = n ++ 'd' :: m)
    (hn : isNumeral n = true) (hm : isNumeral m = true) :
    diceTerm text =
      if numeralValue n < 0x100000000 ∧ numeralValue m = 0 then .error (.noSides text)
      else if 0x100000000 ≤ numeralValue n ∨ 0x100000000 ≤ numeralValue m then .error (.diceOutOfRange text)
      else .ok ((numeralValue n).toUInt32, (numeralValue m).toUInt32) := by
  have hsplit : splitDice? text.toList = some (n, m) :=
    splitDice?_eq_some_iff.2 ⟨htext, not_mem_of_isNumeral hn, not_mem_of_isNumeral hm⟩
  have hne : n.isEmpty = false := by simpa using (isNumeral_iff.1 hn).1
  have hrange : (numeralValue n < 0x100000000 ∧ numeralValue m < 0x100000000) ↔
      ¬ (0x100000000 ≤ numeralValue n ∨ 0x100000000 ≤ numeralValue m) := by omega
  simp only [diceTerm, hsplit, hne, hn, hm, Bool.not_true, Bool.or_false, Bool.false_eq_true, ↓reduceIte,
    Bool.and_eq_true, decide_eq_true_eq, beq_iff_eq, hrange, ite_not]

/-- The tokens are read with the errors of their operands, after `before` dice, and have a value if there are none. -/
def ReportsOperands (limits : Limits) (n : Nonterminal) (ts : List Token) (depth before : Nat) : Prop :=
  ∃ x, Reads limits n ts depth (saturate before) (operandErrors limits.maxDice before ts) x
      (saturate (before + rolled ts)) ∧
    (x.isSome = true ↔ operandErrors limits.maxDice before ts = [])

namespace ReportsOperands

variable {depth : Nat} {op : Operator}

theorem of_value (e : Expr) (herrors : t.operandErrors limits.maxDice (saturate (before + t.rolled)) = [])
    (h : ∀ (f : Frame) (outer : List Frame), step limits ⟨f, outer, .operand, saturate before⟩ t =
      ([], ⟨f, outer, .operator (some e), saturate (before + t.rolled)⟩)) :
    ReportsOperands limits .primary [t] depth before := by
  unfold ReportsOperands
  rw [operandErrors_singleton, rolled_singleton, herrors]
  exact ⟨some e, .of_step h, by simp⟩

theorem of_error (error : ParseError)
    (herrors : t.operandErrors limits.maxDice (saturate (before + t.rolled)) = [error])
    (h : ∀ (f : Frame) (outer : List Frame), step limits ⟨f, outer, .operand, saturate before⟩ t =
      ([error], ⟨f, outer, .operator none, saturate (before + t.rolled)⟩)) :
    ReportsOperands limits .primary [t] depth before := by
  unfold ReportsOperands
  rw [operandErrors_singleton, rolled_singleton, herrors]
  exact ⟨none, .of_step h, by simp⟩

theorem number (hk : t.kind = .number) (hn : isNumeral t.text.toList = true) :
    ReportsOperands limits .primary [t] depth before := by
  have hrolled : t.rolled = 0 := by simp [Token.rolled, hk]
  have hconstant := constant_of_isNumeral hn
  by_cases hlt : numeralValue t.text.toList < 0x8000000000000000
  · rw [if_pos hlt] at hconstant
    refine of_value (.const (Int64.ofInt (numeralValue t.text.toList))) ?_ fun f outer => ?_
    · simp [Token.operandErrors, hk, hlt]
    · simp [step, hk, readConstant, hconstant, hrolled]
  · rw [if_neg hlt] at hconstant
    refine of_error (.numberOutOfRange t.text) ?_ fun f outer => ?_
    · simp [Token.operandErrors, hk, hlt]
    · simp [step, hk, readConstant, hconstant, hrolled]

theorem dice {n m : List Char} (hk : t.kind = .dice) (htext : t.text.toList = n ++ 'd' :: m)
    (hn : isNumeral n = true) (hm : isNumeral m = true) : ReportsOperands limits .primary [t] depth before := by
  have hterm := diceTerm_of_isNumeral htext hn hm
  rw [← t.diceCount_eq htext hn, ← t.diceSides_eq htext hn] at hterm
  -- The causes in the order in which they are looked for. The first two leave the number of dice as it was.
  by_cases hzero : t.diceCount < 0x100000000 ∧ t.diceSides = 0
  · have hrolled : t.rolled = 0 := if_neg (by omega)
    rw [if_pos hzero] at hterm
    refine of_error (.noSides t.text) ?_ fun f outer => ?_
    · simp [Token.operandErrors, hk, hzero]
    · simp [step, hk, readDice, hterm, hrolled]
  by_cases hlarge : 0x100000000 ≤ t.diceCount ∨ 0x100000000 ≤ t.diceSides
  · have hrolled : t.rolled = 0 := if_neg (by omega)
    rw [if_neg hzero, if_pos hlarge] at hterm
    refine of_error (.diceOutOfRange t.text) ?_ fun f outer => ?_
    · simp only [Token.operandErrors, hk, hzero, hlarge, ↓reduceIte]
    · simp [step, hk, readDice, hterm, hrolled]
  rw [if_neg hzero, if_neg hlarge] at hterm
  have hrolled : t.rolled = t.diceCount := if_pos ⟨hk, by omega, by omega, by omega⟩
  have hword : countDice (saturate before) t.diceCount.toUInt32 = saturate (before + t.rolled) := by
    rw [countDice_saturate, toNat_toUInt32_of_lt (by omega), hrolled]
  by_cases hmany : limits.maxDice < saturate (before + t.rolled)
  · refine of_error (.tooManyDice t.text limits.maxDice) ?_ fun f outer => ?_
    · simp only [Token.operandErrors, hk, hzero, hlarge, hmany, ↓reduceIte]
    · simp only [step, hk, readDice, hterm, hword, hmany, ↓reduceIte]
  · refine of_value (.dice t.diceCount.toUInt32 t.diceSides.toUInt32) ?_ fun f outer => ?_
    · simp only [Token.operandErrors, hk, hzero, hlarge, hmany, ↓reduceIte]
    · simp only [step, hk, readDice, hterm, hword, hmany, ↓reduceIte]

/-! ## Reading expressions -/

theorem group (ht : t.isOpening = true) (hdepth : depth < limits.maxDepth)
    (h : ReportsOperands limits .expr ts (depth + 1) before) (hu : u.isClosing = true) :
    ReportsOperands limits .primary (t :: (ts ++ [u])) depth before := by
  obtain ⟨x, hx, hsome⟩ := h
  have hmark : IsMark t := .of_kind_paren (kind_of_isOpening ht)
  have hmark' : IsMark u := .of_kind_paren (kind_of_isClosing hu)
  unfold ReportsOperands
  rw [hmark.operandErrors_group hmark', hmark.rolled_group hmark']
  exact ⟨x, hx.group ht hdepth hu, hsome⟩

theorem factor (h : ReportsOperands limits .primary ts depth before) :
    ReportsOperands limits .factor ts depth before := by
  obtain ⟨x, hx, hsome⟩ := h
  exact ⟨x, hx.factor, hsome⟩

theorem expr (h : ReportsOperands limits .factor ts depth before) :
    ReportsOperands limits .expr ts depth before := by
  obtain ⟨x, hx, hsome⟩ := h
  exact ⟨x, hx.expr, hsome⟩

theorem chain {kind : Token.Kind} {n m : Nonterminal} (hk : Joins kind n m)
    (hl : ReportsOperands limits n ts depth before) (ht : t.IsOperator kind op)
    (hr : ReportsOperands limits m us depth (before + rolled ts)) :
    ReportsOperands limits n (ts ++ t :: us) depth before := by
  obtain ⟨x, hx, hsomex⟩ := hl
  obtain ⟨y, hy, hsomey⟩ := hr
  have hmark : IsMark t := .of_isOperator hk ht
  unfold ReportsOperands
  rw [hmark.operandErrors_chain, hmark.rolled_chain, ← Nat.add_assoc]
  refine ⟨combine x (some op) y, hx.chain hk ht hy, ?_⟩
  rw [isSome_combine, hsomex, hsomey, List.append_eq_nil_iff]

end ReportsOperands

theorem reportsOperands_of_derives {α : Type} {leaf : Token → α → Prop} {join : α → Operator → α → α} {n : Nonterminal}
    {a : α} (hleaf : ∀ {t a}, leaf t a → t.IsOperand) (h : Derives leaf join n ts a) (depth before : Nat)
    (hdepth : deepest depth ts ≤ limits.maxDepth) : ReportsOperands limits n ts depth before := by
  have hne : ∀ {t a}, leaf t a → t.kind ≠ .paren := fun h => (hleaf h).kind_ne
  induction h generalizing depth before with
  | leaf ht =>
    cases hleaf ht with
    | number hk hn => exact .number hk hn
    | dice hk htext hn hm => exact .dice hk htext hn hm
  | @group o c ts a ho h hc ih =>
    rw [h.deepest_group hne ho hc] at hdepth
    have hlt : depth < limits.maxDepth := Nat.le_trans (le_deepest _ ts) hdepth
    exact .group ho hlt (ih (depth + 1) before hdepth) hc
  | factor _ ih => exact (ih depth before hdepth).factor
  | expr _ ih => exact (ih depth before hdepth).expr
  | multiply hl ht _ ihl ihr =>
    rw [hl.deepest_chain hne ht (by decide)] at hdepth
    obtain ⟨hdepthl, hdepthr⟩ := Nat.max_le.1 hdepth
    exact .chain .multiplicative (ihl depth before hdepthl) ht (ihr depth _ hdepthr)
  | add hl ht _ ihl ihr =>
    rw [hl.deepest_chain hne ht (by decide)] at hdepth
    obtain ⟨hdepthl, hdepthr⟩ := Nat.max_le.1 hdepth
    exact .chain .additive (ihl depth before hdepthl) ht (ihr depth _ hdepthr)

/-- **Every error of an operand is reported, in order, and nothing else**, if the tokens are an expression but for the
size of its numbers. There is a tree if and only if there is no error. -/
theorem collect_eq_operandErrors {limits : Limits} {ts : List Token} (h : WellFormed .expr ts)
    (hdepth : nesting ts ≤ limits.maxDepth) :
    (collect limits ts).1 = operandErrors limits.maxDice 0 ts ∧
      ((collect limits ts).2.isSome = true ↔ operandErrors limits.maxDice 0 ts = []) := by
  obtain ⟨x, hx, hsome⟩ := reportsOperands_of_derives id h 0 0 hdepth
  rw [hx.collect_eq h.ne_nil]
  exact ⟨rfl, hsome⟩

/-- The tokens of `(3d0 + 9223372036854775808) * 6d6 - 5d6 + 0d4`. -/
def brokenSum : List Token :=
  [⟨.paren, "("⟩, ⟨.dice, "3d0"⟩, ⟨.additive, "+"⟩, ⟨.number, "9223372036854775808"⟩, ⟨.paren, ")"⟩,
    ⟨.multiplicative, "*"⟩, ⟨.dice, "6d6"⟩, ⟨.additive, "-"⟩, ⟨.dice, "5d6"⟩, ⟨.additive, "+"⟩, ⟨.dice, "0d4"⟩]

theorem wellFormed_brokenSum : WellFormed .expr brokenSum := by
  have hdice (text : String) (n m : List Char) (htext : text.toList = n ++ 'd' :: m) (hn : isNumeral n = true)
      (hm : isNumeral m = true) : WellFormed .primary [⟨.dice, text⟩] := .leaf (.dice rfl htext hn hm)
  have hadd : Token.IsOperator .additive .add ⟨.additive, "+"⟩ := ⟨rfl, rfl⟩
  have hsub : Token.IsOperator .additive .sub ⟨.additive, "-"⟩ := ⟨rfl, rfl⟩
  have hmul : Token.IsOperator .multiplicative .mul ⟨.multiplicative, "*"⟩ := ⟨rfl, rfl⟩
  have hnumber : WellFormed .primary [⟨.number, "9223372036854775808"⟩] := .leaf (.number rfl (by decide))
  have hsum := (hdice "3d0" ['3'] ['0'] rfl rfl rfl).factor.expr.add hadd hnumber.factor
  have hopening : (⟨.paren, "("⟩ : Token).isOpening = true := rfl
  have hclosing : (⟨.paren, ")"⟩ : Token).isClosing = true := rfl
  have hproduct := (Derives.group hopening hsum hclosing).factor.multiply hmul (hdice "6d6" ['6'] ['6'] rfl rfl rfl)
  exact (hproduct.expr.add hsub (hdice "5d6" ['5'] ['6'] rfl rfl rfl).factor).add hadd
    (hdice "0d4" ['0'] ['4'] rfl rfl rfl).factor

theorem brokenSum_errors : WellFormed .expr brokenSum ∧ nesting brokenSum ≤ 1 ∧
    (collect ⟨1, 10⟩ brokenSum).1 =
      [.noSides "3d0", .numberOutOfRange "9223372036854775808", .tooManyDice "5d6" 10, .tooManyDice "0d4" 10] ∧
    (collect ⟨1, 10⟩ brokenSum).2.isSome = false := by
  have hdepth : nesting brokenSum ≤ 1 := by decide
  have h : (collect ⟨1, 10⟩ brokenSum).1 = operandErrors 10 0 brokenSum ∧
      ((collect ⟨1, 10⟩ brokenSum).2.isSome = true ↔ operandErrors 10 0 brokenSum = []) :=
    collect_eq_operandErrors wellFormed_brokenSum hdepth
  have hlist : operandErrors 10 0 brokenSum =
      [.noSides "3d0", .numberOutOfRange "9223372036854775808", .tooManyDice "5d6" 10, .tooManyDice "0d4" 10] := by
    decide
  rw [hlist] at h
  exact ⟨wellFormed_brokenSum, hdepth, h.1, by simpa using h.2⟩

end Parser

end DiceNotation
