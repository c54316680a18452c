import DiceNotation.Proofs.Recovery

/-!
# Groups nested too deep

`openings depth ts` lists how many parentheses are open around each opening one. A list of tokens that is accepted with
some depth limit is read with every other depth limit too, and each group that begins right at the limit is one error
(`reportsDepth_of_spells`): it is passed over as a whole, and the dice in it do not count. So the limit decides about
nothing but these errors (`parse_of_deeper`).
-/

namespace DiceNotation

namespace Grammar

/-- For each opening parenthesis the number of parentheses that are open around it. -/
def openings (depth : Nat) : List Token → List Nat
  | [] => []
  | t :: ts => (if t.isOpening then [depth] else []) ++ openings (nest depth t) ts

theorem openings_append (depth : Nat) (ts us : List Token) :
    openings depth (ts ++ us) = openings depth ts ++ openings (ts.foldl nest depth) us := by
  induction ts generalizing depth with
  | nil => rfl
  | cons t ts ih => simp only [List.cons_append, openings, List.foldl_cons, ih, List.append_assoc]

theorem openings_opening {t : Token} (h : t.isOpening = true) (depth : Nat) (ts : List Token) :
    openings depth (t :: ts) = depth :: openings (depth + 1) ts := by
  simp [openings, h, nest_opening h]

theorem openings_of_kind_ne {t : Token} (h : t.kind ≠ .paren) (depth : Nat) (ts : List Token) :
    openings depth (t :: ts) = openings depth ts := by
  have hopening : t.isOpening = false := by simp [Token.isOpening, h]
  simp [openings, hopening, nest_of_kind_ne h]

theorem nest_le_of_not_isOpening {t : Token} (h : t.isOpening = false) (depth : Nat) : nest depth t ≤ depth := by
  simp only [nest, h, Bool.false_eq_true, ↓reduceIte]
  split <;> omega

/-- Tokens nest no deeper than a limit if and only if each parenthesis opens below it. -/
theorem deepest_le_iff {m depth : Nat} {ts : List Token} :
    deepest depth ts ≤ m ↔ depth ≤ m ∧ ∀ d ∈ openings depth ts, d < m := by
  induction ts generalizing depth with
  | nil => simp [deepest, openings]
  | cons t ts ih =>
    rw [deepest, Nat.max_le, ih]
    cases ht : t.isOpening with
    | true =>
      rw [nest_opening ht, openings_opening ht, List.forall_mem_cons]
      exact Iff.rfl
    | false =>
      have hnest := nest_le_of_not_isOpening ht depth
      have hopenings : openings depth (t :: ts) = openings (nest depth t) ts := by simp [openings, ht]
      rw [hopenings]
      exact ⟨fun h => ⟨h.1, h.2.2⟩, fun h => ⟨h.1, Nat.le_trans hnest h.1, h.2⟩⟩

section

variable {α : Type} {leaf : Token → α → Prop} {join : α → Operator → α → α} {n : Nonterminal} {ts : List Token} {a : α}
  (hleaf : ∀ {t a}, leaf t a → t.kind ≠ .paren)
include hleaf

theorem Derives.openings_group {o c : Token} (h : Derives leaf join n ts a) (ho : o.isOpening = true)
    (hc : c.isClosing = true) (depth : Nat) :
    openings depth (o :: (ts ++ [c])) = depth :: openings (depth + 1) ts := by
  have hlast : openings (depth + 1) [c] = [] := by simp [openings, Token.not_isOpening_of_isClosing hc]
  rw [openings_opening ho, openings_append, h.foldl_nest hleaf, hlast, List.append_nil]

theorem Derives.openings_chain {kind : Token.Kind} {op : Operator} {t : Token} (h : Derives leaf join n ts a)
    (ht : t.IsOperator kind op) (hk : kind ≠ .paren) (us : List Token) (depth : Nat) :
    openings depth (ts ++ t :: us) = openings depth ts ++ openings depth us := by
  rw [openings_append, h.foldl_nest hleaf, openings_of_kind_ne (by rw [ht.1]; exact hk)]

/-- Derived tokens never close a parenthesis that was open before them. -/
theorem Derives.le_openings (h : Derives leaf join n ts a) (depth : Nat) : ∀ d ∈ openings depth ts, depth ≤ d := by
  induction h generalizing depth with
  | leaf h =>
    rw [openings_of_kind_ne (hleaf h)]
    simp [openings]
  | group ho h hc ih =>
    intro d hd
    rw [h.openings_group hleaf ho hc] at hd
    rcases List.mem_cons.1 hd with rfl | hd
    · exact Nat.le_refl d
    · exact Nat.le_of_succ_le (ih (depth + 1) d hd)
  | factor _ ih | expr _ ih => exact ih depth
  | multiply h ht _ ihl ihr | add h ht _ ihl ihr =>
    intro d hd
    rw [h.openings_chain hleaf ht (by decide)] at hd
    rcases List.mem_append.1 hd with hd | hd
    · exact ihl depth d hd
    · exact ihr depth d hd

end

end Grammar

namespace Parser

open Grammar

/-- One error for each group that begins where as many are open as may be. -/
def depthErrors (maxDepth depth : Nat) (ts : List Token) : List ParseError :=
  List.replicate ((openings depth ts).count maxDepth) (.nestingTooDeep maxDepth)

section

variable {α : Type} {leaf : Token → α → Prop} {join : α → Operator → α → α} {n : Nonterminal} {ts : List Token} {a : α}
  (hleaf : ∀ {t a}, leaf t a → t.kind ≠ .paren)
include hleaf

theorem depthErrors_chain {kind : Token.Kind} {op : Operator} {t : Token} (h : Derives leaf join n ts a)
    (ht : t.IsOperator kind op) (hk : kind ≠ .paren) (us : List Token) (maxDepth depth : Nat) :
    depthErrors maxDepth depth (ts ++ t :: us) = depthErrors maxDepth depth ts ++ depthErrors maxDepth depth us := by
  rw [depthErrors, h.openings_chain hleaf ht hk, List.count_append, ← List.replicate_append_replicate]
  rfl

theorem depthErrors_group_of_lt {o c : Token} (h : Derives leaf join n ts a) (ho : o.isOpening = true)
    (hc : c.isClosing = true) {maxDepth depth : Nat} (hlt : depth < maxDepth) :
    depthErrors maxDepth depth (o :: (ts ++ [c])) = depthErrors maxDepth (depth + 1) ts := by
  rw [depthErrors, h.openings_group hleaf ho hc, List.count_cons_of_ne (Nat.ne_of_lt hlt)]
  rfl

/-- Groups inside one that begins at the limit begin beyond it. -/
theorem depthErrors_group_self {o c : Token} (h : Derives leaf join n ts a) (ho : o.isOpening = true)
    (hc : c.isClosing = true) (maxDepth : Nat) :
    depthErrors maxDepth maxDepth (o :: (ts ++ [c])) = [.nestingTooDeep maxDepth] := by
  have hinner : (openings (maxDepth + 1) ts).count maxDepth = 0 := by
    rw [List.count_eq_zero]
    intro hmem
    exact Nat.not_succ_le_self maxDepth (h.le_openings hleaf (maxDepth + 1) maxDepth hmem)
  rw [depthErrors, h.openings_group hleaf ho hc, List.count_cons_self, hinner]
  rfl

end

variable {limits : Limits}

/-- Dice within a limit are so in both parts, also if fewer count in the first. -/
theorem dice_of_chain {m before dice dice' : Nat} (h : saturate (before + (dice + dice')) ≤ m) :
    saturate (before + dice) ≤ m ∧ ∀ after ≤ before + dice, saturate (after + dice') ≤ m := by
  unfold saturate at h ⊢
  refine ⟨by omega, fun after hle => ?_⟩
  omega

/-- The tokens, which have `dice` dice, are read with an error for each group at the limit. Dice in these groups do not
count. -/
def ReportsDepth (limits : Limits) (n : Nonterminal) (ts : List Token) (depth before dice : Nat) : Prop :=
  ∃ x after, after ≤ before + dice ∧
    Reads limits n ts depth (saturate before) (depthErrors limits.maxDepth depth ts) x (saturate after)

namespace ReportsDepth

variable {ts us : List Token} {a b : Expr} {depth before dice dice' : Nat}

theorem of_operand {t : Token} (ht : Operand t a) (hdice : saturate (before + a.diceCount) ≤ limits.maxDice) :
    ReportsDepth limits .primary [t] depth before a.diceCount := by
  have herrors : depthErrors limits.maxDepth depth [t] = [] := by
    rw [depthErrors, openings_of_kind_ne ht.kind_ne]
    rfl
  unfold ReportsDepth
  rw [herrors]
  exact ⟨some a, _, Nat.le_refl _, .of_operand ht hdice⟩

theorem group {o c : Token} (hspells : Spells .expr ts a) (ho : o.isOpening = true) (hdepth : depth < limits.maxDepth)
    (h : ReportsDepth limits .expr ts (depth + 1) before dice) (hc : c.isClosing = true) :
    ReportsDepth limits .primary (o :: (ts ++ [c])) depth before dice := by
  obtain ⟨x, after, hle, hx⟩ := h
  unfold ReportsDepth
  rw [depthErrors_group_of_lt Operand.kind_ne hspells ho hc hdepth]
  exact ⟨x, after, hle, hx.group ho hdepth hc⟩

theorem tooDeep {o c : Token} (hspells : Spells .expr ts a) (ho : o.isOpening = true) (hc : c.isClosing = true) :
    ReportsDepth limits .primary (o :: (ts ++ [c])) limits.maxDepth before dice := by
  unfold ReportsDepth
  rw [depthErrors_group_self Operand.kind_ne hspells ho hc]
  exact ⟨none, before, Nat.le_add_right _ _, .tooDeep Operand.kind_ne ho (Nat.le_refl _) hspells hc⟩

theorem factor (h : ReportsDepth limits .primary ts depth before dice) :
    ReportsDepth limits .factor ts depth before dice := by
  obtain ⟨x, after, hle, hx⟩ := h
  exact ⟨x, after, hle, hx.factor⟩

theorem expr (h : ReportsDepth limits .factor ts depth before dice) :
    ReportsDepth limits .expr ts depth before dice := by
  obtain ⟨x, after, hle, hx⟩ := h
  exact ⟨x, after, hle, hx.expr⟩

/-- How many dice count before the second part depends on the groups left out in the first. -/
theorem chain {kind : Token.Kind} {n m : Nonterminal} {t : Token} {op : Operator} (hk : Joins kind n m)
    (hspells : Spells n ts a) (hl : ReportsDepth limits n ts depth before dice) (ht : t.IsOperator kind op)
    (hr : ∀ after ≤ before + dice, ReportsDepth limits m us depth after dice') :
    ReportsDepth limits n (ts ++ t :: us) depth before (dice + dice') := by
  obtain ⟨x, after, hle, hx⟩ := hl
  obtain ⟨y, after', hle', hy⟩ := hr after hle
  unfold ReportsDepth
  rw [depthErrors_chain Operand.kind_ne hspells ht hk.kind_ne]
  exact ⟨combine x (some op) y, after', by omega, hx.chain hk ht hy⟩

end ReportsDepth

/-- An accepted list is read within any depth limit. -/
theorem reportsDepth_of_spells {n : Nonterminal} {ts : List Token} {e : Expr} (h : Spells n ts e) (depth before : Nat)
    (hdepth : depth ≤ limits.maxDepth) (hdice : saturate (before + e.diceCount) ≤ limits.maxDice) :
    ReportsDepth limits n ts depth before e.diceCount := by
  induction h generalizing depth before with
  | leaf ht => exact .of_operand ht hdice
  | group ho h hc ih =>
    rcases Nat.lt_or_eq_of_le hdepth with hlt | rfl
    · exact .group h ho hlt (ih (depth + 1) before hlt hdice) hc
    · exact .tooDeep h ho hc
  | factor _ ih => exact (ih depth before hdepth hdice).factor
  | expr _ ih => exact (ih depth before hdepth hdice).expr
  | multiply hl ht _ ihl ihr =>
    obtain ⟨hdicel, hdicer⟩ := dice_of_chain hdice
    exact .chain .multiplicative hl (ihl depth before hdepth hdicel) ht fun after hle =>
      ihr depth after hdepth (hdicer after hle)
  | add hl ht _ ihl ihr =>
    obtain ⟨hdicel, hdicer⟩ := dice_of_chain hdice
    exact .chain .additive hl (ihl depth before hdepth hdicel) ht fun after hle =>
      ihr depth after hdepth (hdicer after hle)

/-- **The depth limit only ever adds its own errors.** A list that is accepted with one depth limit gives the same
expression with another, if each parenthesis opens below that one, and else exactly one error for each parenthesis that
opens right at it. -/
theorem parse_of_deeper {maxDepth deeper maxDice : Nat} {ts : List Token} {e : Expr}
    (h : parse ⟨deeper, maxDice⟩ ts = .ok e) :
    parse ⟨maxDepth, maxDice⟩ ts =
      if ∀ d ∈ openings 0 ts, d < maxDepth then .ok e
      else .error (List.replicate ((openings 0 ts).count maxDepth) (.nestingTooDeep maxDepth)) := by
  obtain ⟨hspells, -, hdice⟩ := spells_of_parse h
  have hnesting : nesting ts ≤ maxDepth ↔ ∀ d ∈ openings 0 ts, d < maxDepth := by
    rw [nesting, deepest_le_iff]
    exact and_iff_right (Nat.zero_le _)
  by_cases hbelow : ∀ d ∈ openings 0 ts, d < maxDepth
  · rw [if_pos hbelow]
    exact parse_of_spells hspells (hnesting.2 hbelow) hdice
  · rw [if_neg hbelow]
    have hread : ReportsDepth ⟨maxDepth, maxDice⟩ .expr ts 0 0 e.diceCount :=
      reportsDepth_of_spells hspells 0 0 (Nat.zero_le maxDepth) (by rwa [Nat.zero_add])
    obtain ⟨x, after, -, hx⟩ := hread
    -- The tokens cannot be accepted, whatever the number of errors: they would nest within the limit.
    refine parse_eq_error (hx.collect_eq hspells.ne_nil) fun e' he' => hbelow (hnesting.1 ?_)
    exact (spells_of_parse he').2.1

/-- The tokens of `(1 + (20d6)) * ((3)) - 4d6`. -/
def nestedProduct : List Token :=
  [⟨.paren, "("⟩, ⟨.number, "1"⟩, ⟨.additive, "+"⟩, ⟨.paren, "("⟩, ⟨.dice, "20d6"⟩, ⟨.paren, ")"⟩, ⟨.paren, ")"⟩,
    ⟨.multiplicative, "*"⟩, ⟨.paren, "("⟩, ⟨.paren, "("⟩, ⟨.number, "3"⟩, ⟨.paren, ")"⟩, ⟨.paren, ")"⟩,
    ⟨.additive, "-"⟩, ⟨.dice, "4d6"⟩]

theorem nestedProduct_too_deep :
    parse ⟨2, 24⟩ nestedProduct =
      .ok (.binary .sub (.binary .mul (.binary .add (.const 1) (.dice 20 6)) (.const 3)) (.dice 4 6)) ∧
    parse ⟨1, 24⟩ nestedProduct = .error [.nestingTooDeep 1, .nestingTooDeep 1] := by
  have h : parse ⟨2, 24⟩ nestedProduct =
      .ok (.binary .sub (.binary .mul (.binary .add (.const 1) (.dice 20 6)) (.const 3)) (.dice 4 6)) :=
    parse_eq_ok.2 (by decide +kernel)
  refine ⟨h, (parse_of_deeper h).trans ?_⟩
  rw [if_neg (by decide)]
  rfl

end Parser

end DiceNotation
