import DiceNotation.Proofs.Printing

/-!
# Printed expressions are told apart

The main operator of a printed expression is the last one of the lowest level outside all parentheses: what is printed
on its left has no operator of a lower level there, and what is printed on its right none of its own level either
(`Expr.isMain`). So a token list is cut at its main operator in one way only (`Grammar.IsMain.unique`), and by induction
**no two expressions are printed alike** (`Expr.render_inj`).

Nothing is assumed of the expressions, so this does not go through the parser. The parentheses of a negative constant
are told from those of a group by what they hold: no expression begins with an operator (`Expr.group_tokens_ne`).
-/

namespace DiceNotation

/-! ## Tokens of operands and operators -/

namespace Token

theorem ofOperator_inj {op op' : Operator} : ofOperator op = ofOperator op' ↔ op = op' := by
  constructor
  · intro h
    have hread := congrArg (fun t => Operator.ofSymbol? t.text) h
    simp only [ofOperator, Operator.ofSymbol?_symbol] at hread
    exact Option.some.inj hread
  · rintro rfl
    rfl

/-- Neither an operand nor a parenthesis is an operator. -/
theorem ofOperator_ne {op : Operator} {t : Token} (h : t.kind = .number ∨ t.kind = .dice ∨ t.kind = .paren) :
    ofOperator op ≠ t := by
  rintro rfl
  cases op <;> simp [ofOperator, Operator.kind] at h

theorem ofNat_inj {m n : Nat} : ofNat m = ofNat n ↔ m = n := by
  constructor
  · intro h
    have hdigits := String.ofList_injective (congrArg Token.text h)
    rw [← Text.numeralValue_toDigits m, hdigits, Text.numeralValue_toDigits]
  · rintro rfl
    rfl

theorem ofInt_inj {m n : Int} : ofInt m = ofInt n ↔ m = n := by
  constructor
  · intro h
    cases m <;> cases n <;> simp_all [ofInt, ofNat_inj]
  · rintro rfl
    rfl

theorem ofDice_inj {m n m' n' : Nat} : ofDice m n = ofDice m' n' ↔ m = m' ∧ n = n' := by
  constructor
  · intro h
    have hword := String.ofList_injective (congrArg Token.text h)
    have hread : ∀ m n, dice? (Nat.toDigits 10 m ++ 'd' :: Nat.toDigits 10 n) =
        some (Nat.toDigits 10 m, Nat.toDigits 10 n) := fun m n =>
      dice?_eq_some_iff.2 ⟨rfl, (Text.isNumeral_iff.1 (Text.isNumeral_toDigits m)).2, Text.isNumeral_toDigits n⟩
    have hparts := (hread m n).symm.trans ((congrArg dice? hword).trans (hread m' n'))
    obtain ⟨hm, hn⟩ := Prod.mk.inj (Option.some.inj hparts)
    constructor
    · rw [← Text.numeralValue_toDigits m, hm, Text.numeralValue_toDigits]
    · rw [← Text.numeralValue_toDigits n, hn, Text.numeralValue_toDigits]
  · rintro ⟨rfl, rfl⟩
    rfl

end Token

namespace Grammar

/-! ## Outside all parentheses -/

/-- The tokens outside all parentheses, when `depth` are open at the start. -/
def outside (depth : Nat) : List Token → List Token
  | [] => []
  | t :: ts => (if depth = 0 ∧ t.kind ≠ .paren then [t] else []) ++ outside (nest depth t) ts

theorem outside_append (depth : Nat) (ts us : List Token) :
    outside depth (ts ++ us) = outside depth ts ++ outside (ts.foldl nest depth) us := by
  induction ts generalizing depth with
  | nil => rfl
  | cons t ts ih => rw [List.cons_append, outside, ih, outside, List.append_assoc, List.foldl_cons]

theorem kind_ofOperator_ne (op : Operator) : (Token.ofOperator op).kind ≠ .paren := by
  cases op <;> decide

theorem outside_operator (op : Operator) (ts : List Token) :
    outside 0 (.ofOperator op :: ts) = .ofOperator op :: outside 0 ts := by
  rw [outside, nest_of_kind_ne (kind_ofOperator_ne op), if_pos ⟨rfl, kind_ofOperator_ne op⟩, List.singleton_append]

/-- The tokens close what they open and nothing else. -/
structure Closes (ts : List Token) : Prop where
  foldl_nest : ∀ depth, ts.foldl nest depth = depth
  outside_eq_nil : ∀ depth, outside (depth + 1) ts = []

namespace Closes

variable {ts us : List Token} {t : Token}

theorem single (h : t.kind ≠ .paren) : Closes [t] where
  foldl_nest := nest_of_kind_ne h
  outside_eq_nil depth := by simp [outside]

theorem append (h : Closes ts) (h' : Closes us) : Closes (ts ++ us) where
  foldl_nest depth := by rw [List.foldl_append, h.foldl_nest, h'.foldl_nest]
  outside_eq_nil depth := by rw [outside_append, h.foldl_nest, h.outside_eq_nil, h'.outside_eq_nil, List.append_nil]

theorem between (h : Closes ts) (op : Operator) (h' : Closes us) : Closes (ts ++ .ofOperator op :: us) :=
  h.append ((single (kind_ofOperator_ne op)).append h')

/-- Nothing of a group is outside all parentheses. -/
theorem outside_group (h : Closes ts) (depth : Nat) : outside depth (.opening :: (ts ++ [.closing])) = [] := by
  have hopening : Token.opening.isOpening = true := rfl
  simp only [outside, outside_append, nest_opening hopening, h.foldl_nest, h.outside_eq_nil]
  simp [Token.opening, Token.closing]

theorem group (h : Closes ts) : Closes (.opening :: (ts ++ [.closing])) where
  foldl_nest depth := by
    have hopening : Token.opening.isOpening = true := rfl
    have hclosing : Token.closing.isClosing = true := rfl
    simp [nest_opening hopening, nest_closing hclosing, h.foldl_nest]
  outside_eq_nil depth := h.outside_group (depth + 1)

theorem grouped (h : Closes ts) (needed : Bool) : Closes (Token.grouped needed ts) := by
  cases needed with
  | false => exact h
  | true => exact h.group

end Closes

/-! ## The main operator -/

/-- The operator between `ls` and `rs` is the last one of the lowest level outside all parentheses. -/
structure IsMain (ls : List Token) (op : Operator) (rs : List Token) : Prop where
  closes : Closes ls
  le_left : ∀ o, .ofOperator o ∈ outside 0 ls → op.level ≤ o.level
  lt_right : ∀ o, .ofOperator o ∈ outside 0 rs → op.level < o.level

namespace IsMain

variable {ls rs ls' rs' ms : List Token} {op op' : Operator}

/-- The main operator does not stand on the left of another one. -/
theorem not_left (h : IsMain ls op (ms ++ .ofOperator op' :: rs')) (h' : IsMain (ls ++ .ofOperator op :: ms) op' rs') :
    False := by
  have hbetween : ms.foldl nest 0 = 0 := by
    have := h'.closes.foldl_nest 0
    rwa [List.foldl_append, h.closes.foldl_nest, List.foldl_cons, nest_of_kind_ne (kind_ofOperator_ne op)] at this
  have hle : op'.level ≤ op.level := h'.le_left op (by simp [outside_append, h.closes.foldl_nest, outside_operator])
  have hlt : op.level < op'.level := h.lt_right op' (by simp [outside_append, hbetween, outside_operator])
  omega

theorem unique (h : IsMain ls op rs) (h' : IsMain ls' op' rs')
    (heq : ls ++ .ofOperator op :: rs = ls' ++ .ofOperator op' :: rs') : ls = ls' ∧ op = op' ∧ rs = rs' := by
  rcases List.append_eq_append_iff.1 heq with ⟨ms, rfl, hms⟩ | ⟨ms, rfl, hms⟩
  · cases ms with
    | nil =>
      obtain ⟨hop, hrs⟩ := List.cons.inj hms
      exact ⟨(List.append_nil ls).symm, Token.ofOperator_inj.1 hop, hrs⟩
    | cons m ms =>
      obtain ⟨rfl, rfl⟩ := List.cons.inj hms
      exact (h.not_left h').elim
  · cases ms with
    | nil =>
      obtain ⟨hop, hrs⟩ := List.cons.inj hms
      exact ⟨List.append_nil ls', Token.ofOperator_inj.1 hop.symm, hrs.symm⟩
    | cons m ms =>
      obtain ⟨rfl, rfl⟩ := List.cons.inj hms
      exact (h'.not_left h).elim

end IsMain

end Grammar

/-! ## The tokens of an expression -/

namespace Expr

open Grammar

variable {a b e : Expr} {n : Nat}

theorem tokens_const_of_neg {v : Value} (h : v.toInt < 0) :
    (const v).tokens = .opening :: (Token.ofInt v.toInt ++ [.closing]) := by
  rw [tokens, decide_eq_true h, Token.grouped, if_pos rfl]

theorem closes_ofInt (n : Int) : Closes (Token.ofInt n) := by
  cases n with
  | ofNat n => exact .single (by simp [Token.ofNat])
  | negSucc n => exact .append (.single (kind_ofOperator_ne .sub)) (.single (by simp [Token.ofNat]))

theorem closes_tokens (e : Expr) : Closes e.tokens := by
  induction e with
  | const v => exact (closes_ofInt v.toInt).grouped _
  | dice count sides => exact .single (by simp [Token.ofDice])
  | binary op l r ihl ihr => exact (ihl.grouped _).between op (ihr.grouped _)

/-- Outside all parentheses, a constant or a dice term shows no operator. -/
theorem ofOperator_notMem_outside (h : ∀ op l r, e ≠ binary op l r) (o : Operator) :
    .ofOperator o ∉ outside 0 e.tokens := by
  cases e with
  | const v =>
    by_cases hv : v.toInt < 0
    · rw [tokens_const_of_neg hv, (closes_ofInt _).outside_group]
      exact List.not_mem_nil
    · rw [tokens_const (Int.not_lt.1 hv)]
      simpa [outside, Token.ofNat] using Token.ofOperator_ne (.inl rfl)
  | dice count sides =>
    rw [tokens]
    simpa [outside, Token.ofDice] using Token.ofOperator_ne (.inr (.inl rfl))
  | binary op l r => exact absurd rfl (h op l r)

theorem outside_binary (op : Operator) (l r : Expr) :
    outside 0 (binary op l r).tokens = outside 0 (Token.grouped (l.level < op.left.level) l.tokens) ++
      .ofOperator op :: outside 0 (Token.grouped (r.level < op.right.level) r.tokens) := by
  rw [tokens_binary, outside_append, (l.closes_tokens.grouped _).foldl_nest, outside_operator]

/-- An expression that is grouped unless it binds tightly enough shows only operators that do. -/
theorem le_level_of_mem_grouped {o : Operator} (h : .ofOperator o ∈ outside 0 e.tokens → e.level ≤ o.level)
    (ho : .ofOperator o ∈ outside 0 (Token.grouped (e.level < n) e.tokens)) : n ≤ o.level := by
  by_cases hn : e.level < n
  · rw [decide_eq_true hn, Token.grouped, if_pos rfl, e.closes_tokens.outside_group] at ho
    cases ho
  · rw [decide_eq_false hn, Token.grouped, if_neg Bool.false_ne_true] at ho
    exact Nat.le_trans (Nat.le_of_not_lt hn) (h ho)

/-- Outside all parentheses, an expression shows no operator of a lower level than its own. -/
theorem le_level_of_mem_outside (e : Expr) (o : Operator) (ho : .ofOperator o ∈ outside 0 e.tokens) :
    e.level ≤ o.level := by
  induction e with
  | const v => exact absurd ho (ofOperator_notMem_outside (by simp) o)
  | dice count sides => exact absurd ho (ofOperator_notMem_outside (by simp) o)
  | binary op l r ihl ihr =>
    rw [outside_binary] at ho
    rcases List.mem_append.1 ho with ho | ho
    · rw [level, ← op.level_left]
      exact le_level_of_mem_grouped ihl ho
    · rcases List.mem_cons.1 ho with ho | ho
      · exact Nat.le_of_eq (congrArg Operator.level (Token.ofOperator_inj.1 ho)).symm
      · have hle := le_level_of_mem_grouped ihr ho
        rw [op.level_right] at hle
        exact Nat.le_of_succ_le hle

/-- An operation is printed with its own operator as the main one. -/
theorem isMain (op : Operator) (l r : Expr) : IsMain (Token.grouped (l.level < op.left.level) l.tokens) op
    (Token.grouped (r.level < op.right.level) r.tokens) where
  closes := l.closes_tokens.grouped _
  le_left o ho := by
    rw [← op.level_left]
    exact le_level_of_mem_grouped (l.le_level_of_mem_outside o) ho
  lt_right o ho := by
    have := le_level_of_mem_grouped (r.le_level_of_mem_outside o) ho
    rwa [op.level_right] at this

/-- No expression begins with an operator. -/
theorem exists_tokens_cons (e : Expr) :
    ∃ t ts, e.tokens = t :: ts ∧ (t.kind = .number ∨ t.kind = .dice ∨ t.kind = .paren) := by
  induction e with
  | const v =>
    by_cases hv : v.toInt < 0
    · exact ⟨_, _, tokens_const_of_neg hv, .inr (.inr rfl)⟩
    · exact ⟨_, _, tokens_const (Int.not_lt.1 hv), .inl rfl⟩
  | dice count sides => exact ⟨_, _, rfl, .inr (.inl rfl)⟩
  | binary op l r ihl _ =>
    obtain ⟨t, ts, hl, ht⟩ := ihl
    rw [tokens_binary]
    by_cases hlevel : l.level < op.left.level
    · rw [decide_eq_true hlevel]
      exact ⟨_, _, rfl, .inr (.inr rfl)⟩
    · rw [decide_eq_false hlevel, hl]
      exact ⟨t, _, rfl, ht⟩

/-! ## Expressions by their tokens -/

theorem tokens_ne_binary (h : ∀ op l r, e ≠ binary op l r) (op : Operator) (l r : Expr) :
    e.tokens ≠ (binary op l r).tokens := by
  intro heq
  refine ofOperator_notMem_outside h op ?_
  rw [heq, outside_binary]
  exact List.mem_append_right _ List.mem_cons_self

theorem tokens_const_ne_dice (v : Value) (count sides : UInt32) : (const v).tokens ≠ (dice count sides).tokens := by
  intro h
  by_cases hv : v.toInt < 0
  · rw [tokens_const_of_neg hv] at h
    cases (List.cons.inj h).1
  · rw [tokens_const (Int.not_lt.1 hv)] at h
    cases (List.cons.inj h).1

theorem const_of_tokens_eq {v w : Value} (h : (const v).tokens = (const w).tokens) : v = w := by
  refine Int64.toInt_inj.1 (Token.ofInt_inj.1 ?_)
  have hkind : ∀ {ts : List Token} {n : Nat}, Token.opening :: ts ≠ [.ofNat n] := fun heq => by
    cases (List.cons.inj heq).1
  by_cases hv : v.toInt < 0
  · rw [tokens_const_of_neg hv] at h
    by_cases hw : w.toInt < 0
    · rw [tokens_const_of_neg hw] at h
      exact List.append_cancel_right (List.cons.inj h).2
    · rw [tokens_const (Int.not_lt.1 hw)] at h
      exact absurd h hkind
  · by_cases hw : w.toInt < 0
    · rw [tokens_const_of_neg hw, tokens_const (Int.not_lt.1 hv)] at h
      exact absurd h.symm hkind
    · rwa [tokens, tokens, decide_eq_false hv, decide_eq_false hw] at h

/-- No expression is printed as another one in parentheses: those of a negative constant hold no expression. -/
theorem group_tokens_ne (a b : Expr) : .opening :: (a.tokens ++ [.closing]) ≠ b.tokens := by
  intro h
  cases b with
  | const v =>
    by_cases hv : v.toInt < 0
    · rw [tokens_const_of_neg hv] at h
      have hinside : a.tokens = Token.ofInt v.toInt := List.append_cancel_right (List.cons.inj h).2
      obtain ⟨t, ts, ha, ht⟩ := a.exists_tokens_cons
      obtain ⟨k, hk⟩ := Int.eq_negSucc_of_lt_zero hv
      rw [ha, hk] at hinside
      exact Token.ofOperator_ne ht (List.cons.inj hinside).1.symm
    · rw [tokens_const (Int.not_lt.1 hv)] at h
      cases (List.cons.inj h).1
  | dice count sides => cases (List.cons.inj h).1
  | binary op l r =>
    have hnone := a.closes_tokens.outside_group 0
    rw [h, outside_binary] at hnone
    exact List.cons_ne_nil _ _ (List.append_eq_nil_iff.1 hnone).2

theorem tokens_eq_of_grouped_eq
    (h : Token.grouped (a.level < n) a.tokens = Token.grouped (b.level < n) b.tokens) : a.tokens = b.tokens := by
  by_cases ha : a.level < n
  · by_cases hb : b.level < n
    · rw [decide_eq_true ha, decide_eq_true hb] at h
      exact List.append_cancel_right (List.cons.inj h).2
    · rw [decide_eq_true ha, decide_eq_false hb] at h
      exact absurd h (group_tokens_ne a b)
  · by_cases hb : b.level < n
    · rw [decide_eq_false ha, decide_eq_true hb] at h
      exact absurd h.symm (group_tokens_ne b a)
    · rwa [decide_eq_false ha, decide_eq_false hb] at h

/-- The tokens of an expression tell it from all others. -/
theorem eq_of_tokens_eq (h : a.tokens = b.tokens) : a = b := by
  induction a generalizing b with
  | const v =>
    cases b with
    | const w => rw [const_of_tokens_eq h]
    | dice count sides => exact absurd h (tokens_const_ne_dice v count sides)
    | binary op l r => exact absurd h (tokens_ne_binary (by simp) op l r)
  | dice count sides =>
    cases b with
    | const w => exact absurd h.symm (tokens_const_ne_dice w count sides)
    | dice count' sides' =>
      obtain ⟨hcount, hsides⟩ := Token.ofDice_inj.1 (List.cons.inj h).1
      rw [UInt32.toNat_inj.1 hcount, UInt32.toNat_inj.1 hsides]
    | binary op l r => exact absurd h (tokens_ne_binary (by simp) op l r)
  | binary op l r ihl ihr =>
    cases b with
    | const w => exact absurd h.symm (tokens_ne_binary (by simp) op l r)
    | dice count sides => exact absurd h.symm (tokens_ne_binary (by simp) op l r)
    | binary op' l' r' =>
      rw [tokens_binary, tokens_binary] at h
      obtain ⟨hl, rfl, hr⟩ := (isMain op l r).unique (isMain op' l' r') h
      rw [ihl (tokens_eq_of_grouped_eq hl), ihr (tokens_eq_of_grouped_eq hr)]

/-- **No two expressions are printed alike**, whatever their constants, dice and shape. -/
theorem render_inj (a b : Expr) : a.render = b.render ↔ a = b := by
  constructor
  · intro h
    have htokens := tokenize_render a
    rw [h, tokenize_render b] at htokens
    exact eq_of_tokens_eq (Except.ok.inj htokens).symm
  · rintro rfl
    rfl

end Expr

end DiceNotation
