import DiceNotation.Expr.Bounds

/-!
# Ranges of results

A list of numbers encloses a number that lies between two of its members (`Encloses`), and the hull of the list contains
every enclosed number once both are cut to the values (`Range.clamp_mem_hull`). A product is enclosed by the four
products of the ends (`encloses_mul`). Quotients by divisors of one sign are monotone (`encloses_tdiv_right`), so a
quotient is enclosed by those at the divisors that `Range.divisors` picks (`Range.encloses_quotients`).

Together: the result of an operator on two values of two ranges, cut to the values, lies in the operator's range
(`Operator.clamp_exact_mem`).
-/

namespace DiceNotation

/-! ## Cutting to the values -/

namespace Value

theorem clamp_toInt (v : Value) : clamp v.toInt = v := by
  have h := fits_toInt v
  rw [← Int64.toInt_inj, toInt_clamp]
  unfold Fits at h
  omega

theorem clamp_le_clamp {m n : Int} (h : m ≤ n) : clamp m ≤ clamp n := by
  rw [Int64.le_iff_toInt_le, toInt_clamp, toInt_clamp]
  omega

end Value

theorem Range.mem_iff {v : Value} {r : Range} : v ∈ r ↔ r.lo.toInt ≤ v.toInt ∧ v.toInt ≤ r.hi.toInt := by
  rw [← Int64.le_iff_toInt_le, ← Int64.le_iff_toInt_le]
  rfl

theorem Range.clamp_mem {a b x : Int} (h₁ : a ≤ x) (h₂ : x ≤ b) :
    Value.clamp x ∈ Range.mk (Value.clamp a) (Value.clamp b) :=
  ⟨Value.clamp_le_clamp h₁, Value.clamp_le_clamp h₂⟩

/-! ## Enclosed numbers -/

/-- Some member of the list is at most `x`, and some is at least `x`. -/
def Encloses (ns : List Int) (x : Int) : Prop :=
  (∃ a ∈ ns, a ≤ x) ∧ ∃ b ∈ ns, x ≤ b

theorem encloses_of_mem {ns : List Int} {x : Int} (h : x ∈ ns) : Encloses ns x :=
  ⟨⟨x, h, Int.le_refl x⟩, x, h, Int.le_refl x⟩

/-- A list encloses what is enclosed by numbers that it encloses. -/
theorem Encloses.trans {ms ns : List Int} {x : Int} (h : Encloses ms x) (hm : ∀ m ∈ ms, Encloses ns m) :
    Encloses ns x := by
  obtain ⟨⟨a, ha, hax⟩, b, hb, hxb⟩ := h
  obtain ⟨⟨a', ha', haa⟩, -⟩ := hm a ha
  obtain ⟨-, b', hb', hbb⟩ := hm b hb
  exact ⟨⟨a', ha', Int.le_trans haa hax⟩, b', hb', Int.le_trans hxb hbb⟩

theorem Encloses.mono {ms ns : List Int} {x : Int} (h : Encloses ms x) (hm : ms ⊆ ns) : Encloses ns x :=
  h.trans fun _ h => encloses_of_mem (hm h)

theorem encloses_pair {a b x : Int} (h : a ≤ x ∧ x ≤ b ∨ b ≤ x ∧ x ≤ a) : Encloses [a, b] x := by
  rcases h with ⟨h₁, h₂⟩ | ⟨h₁, h₂⟩
  · exact ⟨⟨a, by simp, h₁⟩, b, by simp, h₂⟩
  · exact ⟨⟨b, by simp, h₁⟩, a, by simp, h₂⟩

/-- The hull of a list contains what the list encloses. -/
theorem Range.clamp_mem_hull {ns : List Int} {x : Int} (h : Encloses ns x) : Value.clamp x ∈ hull ns := by
  obtain ⟨⟨a, ha, hax⟩, b, hb, hxb⟩ := h
  cases ns with
  | nil => cases ha
  | cons n ns =>
    have hlo : ns.foldl min n ≤ a := (List.le_min?_iff List.min?_cons').1 (Int.le_refl _) a ha
    have hhi : b ≤ ns.foldl max n := (List.max?_le_iff List.max?_cons').1 (Int.le_refl _) b hb
    exact clamp_mem (Int.le_trans hlo hax) (Int.le_trans hxb hhi)

/-! ## Products -/

theorem encloses_mul_right {a b x : Int} (y : Int) (h₁ : a ≤ x) (h₂ : x ≤ b) : Encloses [a * y, b * y] (x * y) := by
  apply encloses_pair
  rcases Int.le_total 0 y with hy | hy
  · exact .inl ⟨Int.mul_le_mul_of_nonneg_right h₁ hy, Int.mul_le_mul_of_nonneg_right h₂ hy⟩
  · exact .inr ⟨Int.mul_le_mul_of_nonpos_right h₂ hy, Int.mul_le_mul_of_nonpos_right h₁ hy⟩

theorem encloses_mul_left {c d y : Int} (x : Int) (h₁ : c ≤ y) (h₂ : y ≤ d) : Encloses [x * c, x * d] (x * y) := by
  rw [Int.mul_comm x c, Int.mul_comm x d, Int.mul_comm x y]
  exact encloses_mul_right x h₁ h₂

/-- A product lies between products of the ends. -/
theorem encloses_mul {a b c d x y : Int} (ha : a ≤ x) (hb : x ≤ b) (hc : c ≤ y) (hd : y ≤ d) :
    Encloses [a * c, a * d, b * c, b * d] (x * y) := by
  refine (encloses_mul_right y ha hb).trans fun m hm => ?_
  simp only [List.mem_cons, List.not_mem_nil, or_false] at hm
  rcases hm with rfl | rfl
  · exact (encloses_mul_left a hc hd).mono (by simp)
  · exact (encloses_mul_left b hc hd).mono (by simp)

/-! ## Quotients -/

theorem tdiv_le_tdiv_of_neg {a b d : Int} (hd : d < 0) (h : a ≤ b) : b.tdiv d ≤ a.tdiv d := by
  have := Int.tdiv_le_tdiv (Int.neg_pos_of_neg hd) h
  rw [Int.tdiv_neg, Int.tdiv_neg] at this
  omega

theorem encloses_tdiv_left {a b x d : Int} (ha : a ≤ x) (hb : x ≤ b) (hd : d ≠ 0) :
    Encloses [a.tdiv d, b.tdiv d] (x.tdiv d) := by
  apply encloses_pair
  rcases Int.lt_or_gt_of_ne hd with hd | hd
  · exact .inr ⟨tdiv_le_tdiv_of_neg hd hb, tdiv_le_tdiv_of_neg hd ha⟩
  · exact .inl ⟨Int.tdiv_le_tdiv hd ha, Int.tdiv_le_tdiv hd hb⟩

theorem tdiv_le_tdiv_right {n d d' : Int} (hn : 0 ≤ n) (hd : 0 < d) (h : d ≤ d') : n.tdiv d' ≤ n.tdiv d := by
  have hq : 0 ≤ n.tdiv d' := Int.tdiv_nonneg hn (by omega)
  apply Int.le_tdiv_of_mul_le hd
  calc n.tdiv d' * d ≤ n.tdiv d' * d' := Int.mul_le_mul_of_nonneg_left h hq
    _ = n / d' * d' := by rw [Int.tdiv_eq_ediv_of_nonneg hn]
    _ ≤ n := Int.ediv_mul_le n (by omega)

theorem encloses_tdiv_right_of_pos {d₁ d d₂ : Int} (n : Int) (hpos : 0 < d₁) (h₁ : d₁ ≤ d) (h₂ : d ≤ d₂) :
    Encloses [n.tdiv d₁, n.tdiv d₂] (n.tdiv d) := by
  apply encloses_pair
  rcases Int.le_total 0 n with hn | hn
  · exact .inr ⟨tdiv_le_tdiv_right hn (by omega) h₂, tdiv_le_tdiv_right hn hpos h₁⟩
  · have hn' : 0 ≤ -n := by omega
    have h₁ := tdiv_le_tdiv_right hn' hpos h₁
    have h₂ := tdiv_le_tdiv_right hn' (by omega) h₂
    simp only [Int.neg_tdiv] at h₁ h₂
    exact .inl ⟨by omega, by omega⟩

/-- Quotients are monotone in the divisor on either side of zero. -/
theorem encloses_tdiv_right {d₁ d d₂ : Int} (n : Int) (h : 0 < d₁ ∨ d₂ < 0) (h₁ : d₁ ≤ d) (h₂ : d ≤ d₂) :
    Encloses [n.tdiv d₁, n.tdiv d₂] (n.tdiv d) := by
  rcases h with hpos | hneg
  · exact encloses_tdiv_right_of_pos n hpos h₁ h₂
  · have : Encloses [(-n).tdiv (-d₂), (-n).tdiv (-d₁)] ((-n).tdiv (-d)) :=
      encloses_tdiv_right_of_pos (-n) (by omega) (by omega) (by omega)
    simp only [Int.neg_tdiv_neg] at this
    exact this.mono (by simp)

namespace Range

theorem mem_divisors {r : Range} {d : Int} :
    d ∈ r.divisors ↔ d ≠ 0 ∧ (d = r.lo.toInt ∨ d = r.hi.toInt ∨ 1 ≤ r.hi.toInt ∧ d = max r.lo.toInt 1 ∨
      r.lo.toInt ≤ -1 ∧ d = min r.hi.toInt (-1)) := by
  by_cases hhi : 1 ≤ r.hi.toInt <;> by_cases hlo : r.lo.toInt ≤ -1 <;> simp [divisors, hhi, hlo, and_comm]

/-- The divisors of the range with the sign of one of its members are enclosed by two that are picked. -/
theorem divisors_around {r : Range} {d : Value} (hd : d ∈ r) (h0 : d.toInt ≠ 0) :
    ∃ d₁ ∈ r.divisors, ∃ d₂ ∈ r.divisors, (0 < d₁ ∨ d₂ < 0) ∧ d₁ ≤ d.toInt ∧ d.toInt ≤ d₂ := by
  obtain ⟨hlo, hhi⟩ := mem_iff.1 hd
  rcases Int.lt_or_gt_of_ne h0 with hneg | hpos
  · refine ⟨r.lo.toInt, mem_divisors.2 ⟨by omega, .inl rfl⟩, min r.hi.toInt (-1), mem_divisors.2 ?_, ?_⟩
    · exact ⟨by omega, .inr (.inr (.inr ⟨by omega, rfl⟩))⟩
    · exact ⟨.inr (by omega), hlo, by omega⟩
  · refine ⟨max r.lo.toInt 1, mem_divisors.2 ?_, r.hi.toInt, mem_divisors.2 ⟨by omega, .inr (.inl rfl)⟩, ?_⟩
    · exact ⟨by omega, .inr (.inr (.inl ⟨by omega, rfl⟩))⟩
    · exact ⟨.inl (by omega), by omega, hhi⟩

theorem mem_quotients {l r : Range} {q : Int} :
    q ∈ l.quotients r ↔
      (∃ d ∈ r.divisors, q = l.lo.toInt.tdiv d ∨ q = l.hi.toInt.tdiv d) ∨ (0 : Value) ∈ r ∧ q = 0 := by
  by_cases h : (0 : Value) ∈ r <;> simp [quotients, h]

/-- A quotient lies between quotients that are picked. -/
theorem encloses_quotients {l r : Range} {a b : Value} (ha : a ∈ l) (hb : b ∈ r) :
    Encloses (l.quotients r) (a.toInt.tdiv b.toInt) := by
  by_cases h0 : b.toInt = 0
  · have hb0 : b = 0 := Int64.toInt_inj.1 h0
    subst hb0
    rw [h0, Int.tdiv_zero]
    exact encloses_of_mem (mem_quotients.2 (.inr ⟨hb, rfl⟩))
  · obtain ⟨hlo, hhi⟩ := mem_iff.1 ha
    obtain ⟨d₁, hd₁, d₂, hd₂, hsign, h₁, h₂⟩ := divisors_around hb h0
    have hend : ∀ n, n = l.lo.toInt ∨ n = l.hi.toInt → Encloses (l.quotients r) (n.tdiv b.toInt) := by
      intro n hn
      refine (encloses_tdiv_right n hsign h₁ h₂).trans fun m hm => encloses_of_mem (mem_quotients.2 (.inl ?_))
      simp only [List.mem_cons, List.not_mem_nil, or_false] at hm
      rcases hm with rfl | rfl
      · exact ⟨d₁, hd₁, by rcases hn with rfl | rfl <;> simp⟩
      · exact ⟨d₂, hd₂, by rcases hn with rfl | rfl <;> simp⟩
    refine (encloses_tdiv_left hlo hhi h0).trans fun m hm => ?_
    simp only [List.mem_cons, List.not_mem_nil, or_false] at hm
    rcases hm with rfl | rfl
    · exact hend _ (.inl rfl)
    · exact hend _ (.inr rfl)

end Range

/-! ## Operators -/

/-- The exact result of an operator on members of two ranges, cut to the values, is in the operator's range. -/
theorem Operator.clamp_exact_mem (op : Operator) {l r : Range} {a b : Value} (ha : a ∈ l) (hb : b ∈ r) :
    Value.clamp (op.exact a.toInt b.toInt) ∈ op.bounds l r := by
  obtain ⟨hal, har⟩ := Range.mem_iff.1 ha
  obtain ⟨hbl, hbr⟩ := Range.mem_iff.1 hb
  cases op with
  | add => exact Range.clamp_mem (Int.add_le_add hal hbl) (Int.add_le_add har hbr)
  | sub => exact Range.clamp_mem (Int.sub_le_sub hal hbr) (Int.sub_le_sub har hbl)
  | mul => exact Range.clamp_mem_hull (encloses_mul hal har hbl hbr)
  | div => exact Range.clamp_mem_hull (Range.encloses_quotients ha hb)

end DiceNotation
