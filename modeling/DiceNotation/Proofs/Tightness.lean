import Mathlib.Order.Bounds.Defs
import DiceNotation.Proofs.Extremes

/-!
# Bounds of one operation are exact

The results of an operator on two ranges are its exact results on all integers in them, cut to the values
(`Operator.results`). The range that is computed for the operator contains them all (`Operator.clamp_exact_mem`), and
both its ends are among them (`Operator.exists_results`): the ends of sums, differences and products are results on ends
of the ranges, and the divisors that are picked for quotients lie in the range of the divisor
(`Range.le_of_mem_divisors`).

So the computed range runs **from the least result to the greatest** (`Operator.bounds_exact`). It grows with the ranges
of the operands, since these then have more results, and it is never empty where they are not.
-/

namespace DiceNotation

namespace Range

/-- An integer in a range is a value. -/
theorem exists_mem {r : Range} {x : Int} (hlo : r.lo.toInt ≤ x) (hhi : x ≤ r.hi.toInt) : ∃ a ∈ r, a.toInt = x := by
  have hfits : Value.Fits x := by
    have hl := Value.fits_toInt r.lo
    have hh := Value.fits_toInt r.hi
    unfold Value.Fits at hl hh ⊢
    omega
  have hx := Value.toInt_ofInt_of_fits hfits
  refine ⟨Int64.ofInt x, mem_iff.2 ?_, hx⟩
  rw [hx]
  exact ⟨hlo, hhi⟩

/-- The divisors that are picked are in the range. -/
theorem le_of_mem_divisors {r : Range} {d : Int} (hr : r.lo.toInt ≤ r.hi.toInt) (hd : d ∈ r.divisors) :
    r.lo.toInt ≤ d ∧ d ≤ r.hi.toInt := by
  obtain ⟨-, hd⟩ := mem_divisors.1 hd
  omega

end Range

namespace Operator

/-- The exact results on integers in two ranges, cut to the values. -/
def results (op : Operator) (l r : Range) : Set Value :=
  {v | ∃ x y : Int, (l.lo.toInt ≤ x ∧ x ≤ l.hi.toInt) ∧ (r.lo.toInt ≤ y ∧ y ≤ r.hi.toInt) ∧
    v = Value.clamp (op.exact x y)}

variable {op : Operator} {l r : Range}

/-- All results are in the range of the operator. -/
theorem mem_bounds_of_mem_results {v : Value} (hv : v ∈ op.results l r) : v ∈ op.bounds l r := by
  obtain ⟨x, y, ⟨hxl, hxr⟩, ⟨hyl, hyr⟩, rfl⟩ := hv
  obtain ⟨a, ha, rfl⟩ := Range.exists_mem hxl hxr
  obtain ⟨b, hb, rfl⟩ := Range.exists_mem hyl hyr
  exact op.clamp_exact_mem ha hb

theorem clamp_mem_results_of_isCorner {n : Int} (hl : l.lo.toInt ≤ l.hi.toInt) (hr : r.lo.toInt ≤ r.hi.toInt)
    (h : op.IsCorner l r n) : Value.clamp n ∈ op.results l r := by
  obtain ⟨a, b, ha, hb, rfl⟩ := h
  refine ⟨a.toInt, b.toInt, ?_, ?_, rfl⟩
  · rcases ha with rfl | rfl <;> omega
  · rcases hb with rfl | rfl <;> omega

theorem clamp_mem_results_of_mem_quotients {n : Int} (hl : l.lo.toInt ≤ l.hi.toInt) (hr : r.lo.toInt ≤ r.hi.toInt)
    (h : n ∈ l.quotients r) : Value.clamp n ∈ div.results l r := by
  rcases Range.mem_quotients.1 h with ⟨d, hd, hn⟩ | ⟨hzero, rfl⟩
  · have hd := Range.le_of_mem_divisors hr hd
    rcases hn with rfl | rfl
    · exact ⟨l.lo.toInt, d, ⟨Int.le_refl _, hl⟩, hd, rfl⟩
    · exact ⟨l.hi.toInt, d, ⟨hl, Int.le_refl _⟩, hd, rfl⟩
  · refine ⟨l.lo.toInt, 0, ⟨Int.le_refl _, hl⟩, Range.mem_iff.1 hzero, ?_⟩
    rw [exact_div_zero]

/-- Both ends of the range of the operator are results. -/
theorem exists_results (op : Operator) (hl : l.lo.toInt ≤ l.hi.toInt) (hr : r.lo.toInt ≤ r.hi.toInt) :
    (op.bounds l r).lo ∈ op.results l r ∧ (op.bounds l r).hi ∈ op.results l r := by
  by_cases hdiv : op = div
  · subst hdiv
    obtain ⟨m, hm, n, hn, hbounds⟩ := Range.exists_hull (Range.quotients_ne_nil l hr)
    rw [bounds, hbounds]
    exact ⟨clamp_mem_results_of_mem_quotients hl hr hm, clamp_mem_results_of_mem_quotients hl hr hn⟩
  · obtain ⟨m, n, hm, hn, hbounds⟩ := op.exists_corners (l := l) hr fun h => absurd h hdiv
    rw [hbounds]
    exact ⟨clamp_mem_results_of_isCorner hl hr hm, clamp_mem_results_of_isCorner hl hr hn⟩

/-- The range of the operator runs from the least result to the greatest. -/
theorem isLeast_isGreatest_results (op : Operator) (hl : l.lo ≤ l.hi) (hr : r.lo ≤ r.hi) :
    IsLeast (op.results l r) (op.bounds l r).lo ∧ IsGreatest (op.results l r) (op.bounds l r).hi := by
  obtain ⟨hlo, hhi⟩ := op.exists_results (Int64.le_iff_toInt_le.1 hl) (Int64.le_iff_toInt_le.1 hr)
  exact ⟨⟨hlo, fun _ hv => (mem_bounds_of_mem_results hv).1⟩, hhi, fun _ hv => (mem_bounds_of_mem_results hv).2⟩

theorem results_mono {l' r' : Range} (hl : l'.lo ≤ l.lo ∧ l.hi ≤ l'.hi) (hr : r'.lo ≤ r.lo ∧ r.hi ≤ r'.hi) :
    op.results l r ⊆ op.results l' r' := by
  simp only [Int64.le_iff_toInt_le] at hl hr
  rintro v ⟨x, y, hx, hy, rfl⟩
  exact ⟨x, y, by omega, by omega, rfl⟩

end Operator

/-- The bounds of an expression whose dice have sides are in order. -/
theorem Expr.bounds_lo_le_hi {e : Expr} (h : ∀ s ∈ e.parts, s.isSideless = false) : e.bounds.lo ≤ e.bounds.hi := by
  induction e with
  | const v => exact Int64.le_refl v
  | dice count sides =>
    have hsides : sides ≠ 0 := by simpa [isSideless] using h _ (self_mem_parts _)
    have hpos : 0 < sides.toNat := UInt32.lt_iff_toNat_lt.1 (UInt32.pos_iff_ne_zero.2 hsides)
    have hle : (count.toNat : Int) ≤ count.toNat * sides.toNat := by exact_mod_cast Nat.le_mul_of_pos_right _ hpos
    simp only [bounds]
    exact Value.clamp_le_clamp hle
  | binary op l r ihl ihr =>
    obtain ⟨hl, hr, -⟩ := forall_parts_binary.1 h
    obtain ⟨hleast, hgreatest⟩ := op.isLeast_isGreatest_results (ihl hl) (ihr hr)
    exact hleast.2 hgreatest.1

/-- **The bounds of one operation are exact**: they are the least and the greatest result on all integers in the ranges
of the operands, cut to the values. So there is always a quotient to choose from, wider operands never make the bounds
narrower, and the bounds of every expression whose dice have sides are in order. -/
theorem Operator.bounds_exact :
    (∀ (op : Operator) (l r : Range), l.lo ≤ l.hi → r.lo ≤ r.hi →
      IsLeast (op.results l r) (op.bounds l r).lo ∧ IsGreatest (op.results l r) (op.bounds l r).hi) ∧
    (∀ l r : Range, r.lo ≤ r.hi → l.quotients r ≠ []) ∧
    (∀ (op : Operator) (l r l' r' : Range), l.lo ≤ l.hi → r.lo ≤ r.hi →
      l'.lo ≤ l.lo ∧ l.hi ≤ l'.hi → r'.lo ≤ r.lo ∧ r.hi ≤ r'.hi →
        (op.bounds l' r').lo ≤ (op.bounds l r).lo ∧ (op.bounds l r).hi ≤ (op.bounds l' r').hi) ∧
    ∀ e : Expr, (∀ s ∈ e.parts, s.isSideless = false) → e.bounds.lo ≤ e.bounds.hi := by
  refine ⟨fun op l r hl hr => op.isLeast_isGreatest_results hl hr,
    fun l r hr => Range.quotients_ne_nil l (Int64.le_iff_toInt_le.1 hr), ?_, fun e h => e.bounds_lo_le_hi h⟩
  intro op l r l' r' hl hr hll hrr
  obtain ⟨hlo, hhi⟩ := op.exists_results (Int64.le_iff_toInt_le.1 hl) (Int64.le_iff_toInt_le.1 hr)
  have hsubset : op.results l r ⊆ op.results l' r' := results_mono hll hrr
  exact ⟨(mem_bounds_of_mem_results (hsubset hlo)).1, (mem_bounds_of_mem_results (hsubset hhi)).2⟩

/-- The least value divided by -1 is cut to the greatest value, and by 1 it is the least result. -/
theorem Operator.leastValue_bounds_exact :
    IsLeast (div.results ⟨Int64.minValue, 7⟩ ⟨-1, 2⟩) Int64.minValue ∧
      IsGreatest (div.results ⟨Int64.minValue, 7⟩ ⟨-1, 2⟩) Int64.maxValue ∧
      Range.quotients ⟨Int64.minValue, 7⟩ ⟨-1, 2⟩ ≠ [] ∧
      (div.bounds ⟨-12, 7⟩ ⟨-1, 2⟩).lo ≤ (div.bounds ⟨-5, 7⟩ ⟨1, 2⟩).lo ∧
      (div.bounds ⟨-5, 7⟩ ⟨1, 2⟩).hi ≤ (div.bounds ⟨-12, 7⟩ ⟨-1, 2⟩).hi ∧
      Expr.shiftedQuotient.bounds.lo ≤ Expr.shiftedQuotient.bounds.hi := by
  have hbounds : div.bounds ⟨Int64.minValue, 7⟩ ⟨-1, 2⟩ = ⟨Int64.minValue, Int64.maxValue⟩ := by decide +kernel
  obtain ⟨hexact, hquotients, hwider, hordered⟩ := bounds_exact
  have hends := hexact div ⟨Int64.minValue, 7⟩ ⟨-1, 2⟩ (by decide) (by decide)
  have hwide := hwider div ⟨-5, 7⟩ ⟨1, 2⟩ ⟨-12, 7⟩ ⟨-1, 2⟩ (by decide) (by decide) (by decide) (by decide)
  rw [hbounds] at hends
  exact ⟨hends.1, hends.2, hquotients _ _ (by decide), hwide.1, hwide.2, hordered _ (by decide)⟩

end DiceNotation
