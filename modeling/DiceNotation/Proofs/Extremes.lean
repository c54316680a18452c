import DiceNotation.Proofs.Overflow

/-!
# Bounds are attained

A value is attained by an expression if some words make a roll of it come out (`Expr.Attains`); what follows the words
does not matter. So the words of two operands can be put one after the other, and an operation attains its exact result
on any values that its operands attain (`Attains.binary`).

Sums, differences and products are extreme at ends of the ranges of their operands, and so are quotients if zero is no
divisor or the only one (`Operator.exists_corners`). **An unsaturated expression with such divisors attains both its
bounds** (`rolls_attain_bounds`), by induction on the expression.
-/

namespace DiceNotation

/-! ## Extreme results -/

namespace Range

/-- One of the two ends. -/
def IsEnd (r : Range) (v : Value) : Prop :=
  v = r.lo ∨ v = r.hi

/-- Zero is not in the range, or it is all of it. -/
def IsDefinite (r : Range) : Prop :=
  (0 : Value) ∉ r ∨ r = ⟨0, 0⟩

instance (r : Range) : Decidable r.IsDefinite :=
  inferInstanceAs (Decidable (_ ∨ _))

theorem eq_of_isEnd {r : Range} {v : Value} (hr : r.lo = r.hi) (hv : r.IsEnd v) : v = r.lo :=
  hv.elim id fun h => h.trans hr.symm

theorem exists_hull {ns : List Int} (h : ns ≠ []) :
    ∃ m ∈ ns, ∃ n ∈ ns, hull ns = ⟨Value.clamp m, Value.clamp n⟩ := by
  cases ns with
  | nil => exact absurd rfl h
  | cons n ns => exact ⟨_, List.min?_mem List.min?_cons', _, List.max?_mem List.max?_cons', rfl⟩

/-- In a definite range the divisors that are picked are ends of the range. -/
theorem exists_end_of_mem_divisors {r : Range} {d : Int} (hr : r.lo.toInt ≤ r.hi.toInt) (hdef : r.IsDefinite)
    (hd : d ∈ r.divisors) : ∃ b, r.IsEnd b ∧ d = b.toInt := by
  obtain ⟨h0, hd⟩ := mem_divisors.1 hd
  rcases hdef with hzero | rfl
  · have hsign : ¬ (r.lo.toInt ≤ 0 ∧ 0 ≤ r.hi.toInt) := fun h => hzero (mem_iff.2 h)
    rcases hd with hd | hd | ⟨hhi, hd⟩ | ⟨hlo, hd⟩
    · exact ⟨r.lo, .inl rfl, hd⟩
    · exact ⟨r.hi, .inr rfl, hd⟩
    · exact ⟨r.lo, .inl rfl, by omega⟩
    · exact ⟨r.hi, .inr rfl, by omega⟩
  · rcases hd with hd | hd | ⟨hhi, -⟩ | ⟨hlo, -⟩
    · exact absurd hd h0
    · exact absurd hd h0
    · exact absurd hhi (by decide)
    · exact absurd hlo (by decide)

/-- There is always a quotient: the one by the least divisor, or zero. -/
theorem quotients_ne_nil (l : Range) {r : Range} (hr : r.lo.toInt ≤ r.hi.toInt) : l.quotients r ≠ [] := by
  by_cases hzero : (0 : Value) ∈ r
  · exact List.ne_nil_of_mem (mem_quotients.2 (.inr ⟨hzero, rfl⟩))
  · have hlo : r.lo.toInt ≠ 0 := by
      intro h0
      have hle : r.lo.toInt ≤ 0 ∧ 0 ≤ r.hi.toInt := by omega
      exact hzero (mem_iff.2 hle)
    exact List.ne_nil_of_mem (mem_quotients.2 (.inl ⟨_, mem_divisors.2 ⟨hlo, .inl rfl⟩, .inl rfl⟩))

end Range

namespace Operator

/-- The exact result on ends of two ranges. -/
def IsCorner (op : Operator) (l r : Range) (n : Int) : Prop :=
  ∃ a b, l.IsEnd a ∧ r.IsEnd b ∧ n = op.exact a.toInt b.toInt

variable {l r : Range} {n : Int}

theorem isCorner_of_mem_products
    (h : n ∈ [l.lo.toInt * r.lo.toInt, l.lo.toInt * r.hi.toInt, l.hi.toInt * r.lo.toInt, l.hi.toInt * r.hi.toInt]) :
    mul.IsCorner l r n := by
  simp only [List.mem_cons, List.not_mem_nil, or_false] at h
  rcases h with rfl | rfl | rfl | rfl
  · exact ⟨l.lo, r.lo, .inl rfl, .inl rfl, rfl⟩
  · exact ⟨l.lo, r.hi, .inl rfl, .inr rfl, rfl⟩
  · exact ⟨l.hi, r.lo, .inr rfl, .inl rfl, rfl⟩
  · exact ⟨l.hi, r.hi, .inr rfl, .inr rfl, rfl⟩

theorem isCorner_of_mem_quotients (hr : r.lo.toInt ≤ r.hi.toInt) (hdef : r.IsDefinite) (h : n ∈ l.quotients r) :
    div.IsCorner l r n := by
  rcases Range.mem_quotients.1 h with ⟨d, hd, hn⟩ | ⟨hzero, rfl⟩
  · obtain ⟨b, hb, rfl⟩ := Range.exists_end_of_mem_divisors hr hdef hd
    rcases hn with rfl | rfl
    · exact ⟨l.lo, b, .inl rfl, hb, rfl⟩
    · exact ⟨l.hi, b, .inr rfl, hb, rfl⟩
  · -- Zero is in the range, so it is all of it.
    obtain rfl := hdef.resolve_left fun h => h hzero
    exact ⟨l.lo, 0, .inl rfl, .inl rfl, (exact_div_zero _).symm⟩

/-- The ends of the range of an operator are corners, cut to the values. -/
theorem exists_corners (op : Operator) (hr : r.lo.toInt ≤ r.hi.toInt) (hdef : op = div → r.IsDefinite) :
    ∃ m n, op.IsCorner l r m ∧ op.IsCorner l r n ∧ op.bounds l r = ⟨Value.clamp m, Value.clamp n⟩ := by
  cases op with
  | add => exact ⟨_, _, ⟨l.lo, r.lo, .inl rfl, .inl rfl, rfl⟩, ⟨l.hi, r.hi, .inr rfl, .inr rfl, rfl⟩, rfl⟩
  | sub => exact ⟨_, _, ⟨l.lo, r.hi, .inl rfl, .inr rfl, rfl⟩, ⟨l.hi, r.lo, .inr rfl, .inl rfl, rfl⟩, rfl⟩
  | mul =>
    obtain ⟨m, hm, n, hn, hbounds⟩ := Range.exists_hull (List.cons_ne_nil (l.lo.toInt * r.lo.toInt)
      [l.lo.toInt * r.hi.toInt, l.hi.toInt * r.lo.toInt, l.hi.toInt * r.hi.toInt])
    exact ⟨m, n, isCorner_of_mem_products hm, isCorner_of_mem_products hn, hbounds⟩
  | div =>
    have hdef := hdef rfl
    obtain ⟨m, hm, n, hn, hbounds⟩ := Range.exists_hull (Range.quotients_ne_nil l hr)
    exact ⟨m, n, isCorner_of_mem_quotients hr hdef hm, isCorner_of_mem_quotients hr hdef hn, hbounds⟩

end Operator

/-! ## Words for faces -/

namespace Die

/-- A word whose low part is less than the number of sides counts. -/
theorem face?_of_low_lt {sides : UInt32} {w : UInt64} (h : w.toNat * sides.toNat % UInt64.size < sides.toNat) :
    face? sides w = some (face sides w) := by
  have hs := sides.toNat_lt
  have hpos : 0 < sides := UInt32.lt_iff_toNat_lt.2 (Nat.lt_of_le_of_lt (Nat.zero_le _) h)
  have hreject : (reject sides).toNat < sides.toNat := by
    rw [toNat_reject hpos]
    exact Nat.mod_lt _ (UInt32.lt_iff_toNat_lt.1 hpos)
  have hmax : (0xffffffffffffffff : UInt64).toNat = 0xffffffffffffffff := rfl
  have hcounts : low sides w ≤ 0xffffffffffffffff - reject sides := by
    have hle : reject sides ≤ 0xffffffffffffffff := by
      rw [UInt64.le_iff_toNat_le, hmax]
      omega
    rw [UInt64.le_iff_toNat_le, toNat_low, UInt64.toNat_sub_of_le _ _ hle, hmax]
    omega
  rw [face?, if_pos hcounts]

/-- Every face is shown by a word that counts: the least one whose product with the sides is large enough. -/
theorem exists_word {sides : UInt32} {n : Nat} (h1 : 1 ≤ n) (hn : n ≤ sides.toNat) : ∃ w, face? sides w = some n := by
  have hs := sides.toNat_lt
  have hpos : 0 < sides.toNat := Nat.lt_of_lt_of_le h1 hn
  obtain ⟨x, hle, hlt⟩ : ∃ x, (n - 1) * UInt64.size ≤ x * sides.toNat ∧
      x * sides.toNat < (n - 1) * UInt64.size + sides.toNat := by
    generalize (n - 1) * UInt64.size = k
    refine ⟨(k + (sides.toNat - 1)) / sides.toNat, ?_⟩
    have hdiv := Nat.div_add_mod (k + (sides.toNat - 1)) sides.toNat
    have hmod := Nat.mod_lt (k + (sides.toNat - 1)) hpos
    rw [Nat.mul_comm]
    omega
  have hx : x < UInt64.size := by
    apply Nat.lt_of_mul_lt_mul_right (a := sides.toNat)
    rw [UInt64.size] at hlt ⊢
    omega
  have htoNat : (UInt64.ofNat x).toNat = x := UInt64.toNat_ofNat_of_lt' hx
  rw [UInt64.size] at hle hlt
  refine ⟨UInt64.ofNat x, ?_⟩
  rw [face?_of_low_lt, face_eq, htoNat]
  · rw [UInt64.size]
    congr 1
    omega
  · rw [htoNat, UInt64.size]
    omega

theorem rollWithin_of_refused {sides : UInt32} {n : Nat} {w : UInt64} {refused : List UInt64}
    (hrefused : ∀ u ∈ refused, face? sides u = none) (hw : face? sides w = some n) {refusals : Nat}
    (hlen : refused.length ≤ refusals) (all rest : List UInt64) :
    rollWithin sides refusals (⟨all, refused ++ w :: rest⟩ : Cycle) = (n, ⟨all, rest⟩) := by
  induction refused generalizing refusals with
  | nil =>
    have hnext : WordSource.next (⟨all, [] ++ w :: rest⟩ : Cycle) = (w, ⟨all, rest⟩) := rfl
    cases refusals with
    | zero =>
      rw [rollWithin, hnext]
      simp [face?_eq_some hw]
    | succ refusals =>
      rw [rollWithin, hnext]
      simp [hw]
  | cons u refused ih =>
    obtain ⟨hu, hrefused⟩ := List.forall_mem_cons.1 hrefused
    have hnext : WordSource.next (⟨all, u :: refused ++ w :: rest⟩ : Cycle) = (u, ⟨all, refused ++ w :: rest⟩) := rfl
    cases refusals with
    | zero => cases hlen
    | succ refusals =>
      rw [rollWithin, hnext]
      simp only [hu]
      exact ih hrefused (Nat.le_of_succ_le_succ hlen)

/-- The first word that counts decides the die. -/
theorem roll_of_refused {sides : UInt32} {n : Nat} {w : UInt64} {refused all : List UInt64}
    (hrefused : ∀ u ∈ refused, face? sides u = none) (hw : face? sides w = some n) (hlen : refused.length ≤ all.length)
    (rest : List UInt64) : roll sides (⟨all, refused ++ w :: rest⟩ : Cycle) = (n, ⟨all, rest⟩) :=
  rollWithin_of_refused hrefused hw hlen all rest

theorem roll_of_face? {sides : UInt32} {n : Nat} {w : UInt64} (h : face? sides w = some n) (all rest : List UInt64) :
    roll sides (⟨all, w :: rest⟩ : Cycle) = (n, ⟨all, rest⟩) :=
  have hnone : ∀ u ∈ [], face? sides u = none := by simp
  roll_of_refused hnone h (Nat.zero_le _) rest

end Die

/-! ## Attained values -/

open Rolling

/-- Dice that get the same word all show its face. -/
theorem Die.Shows.replicate_eq {sides : UInt32} {n : Nat} {w : UInt64} (hw : Die.face? sides w = some n) {count : Nat}
    {all rest : List UInt64} {faces : List Nat} {g : Cycle}
    (h : Die.Shows (List.replicate count sides) ⟨all, List.replicate count w ++ rest⟩ faces g) :
    faces = List.replicate count n ∧ g = ⟨all, rest⟩ := by
  induction count generalizing faces with
  | zero =>
    cases h
    exact ⟨rfl, rfl⟩
  | succ count ih =>
    rw [List.replicate_succ, List.replicate_succ, List.cons_append] at h
    cases h with
    | cons hroll _ hshows =>
      rw [Die.roll_of_face? hw] at hroll
      cases hroll
      obtain ⟨rfl, rfl⟩ := ih hshows
      exact ⟨rfl, rfl⟩

theorem Evaluation.total_replicate (count n : Nat) : total (List.replicate count n) = count * n := by
  induction count with
  | zero => simp
  | succ count ih => rw [List.replicate_succ, total_cons, ih, Nat.succ_mul, Nat.add_comm]

namespace Expr

/-- Some words make a roll come out as `v`, whatever follows them. -/
def Attains (e : Expr) (v : Value) : Prop :=
  ∃ words, ∀ all rest polls, ∃ trace polls', eval e ⟨⟨all, words ++ rest⟩, Timer.never, polls⟩ =
    (.ok ⟨v, trace⟩, (⟨⟨all, rest⟩, Timer.never, polls'⟩ : TimedSource Cycle))

theorem attains_const (v : Value) : (const v).Attains v :=
  ⟨[], fun _ _ polls => ⟨_, polls + 1, rfl⟩⟩

theorem attains_dice {count sides : UInt32} {n : Nat} {v : Value} (h1 : 1 ≤ n) (hn : n ≤ sides.toNat)
    (hv : v.toInt = count.toNat * n) : (dice count sides).Attains v := by
  have hs : 0 < sides := UInt32.lt_iff_toNat_lt.2 (Nat.lt_of_lt_of_le h1 hn)
  obtain ⟨w, hw⟩ := Die.exists_word h1 hn
  refine ⟨List.replicate count.toNat w, ?_⟩
  intro all rest polls
  obtain ⟨faces, g', polls', hthrow, hshows⟩ :=
    throwDice_never hs count.toNat 0 [] (⟨all, List.replicate count.toNat w ++ rest⟩ : Cycle) (polls + 1)
  obtain ⟨rfl, rfl⟩ := hshows.replicate_eq hw
  have htotal : ((Evaluation.total (List.replicate count.toNat n) : Nat) : Int) = v.toInt := by
    rw [Evaluation.total_replicate, hv, Int.natCast_mul]
  have hnumber := Evaluation.number_ofFaces (List.replicate count.toNat n)
  rw [htotal] at hnumber
  obtain ⟨trace, hresult⟩ := Evaluation.ok_of_number hnumber
  refine ⟨trace, polls', ?_⟩
  rw [eval_dice, bind_of_ok (checkTime_never _ polls), if_neg (UInt32.pos_iff_ne_zero.1 hs), bind_of_ok hthrow,
    run_liftExcept]
  exact Prod.ext hresult rfl

theorem Attains.binary {op : Operator} {l r : Expr} {a b v : Value} (hl : l.Attains a) (hr : r.Attains b)
    (hv : v.toInt = op.exact a.toInt b.toInt) : (binary op l r).Attains v := by
  obtain ⟨words, hl⟩ := hl
  obtain ⟨words', hr⟩ := hr
  refine ⟨words ++ words', ?_⟩
  intro all rest polls
  rw [List.append_assoc]
  obtain ⟨trace, polls₁, hl⟩ := hl all (words' ++ rest) (polls + 1)
  obtain ⟨trace', polls₂, hr⟩ := hr all rest polls₁
  have hnumber := Evaluation.number_join op ⟨a, trace⟩ ⟨b, trace'⟩
  rw [← hv] at hnumber
  obtain ⟨trace'', hresult⟩ := Evaluation.ok_of_number hnumber
  refine ⟨trace'', polls₂, ?_⟩
  rw [eval, bind_of_ok (checkTime_never _ polls), bind_of_ok hl, bind_of_ok hr, run_liftExcept, hresult]

theorem Attains.mem_bounds {e : Expr} {v : Value} (h : e.Attains v) : v ∈ e.bounds := by
  obtain ⟨words, h⟩ := h
  obtain ⟨trace, polls, heval⟩ := h [] [] 0
  exact eval_mem_bounds heval

theorem Attains.roll {e : Expr} {v : Value} (h : e.Attains v) :
    ∃ words w, (e.roll (Cycle.ofList words)).1 = .ok w ∧ w.value = v := by
  obtain ⟨words, h⟩ := h
  obtain ⟨trace, polls, heval⟩ := h words [] 0
  rw [List.append_nil] at heval
  refine ⟨words, ⟨v, trace⟩, ?_, rfl⟩
  rw [Expr.roll, rollTimed, Cycle.ofList, heval]

/-! ## Extreme rolls -/

/-- The divisor of a division. -/
def divisor? : Expr → Option Expr
  | binary .div _ r => some r
  | _ => none

def HasDefiniteDivisors (e : Expr) : Prop :=
  ∀ s ∈ e.parts, ∀ d ∈ s.divisor?, d.bounds.IsDefinite

instance (e : Expr) : Decidable e.HasDefiniteDivisors :=
  inferInstanceAs (Decidable (∀ s ∈ e.parts, ∀ d ∈ s.divisor?, d.bounds.IsDefinite))

theorem hasDefiniteDivisors_binary {op : Operator} {l r : Expr} (h : (binary op l r).HasDefiniteDivisors) :
    l.HasDefiniteDivisors ∧ r.HasDefiniteDivisors ∧ (op = .div → r.bounds.IsDefinite) := by
  obtain ⟨hl, hr, hself⟩ := forall_parts_binary.1 h
  refine ⟨hl, hr, ?_⟩
  rintro rfl
  exact hself r rfl

/-- Dice that show the same whatever is thrown. -/
def isSettled : Expr → Bool
  | dice count sides => count == 0 || sides == 1
  | _ => true

theorem attains_clamp_dice {count sides : UInt32} {n : Nat} (hinner : (dice count sides).bounds.IsInner) (h1 : 1 ≤ n)
    (hn : n ≤ sides.toNat) : (dice count sides).Attains (Value.clamp (count.toNat * n)) := by
  have hlo : count.toNat ≤ count.toNat * n := Nat.le_mul_of_pos_right _ h1
  have hhi : count.toNat * n ≤ count.toNat * sides.toNat := Nat.mul_le_mul_left _ hn
  have hmem : Value.clamp (count.toNat * n) ∈ (dice count sides).bounds :=
    Range.clamp_mem (by exact_mod_cast hlo) (by exact_mod_cast hhi)
  exact attains_dice h1 hn (Range.toInt_clamp_of_mem hinner hmem)

/-- A corner of the ranges of two operands is attained if they attain their bounds. -/
theorem attains_clamp_corner {op : Operator} {l r : Expr} {n : Int} (hcorner : op.IsCorner l.bounds r.bounds n)
    (hinner : (binary op l r).bounds.IsInner) (hl : ∀ v, l.bounds.IsEnd v → l.Attains v)
    (hr : ∀ v, r.bounds.IsEnd v → r.Attains v) : (binary op l r).Attains (Value.clamp n) := by
  obtain ⟨a, b, ha, hb, rfl⟩ := hcorner
  have ha := hl a ha
  have hb := hr b hb
  exact ha.binary hb (Range.toInt_clamp_of_mem hinner (op.clamp_exact_mem ha.mem_bounds hb.mem_bounds))

theorem attains_of_isEnd {e : Expr} (h : e.IsUnsaturated) (hdef : e.HasDefiniteDivisors) {v : Value}
    (hv : e.bounds.IsEnd v) : e.Attains v := by
  induction e generalizing v with
  | const value =>
    obtain rfl : v = value := hv.elim id id
    exact attains_const v
  | dice count sides =>
    have hs : 1 ≤ sides.toNat := UInt32.lt_iff_toNat_lt.1 h.sides_pos
    simp only [Range.IsEnd, bounds] at hv
    rcases hv with hv | hv
    · rw [hv]
      have hlo := attains_clamp_dice h.inner_self (Nat.le_refl 1) hs
      rwa [Int.natCast_one, Int.mul_one] at hlo
    · rw [hv]
      exact attains_clamp_dice h.inner_self hs (Nat.le_refl sides.toNat)
  | binary op l r ihl ihr =>
    obtain ⟨hl, hr, hinner⟩ := isUnsaturated_binary h
    obtain ⟨hdefl, hdefr, hdiv⟩ := hasDefiniteDivisors_binary hdef
    have hl : ∀ v, l.bounds.IsEnd v → l.Attains v := fun v => ihl hl hdefl
    have hr : ∀ v, r.bounds.IsEnd v → r.Attains v := fun v => ihr hr hdefr
    have hle : r.bounds.lo.toInt ≤ r.bounds.hi.toInt := (Range.mem_iff.1 (hr _ (.inl rfl)).mem_bounds).2
    obtain ⟨m, n, hm, hn, hbounds⟩ := op.exists_corners (l := l.bounds) hle hdiv
    have hbounds : (binary op l r).bounds = ⟨Value.clamp m, Value.clamp n⟩ := hbounds
    rw [hbounds] at hv
    rcases hv with rfl | rfl
    · exact attains_clamp_corner hm hinner hl hr
    · exact attains_clamp_corner hn hinner hl hr

/-- Settled dice leave one value within the bounds. -/
theorem bounds_of_isSettled {e : Expr} (hdef : e.HasDefiniteDivisors)
    (hsettled : ∀ s ∈ e.parts, s.isSettled = true) : e.bounds.lo = e.bounds.hi := by
  induction e with
  | const v => rfl
  | dice count sides =>
    have hsettled := hsettled _ (self_mem_parts _)
    simp only [isSettled, Bool.or_eq_true, beq_iff_eq] at hsettled
    rcases hsettled with rfl | rfl
    · simp [bounds]
    · simp [bounds]
  | binary op l r ihl ihr =>
    obtain ⟨hdefl, hdefr, hdiv⟩ := hasDefiniteDivisors_binary hdef
    obtain ⟨hsettledl, hsettledr, -⟩ := forall_parts_binary.1 hsettled
    have ihl := ihl hdefl hsettledl
    have ihr := ihr hdefr hsettledr
    have hle : r.bounds.lo.toInt ≤ r.bounds.hi.toInt := Int.le_of_eq (congrArg Int64.toInt ihr)
    obtain ⟨m, n, ⟨a, b, ha, hb, rfl⟩, ⟨a', b', ha', hb', rfl⟩, hbounds⟩ := op.exists_corners (l := l.bounds) hle hdiv
    have hbounds : (binary op l r).bounds = ⟨_, _⟩ := hbounds
    obtain rfl : a = a' := by rw [Range.eq_of_isEnd ihl ha, Range.eq_of_isEnd ihl ha']
    obtain rfl : b = b' := by rw [Range.eq_of_isEnd ihr hb, Range.eq_of_isEnd ihr hb']
    rw [hbounds]

/-- `(2d6 - 5) * (1d4 - 3) / (1d3 - 4)`: the least product is that of the greatest factor on the left with the least on
the right, and divided by the greatest divisor it is the greatest quotient. -/
def shiftedQuotient : Expr :=
  .binary .div
    (.binary .mul (.binary .sub (.dice 2 6) (.const 5)) (.binary .sub (.dice 1 4) (.const 3)))
    (.binary .sub (.dice 1 3) (.const 4))

/-- `(3d1 + 0d20) / (2d1 - 2)`. -/
def settledQuotient : Expr :=
  .binary .div (.binary .add (.dice 3 1) (.dice 0 20)) (.binary .sub (.dice 2 1) (.const 2))

end Expr

end DiceNotation
