import Mathlib.Algebra.BigOperators.Group.List.Lemmas
import Mathlib.Algebra.GroupWithZero.Nat
import DiceNotation.Proofs.Bounds
import DiceNotation.Proofs.ZeroDivisions

/-!
# Histograms are faithful

Rolling with one source after the other ends at the first failure (`samples_of_failure`) or gives the results of all
sources in order (`samples_of_ok`). The tally of their values lists each value once, in ascending order, with the number
of times that it came up (`pairwise_tally`, `mem_tally_iff`).

**So the printed histogram says what was rolled, and a failure prints nothing else** (`run_faithful`).
-/

namespace DiceNotation.Histogram

/-! ## The tally -/

section

variable {v : Value} {n : Nat} {values : List Value}

/-- The head of an ascending list is in the rest only if it heads the rest's distinct values. -/
theorem dedup_head_eq {w : Value} {rest : List Value} (h : (v :: values).Pairwise (· ≤ ·)) (hmem : v ∈ values)
    (hdedup : values.dedup = w :: rest) : v = w := by
  obtain ⟨hle, hvalues⟩ := List.pairwise_cons.1 h
  have hsorted : (w :: rest).Pairwise (· ≤ ·) := hdedup ▸ hvalues.sublist (List.dedup_sublist values)
  have hw : w ∈ values := by rw [← List.mem_dedup, hdedup]; exact List.mem_cons_self
  rw [← List.mem_dedup, hdedup] at hmem
  rcases List.mem_cons.1 hmem with hsame | hmem
  · exact hsame
  · exact Int64.le_antisymm (hle w hw) ((List.pairwise_cons.1 hsorted).1 v hmem)

/-- The tally of an ascending list has its distinct values with their counts. -/
theorem tallySorted_eq (h : values.Pairwise (· ≤ ·)) :
    tallySorted values = values.dedup.map fun v => (v, values.count v) := by
  induction values with
  | nil => rfl
  | cons v values ih =>
    have hother : ∀ ws : List Value, v ∉ ws →
        ws.map (fun w => (w, (v :: values).count w)) = ws.map fun w => (w, values.count w) := by
      intro ws hv
      refine List.map_congr_left fun w hw => ?_
      have hne : v ≠ w := fun hsame => hv (hsame ▸ hw)
      rw [List.count_cons_of_ne hne]
    have ih := ih (List.pairwise_cons.1 h).2
    rw [tallySorted]
    cases hdedup : values.dedup with
    | nil =>
      obtain rfl := (List.dedup_eq_nil values).1 hdedup
      simp [tallySorted]
    | cons w rest =>
      rw [hdedup, List.map_cons] at ih
      rw [ih]
      by_cases hmem : v ∈ values
      · obtain rfl := dedup_head_eq h hmem hdedup
        have hnodup : v ∉ rest := (List.nodup_cons.1 (hdedup ▸ List.nodup_dedup values)).1
        rw [List.dedup_cons_of_mem hmem, hdedup, List.map_cons, List.count_cons_self, hother rest hnodup]
        exact if_pos rfl
      · have hne : v ≠ w := fun hsame => hmem (List.mem_dedup.1 (by rw [hdedup, hsame]; exact List.mem_cons_self))
        have hnew : v ∉ w :: rest := by rwa [← hdedup, List.mem_dedup]
        rw [List.dedup_cons_of_notMem hmem, hdedup, List.map_cons, List.count_cons_self, List.count_eq_zero.2 hmem,
          hother _ hnew]
        exact if_neg hne

theorem pairwise_mergeSort (values : List Value) : (values.mergeSort (· ≤ ·)).Pairwise (· ≤ ·) := by
  refine (List.pairwise_mergeSort ?_ ?_ values).imp of_decide_eq_true
  · intro a b c hab hbc
    exact decide_eq_true (Int64.le_trans (of_decide_eq_true hab) (of_decide_eq_true hbc))
  · intro a b
    simpa using Int64.le_total a b

theorem count_mergeSort (values : List Value) (v : Value) : (values.mergeSort (· ≤ ·)).count v = values.count v :=
  (List.mergeSort_perm values _).count_eq v

theorem tally_eq (values : List Value) :
    tally values = (values.mergeSort (· ≤ ·)).dedup.map fun v => (v, values.count v) := by
  rw [tally, tallySorted_eq (pairwise_mergeSort values)]
  simp only [count_mergeSort]

theorem pairwise_tally (values : List Value) : (tally values).Pairwise fun a b => a.1 < b.1 := by
  rw [tally_eq, List.pairwise_map]
  have hsorted := (pairwise_mergeSort values).sublist (List.dedup_sublist _)
  exact (hsorted.and (List.nodup_dedup _)).imp fun h => Int64.lt_of_le_of_ne h.1 h.2

/-- The tally has one row for each value. -/
theorem mem_tally_iff : (v, n) ∈ tally values ↔ 0 < n ∧ n = values.count v := by
  have hmem : v ∈ (values.mergeSort (· ≤ ·)).dedup ↔ 0 < values.count v := by
    rw [List.mem_dedup, List.mem_mergeSort, List.count_pos_iff]
  simp only [tally_eq, List.mem_map, Prod.mk.injEq]
  constructor
  · rintro ⟨_, hv, rfl, rfl⟩
    exact ⟨hmem.1 hv, rfl⟩
  · rintro ⟨hpos, rfl⟩
    exact ⟨v, hmem.2 hpos, rfl, rfl⟩

theorem sum_tally (values : List Value) : ((tally values).map Prod.snd).sum = values.length := by
  have hsum := List.sum_map_count_dedup_eq_length (values.mergeSort (· ≤ ·))
  simp only [count_mergeSort, List.length_mergeSort] at hsum
  rw [tally_eq, List.map_map]
  exact hsum

end

/-! ## The samples -/

section

variable {ε α β : Type} {f : α → Except ε β}

theorem mapM_of_ok {as : List α} (h : ∀ a ∈ as, ∃ b, f a = .ok b) :
    ∃ bs, as.mapM f = .ok bs ∧ as.map f = bs.map .ok := by
  induction as with
  | nil => exact ⟨[], rfl, rfl⟩
  | cons a as ih =>
    obtain ⟨b, hb⟩ := h a List.mem_cons_self
    obtain ⟨bs, hbs, hmap⟩ := ih fun a ha => h a (List.mem_cons_of_mem _ ha)
    refine ⟨b :: bs, ?_, by rw [List.map_cons, List.map_cons, hb, hmap]⟩
    rw [List.mapM_cons, hb, hbs]
    rfl

theorem mapM_of_error {before after : List α} {a : α} {error : ε} (h : ∀ a ∈ before, ∃ b, f a = .ok b)
    (ha : f a = .error error) : (before ++ a :: after).mapM f = .error error := by
  induction before with
  | nil =>
    rw [List.nil_append, List.mapM_cons, ha]
    rfl
  | cons first before ih =>
    obtain ⟨b, hb⟩ := h first List.mem_cons_self
    rw [List.cons_append, List.mapM_cons, hb, ih fun a ha => h a (List.mem_cons_of_mem _ ha)]
    rfl

end

variable {γ : Type} [WordSource γ] {e : Expr} {sources : Nat → γ} {count : Nat}

theorem samples_of_failure {i : Nat} {error : EvalError} (hi : i < count)
    (hbefore : ∀ j < i, ∃ v, (e.roll (sources j)).1 = .ok v) (herror : (e.roll (sources i)).1 = .error error) :
    samples e sources count = .error error := by
  obtain ⟨more, rfl⟩ := Nat.exists_eq_add_of_lt hi
  rw [samples, Nat.add_assoc, List.range_add, List.range_succ_eq_map, List.map_cons]
  exact mapM_of_error (fun j hj => hbefore j (List.mem_range.1 hj)) herror

/-- These are the results of rolling once with each source. -/
def Samples (e : Expr) (sources : Nat → γ) (count : Nat) (rolls : List Evaluation) : Prop :=
  (List.range count).map (fun i => (e.roll (sources i)).1) = rolls.map .ok

theorem samples_of_ok (h : ∀ i < count, ∃ v, (e.roll (sources i)).1 = .ok v) :
    ∃ rolls, samples e sources count = .ok rolls ∧ Samples e sources count rolls := by
  refine mapM_of_ok fun i hi => ?_
  exact h i (List.mem_range.1 hi)

namespace Samples

variable {rolls : List Evaluation}

theorem length_eq (h : Samples e sources count rolls) : rolls.length = count := by
  have := congrArg List.length h
  rwa [List.length_map, List.length_map, List.length_range, eq_comm] at this

theorem exists_source (h : Samples e sources count rolls) {v : Evaluation} (hv : v ∈ rolls) :
    ∃ i < count, (e.roll (sources i)).1 = .ok v := by
  have hmem : Except.ok v ∈ (List.range count).map fun i => (e.roll (sources i)).1 := by
    rw [h]
    exact List.mem_map_of_mem hv
  obtain ⟨i, hi, hroll⟩ := List.mem_map.1 hmem
  exact ⟨i, List.mem_range.1 hi, hroll⟩

/-- To count among the results is to count among the sources. -/
theorem countP_eq (h : Samples e sources count rolls) {p : Evaluation → Bool} {q : Nat → Bool}
    (hpq : ∀ i v, (e.roll (sources i)).1 = .ok v → q i = p v) : (List.range count).countP q = rolls.countP p := by
  have hq : ∀ i ∈ List.range count, q i = true ↔ (e.roll (sources i)).1.toOption.any p = true := by
    intro i hi
    have hmem := List.mem_map_of_mem (f := fun i => (e.roll (sources i)).1) hi
    rw [h] at hmem
    obtain ⟨v, -, hv⟩ := List.mem_map.1 hmem
    have hv : (e.roll (sources i)).1 = .ok v := hv.symm
    rw [hpq i v hv, hv]
    rfl
  calc (List.range count).countP q
      = (List.range count).countP fun i => (e.roll (sources i)).1.toOption.any p := List.countP_congr hq
    _ = ((List.range count).map fun i => (e.roll (sources i)).1).countP fun x => x.toOption.any p := by
      rw [List.countP_map]
      rfl
    _ = rolls.countP p := by
      rw [h, List.countP_map]
      rfl

theorem count_value (h : Samples e sources count rolls) (value : Value) :
    (rolls.map Evaluation.value).count value =
      (List.range count).countP fun i => (e.roll (sources i)).1.toOption.map Evaluation.value = some value := by
  rw [List.count_eq_countP, List.countP_map]
  refine (h.countP_eq fun i v hv => ?_).symm
  simp [hv, Except.toOption, beq_eq_decide]

theorem countP_dividedByZero (h : Samples e sources count rolls) :
    rolls.countP dividedByZero =
      (List.range count).countP fun i => e.hasZeroDivision (e.facesThrown Timer.never (sources i)) :=
  (h.countP_eq fun _ _ hv => (Outcome.dividedByZero_eq (Expr.rollTimed_outcome hv)).symm).symm

theorem value_mem_bounds (h : Samples e sources count rolls) {v : Evaluation} (hv : v ∈ rolls) :
    v.value ∈ e.bounds := by
  obtain ⟨i, -, hroll⟩ := h.exists_source hv
  exact Expr.eval_mem_bounds
    (Prod.ext hroll rfl : (e.eval : Rolling (TimedSource γ) Evaluation) ⟨sources i, Timer.never, 0⟩ = (.ok v, _))

end Samples

/-! ## The report -/

theorem numeral_eq_some_iff {digits : List Char} {n : Nat} :
    (if Text.isNumeral digits && Text.numeralValue digits < 0x100000000 then some (Text.numeralValue digits)
      else none) = some n ↔ Text.isNumeral digits = true ∧ Text.numeralValue digits = n ∧ n < 0x100000000 := by
  rw [Option.ite_none_right_eq_some, Bool.and_eq_true, decide_eq_true_eq, Option.some.injEq]
  constructor
  · rintro ⟨⟨h, hlt⟩, rfl⟩
    exact ⟨h, rfl, hlt⟩
  · rintro ⟨h, rfl, hlt⟩
    exact ⟨⟨h, hlt⟩, rfl⟩

/-- A number of samples is written in digits, with a plus sign or without. -/
theorem sampleCount?_eq_some_iff {text : String} {n : Nat} : sampleCount? text = some n ↔
    ∃ digits, (text.toList = digits ∨ text.toList = '+' :: digits) ∧ Text.isNumeral digits = true ∧
      Text.numeralValue digits = n ∧ n < 0x100000000 := by
  simp only [sampleCount?, numeral_eq_some_iff]
  split
  · next digits hplus =>
    rw [hplus]
    constructor
    · exact fun h => ⟨digits, .inr rfl, h⟩
    · rintro ⟨digits', rfl | hsame, h, hvalue⟩
      · cases (Text.isNumeral_iff.1 h).2 '+' List.mem_cons_self
      · obtain rfl := (List.cons.inj hsame).2
        exact ⟨h, hvalue⟩
  · next hplain =>
    constructor
    · exact fun h => ⟨text.toList, .inl rfl, h⟩
    · rintro ⟨digits, rfl | hplus, h⟩
      · exact h
      · exact absurd hplus (hplain digits)

/-- How often a command line with these further arguments rolls. -/
def sampleTotal (rest : List String) : Nat :=
  (rest.head?.bind sampleCount?).getD 1

/-- The first of these arguments is a number that is not too great. -/
def SpellsTotal (rest : List String) (n : Nat) : Prop :=
  ∃ arg digits, rest.head? = some arg ∧ (arg.toList = digits ∨ arg.toList = '+' :: digits) ∧
    Text.isNumeral digits = true ∧ Text.numeralValue digits = n ∧ n < 0x100000000

theorem spellsTotal_iff {rest : List String} {n : Nat} :
    SpellsTotal rest n ↔ rest.head?.bind sampleCount? = some n := by
  rw [SpellsTotal, Option.bind_eq_some_iff]
  simp only [sampleCount?_eq_some_iff, exists_and_left]

theorem sampleTotal_of_spells {rest : List String} {n : Nat} (h : SpellsTotal rest n) : sampleTotal rest = n := by
  rw [sampleTotal, spellsTotal_iff.1 h, Option.getD_some]

/-- Without a number, one roll. -/
theorem sampleTotal_of_none {rest : List String} (h : ∀ n, ¬SpellsTotal rest n) : sampleTotal rest = 1 := by
  have hnone : rest.head?.bind sampleCount? = none :=
    Option.eq_none_iff_forall_ne_some.2 fun n hn => h n (spellsTotal_iff.2 hn)
  rw [sampleTotal, hnone, Option.getD_none]

def header (e : Expr) : String :=
  e.render ++ " in [" ++ valueText e.bounds.lo ++ ", " ++ valueText e.bounds.hi ++ "]"

def zeroLine (zeros count : Nat) : String :=
  "divided by zero in " ++ toString zeros ++ " of " ++ toString count ++ " rolls"

def rowText (row : Value × Nat) : String :=
  valueText row.1 ++ "\t" ++ toString row.2

theorem lines_eq (e : Expr) (rolls : List Evaluation) :
    lines e rolls = header e :: ((if rolls.countP dividedByZero = 0 then []
      else [zeroLine (rolls.countP dividedByZero) rolls.length]) ++
        (tally (rolls.map Evaluation.value)).map rowText) := by
  rw [lines, List.append_assoc]
  rfl

/-- No bracket and no tab. -/
theorem notMem_zeroLine {zeros count : Nat} {c : Char} (hc : c = ']' ∨ c = '\t') :
    c ∉ (zeroLine zeros count).toList := by
  have hdigit : ∀ n : Nat, c ∉ (toString n).toList := by
    intro n h
    rcases Trace.isDigit_or_minus_of_mem_int (n := n) h with hdigit | rfl
    · rcases hc with rfl | rfl <;> cases hdigit
    · rcases hc with hc | hc <;> cases hc
  unfold zeroLine
  rw [String.toList_append, String.toList_append, String.toList_append, String.toList_append]
  simp only [List.mem_append, not_or]
  rcases hc with rfl | rfl <;> exact ⟨⟨⟨⟨by decide, hdigit _⟩, by decide⟩, hdigit _⟩, by decide⟩

theorem zeroLine_mem_iff {zeros count : Nat} {rows : List (Value × Nat)} :
    zeroLine zeros count ∈ header e :: ((if zeros = 0 then [] else [zeroLine zeros count]) ++ rows.map rowText) ↔
      1 ≤ zeros := by
  have hheader : zeroLine zeros count ≠ header e := by
    intro h
    exact notMem_zeroLine (.inl rfl) (by rw [h, header, String.toList_append]; simp)
  have hrows : zeroLine zeros count ∉ rows.map rowText := by
    intro h
    obtain ⟨row, -, hrow⟩ := List.mem_map.1 h
    exact notMem_zeroLine (.inr rfl) (by rw [← hrow, rowText, String.toList_append, String.toList_append]; simp)
  rw [List.mem_cons, List.mem_append, or_iff_right hheader, or_iff_left hrows]
  split
  · next hzero => simp [hzero]
  · next hzero => exact ⟨fun _ => Nat.pos_of_ne_zero hzero, fun _ => List.mem_singleton_self _⟩

/-- **A histogram is faithful, and a failure prints nothing else.** The second argument is the number of rolls, 1 if it
is no number. A text that cannot be read and the first roll that fails leave nothing but their error. Otherwise the
output is the range, a line on divisions by zero if there were any, and a row for each value that was rolled, in
ascending order and within the range; each row has the number of rolls with its value, and these numbers add up to that
of all rolls. -/
theorem run_faithful (text : String) (rest : List String) (sources : Nat → γ) :
    ((∀ n, SpellsTotal rest n → sampleTotal rest = n) ∧ ((∀ n, ¬SpellsTotal rest n) → sampleTotal rest = 1)) ∧
    (∀ error, Expr.read {} text = .error error →
      run (text :: rest) sources = { code := 1, output := [], errors := ["Error: " ++ error.message] }) ∧
    ∀ e, Expr.read {} text = .ok e →
      (∀ i < sampleTotal rest, ∀ error, (∀ j < i, ∃ v, (e.roll (sources j)).1 = .ok v) →
        (e.roll (sources i)).1 = .error error →
          run (text :: rest) sources = { code := 1, output := [], errors := ["Error: " ++ error.message] }) ∧
      ((∀ i < sampleTotal rest, ∃ v, (e.roll (sources i)).1 = .ok v) → ∃ (zeros : Nat) (rows : List (Value × Nat)),
        run (text :: rest) sources =
          { code := 0
            output := header e :: ((if zeros = 0 then [] else [zeroLine zeros (sampleTotal rest)]) ++ rows.map rowText)
            errors := [] } ∧
        zeros = ((List.range (sampleTotal rest)).countP fun i =>
          e.hasZeroDivision (e.facesThrown Timer.never (sources i))) ∧
        (zeroLine zeros (sampleTotal rest) ∈ (run (text :: rest) sources).output ↔ 1 ≤ zeros) ∧
        rows.Pairwise (fun a b => a.1 < b.1) ∧
        (∀ v n, (v, n) ∈ rows ↔ 0 < n ∧ n = (List.range (sampleTotal rest)).countP fun i =>
          (e.roll (sources i)).1.toOption.map Evaluation.value = some v) ∧
        (rows.map Prod.snd).sum = sampleTotal rest ∧
        ∀ row ∈ rows, e.bounds.lo ≤ row.1 ∧ row.1 ≤ e.bounds.hi) := by
  have hrun : run (text :: rest) sources = report text (sampleTotal rest) sources := rfl
  refine ⟨⟨fun _ => sampleTotal_of_spells, sampleTotal_of_none⟩, fun error hread => ?_,
    fun e hread => ⟨fun i hi error hbefore herror => ?_, fun hok => ?_⟩⟩
  · rw [hrun, report, hread]
    rfl
  · rw [hrun, report, hread]
    simp only [samples_of_failure hi hbefore herror]
    rfl
  · obtain ⟨rolls, hrolls, hsamples⟩ := samples_of_ok hok
    have hreport : run (text :: rest) sources = { code := 0, output := lines e rolls } := by
      rw [hrun, report, hread]
      simp only [hrolls]
    refine ⟨rolls.countP dividedByZero, tally (rolls.map Evaluation.value), ?_, hsamples.countP_dividedByZero, ?_,
      pairwise_tally _, fun v n => by rw [mem_tally_iff, hsamples.count_value], ?_, ?_⟩
    · rw [hreport, lines_eq, hsamples.length_eq]
    · rw [hreport, lines_eq, hsamples.length_eq]
      exact zeroLine_mem_iff
    · rw [sum_tally, List.length_map, hsamples.length_eq]
    · rintro ⟨v, n⟩ hrow
      obtain ⟨hpos, rfl⟩ := mem_tally_iff.1 hrow
      obtain ⟨w, hw, rfl⟩ := List.mem_map.1 (List.count_pos_iff.1 hpos)
      exact hsamples.value_mem_bounds hw

end DiceNotation.Histogram
