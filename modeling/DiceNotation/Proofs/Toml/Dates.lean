import Mathlib.Algebra.Group.Nat.Defs
import DiceNotation.Toml.DateTime

/-!
# Written dates and times

Numbers are written in a fixed width and read in that width, whatever follows them (`number?_padded`); only the fraction
of a second ends where its digits end (`fraction?_chars`). **A written date or time is read as it was**
(`DateTime.ofChars?_chars`).
-/

namespace DiceNotation.Toml

open Text

/-! ## Numbers -/

theorem numeralValue_padded (width n : Nat) : numeralValue (padded width n) = n := by
  simp [numeralValue, padded, List.leftpad, Nat.ofDigitChars_append, Nat.ofDigitChars_toDigits]

theorem isDigit_of_mem_padded {width n : Nat} : ∀ c ∈ padded width n, c.isDigit = true := by
  intro c hc
  simp only [padded, List.leftpad, List.mem_append, List.mem_replicate] at hc
  rcases hc with ⟨-, rfl⟩ | hc
  · rfl
  · exact Nat.isDigit_of_mem_toDigits (by decide) (by decide) hc

theorem length_padded {width n : Nat} (hwidth : 0 < width) (h : n < 10 ^ width) : (padded width n).length = width := by
  have := (Nat.length_toDigits_le_iff (by decide) hwidth).2 h
  rw [padded, List.length_leftpad]
  omega

theorem number?_padded {width lo hi : Nat} (n : Within lo hi) (hwidth : 0 < width) (hhi : hi < 10 ^ width)
    (cs : List Char) : number? width lo hi (padded width n ++ cs) = some (n, cs) := by
  have hlength := length_padded hwidth (Nat.lt_of_le_of_lt n.2.2 hhi)
  have hdigits : (padded width n).all Char.isDigit = true := List.all_eq_true.2 isDigit_of_mem_padded
  unfold number?
  rw [List.take_left' hlength, List.drop_left' hlength]
  simp [hlength, hdigits, numeralValue_padded, n.2]

theorem padded_ne_nil (width n : Nat) : padded width n ≠ [] := by
  unfold padded List.leftpad
  simp [Nat.toDigits_ne_nil]

/-! ## Fractions -/

/-- Digits without the zeros at their end. -/
def trimmed (digits : List Char) : List Char :=
  (digits.reverse.dropWhile (· = '0')).reverse

theorem exists_trimmed (digits : List Char) : ∃ k, digits = trimmed digits ++ List.replicate k '0' := by
  have hzeros : ∀ c ∈ digits.reverse.takeWhile (· = '0'), c = '0' := by
    intro c hc
    simpa using List.all_eq_true.1 List.all_takeWhile c hc
  refine ⟨(digits.reverse.takeWhile (· = '0')).length, ?_⟩
  rw [← List.reverse_replicate, ← List.eq_replicate_of_mem hzeros, trimmed, ← List.reverse_append,
    List.takeWhile_append_dropWhile, List.reverse_reverse]

theorem isDigit_of_mem_trimmed {digits : List Char} (h : ∀ c ∈ digits, c.isDigit = true) :
    ∀ c ∈ trimmed digits, c.isDigit = true := by
  intro c hc
  obtain ⟨k, hk⟩ := exists_trimmed digits
  exact h c (by rw [hk]; exact List.mem_append_left _ hc)

/-- The text goes on neither with a digit nor with a fraction. -/
def EndsTime (cs : List Char) : Prop :=
  ∀ c ∈ cs.head?, c ≠ '.' ∧ c.isDigit = false

theorem fractionChars_eq {n : Nat} (h : n ≠ 0) : fractionChars n = '.' :: trimmed (padded 9 n) :=
  if_neg h

theorem trimmed_ne_nil {n : Nat} (h : n ≠ 0) : trimmed (padded 9 n) ≠ [] := by
  intro hnil
  obtain ⟨k, hk⟩ := exists_trimmed (padded 9 n)
  have hvalue := numeralValue_padded 9 n
  rw [hk, hnil, List.nil_append, numeralValue, Nat.ofDigitChars_replicate_zero] at hvalue
  exact h (by omega)

/-- The zeros that are read are those that were cut, and some more. -/
theorem number?_trimmed (n : Within 0 999999999) :
    ∃ more, number? 9 0 999999999 (trimmed (padded 9 n) ++ List.replicate 9 '0') = some (n, more) := by
  obtain ⟨k, hk⟩ := exists_trimmed (padded 9 n)
  have hlength : (padded 9 n).length = 9 := length_padded (by decide) (Nat.lt_of_le_of_lt n.2.2 (by decide))
  rw [hk, List.length_append, List.length_replicate] at hlength
  have hzeros : trimmed (padded 9 n) ++ List.replicate 9 '0' = padded 9 n ++ List.replicate (9 - k) '0' := by
    conv => rhs; rw [hk]
    rw [List.append_assoc, List.replicate_append_replicate]
    congr 2
    omega
  exact ⟨_, by rw [hzeros, number?_padded n (by decide) (by decide)]⟩

theorem fraction?_chars (n : Within 0 999999999) {cs : List Char} (hcs : EndsTime cs) :
    fraction? (fractionChars n ++ cs) = some (n, cs) := by
  by_cases hn : n.val = 0
  · obtain ⟨n, hmem⟩ := n
    obtain rfl : n = 0 := hn
    show fraction? cs = _
    unfold fraction?
    split
    · exact absurd rfl (hcs _ rfl).1
    · rfl
  · have hdigits : ∀ c ∈ trimmed (padded 9 n.val), c.isDigit = true := isDigit_of_mem_trimmed isDigit_of_mem_padded
    have hends : ∀ c ∈ cs.head?, c.isDigit = false := fun c hc => (hcs c hc).2
    obtain ⟨more, hnumber⟩ := number?_trimmed n
    have hguard : (guard (trimmed (padded 9 n.val) ≠ []) : Option Unit) = some () := if_pos (trimmed_ne_nil hn)
    rw [fractionChars_eq hn, List.cons_append, fraction?]
    dsimp only
    rw [takeWhile_run hdigits hends, dropWhile_run hdigits hends, hguard, hnumber]
    rfl

/-! ## Dates and times -/

theorem Date.read?_chars (d : Date) (cs : List Char) : Date.read? (d.chars ++ cs) = some (d, cs) := by
  simp [Date.read?, Date.chars, number?_padded, after?]

theorem Time.read?_chars (t : Time) {cs : List Char} (hcs : EndsTime cs) :
    Time.read? (t.chars ++ cs) = some (t, cs) := by
  simp [Time.read?, Time.chars, number?_padded, after?, fraction?_chars _ hcs]

theorem Time.exists_chars (t : Time) :
    ∃ cs, t.chars = padded 2 t.hour ++ ':' :: cs ∧ (padded 2 t.hour).length = 2 :=
  ⟨_, by rw [chars, List.append_assoc, List.append_assoc]; rfl,
    length_padded (by decide) (Nat.lt_of_le_of_lt t.hour.2.2 (by decide))⟩

/-- No date begins like a time, which has a colon after two digits. -/
theorem Date.read?_time (t : Time) (cs : List Char) : Date.read? (t.chars ++ cs) = none := by
  obtain ⟨ds, hds, hlength⟩ := t.exists_chars
  have hnumber : number? 4 0 9999 (t.chars ++ cs) = none := by
    have hcolon : ':' ∈ (t.chars ++ cs).take 4 := by
      rw [hds, List.append_assoc, List.take_append, hlength]
      simp
    refine if_neg ?_
    rintro ⟨-, hall⟩
    exact absurd (List.all_eq_true.1 hall ':' hcolon) (by decide)
  simp [Date.read?, hnumber]

theorem Offset.read?_chars (negative : Bool) {h : Nat} (hh : h ≤ 99) (m : Within 0 99) (cs : List Char) :
    Offset.read? negative (padded 2 h ++ ':' :: (padded 2 m ++ cs)) =
      some (.numeric ⟨if negative then -(h : Int) else h, by split <;> omega⟩ m, cs) := by
  have hhours (cs : List Char) : number? 2 0 99 (padded 2 h ++ cs) = some (⟨h, Nat.zero_le _, hh⟩, cs) :=
    number?_padded ⟨h, Nat.zero_le _, hh⟩ (by decide) (by decide) cs
  simp [Offset.read?, hhours, number?_padded, after?]

theorem offset?_numeric (h : { n : Int // n.natAbs ≤ 99 }) (m : Within 0 99) (cs : List Char) :
    offset? ((Offset.numeric h m).chars ++ cs) = some (some (.numeric h m), cs) := by
  obtain ⟨h, hmem⟩ := h
  have hread (negative : Bool) := Offset.read?_chars negative hmem m cs
  by_cases hneg : h < 0
  · have hh : -(h.natAbs : Int) = h := by omega
    have htext : (Offset.numeric ⟨h, hmem⟩ m).chars ++ cs =
        '-' :: (padded 2 h.natAbs ++ ':' :: (padded 2 m ++ cs)) := by
      simp only [Offset.chars, if_pos hneg, List.cons_append, List.append_assoc]
    rw [htext, offset?, hread true]
    simp only [Option.map_some, if_true, hh]
  · have hh : (h.natAbs : Int) = h := by omega
    have htext : (Offset.numeric ⟨h, hmem⟩ m).chars ++ cs =
        '+' :: (padded 2 h.natAbs ++ ':' :: (padded 2 m ++ cs)) := by
      simp only [Offset.chars, if_neg hneg, List.cons_append, List.append_assoc]
    rw [htext, offset?, hread false]
    simp only [Option.map_some, Bool.false_eq_true, if_false, hh]

/-- What is written for an offset, if there is one. -/
def offsetChars (o : Option Offset) : List Char :=
  o.elim [] Offset.chars

theorem endsTime_offsetChars (o : Option Offset) : EndsTime (offsetChars o) := by
  intro c hc
  cases o with
  | none => cases hc
  | some o =>
    cases o with
    | utc =>
      cases hc
      decide
    | numeric h m =>
      simp only [offsetChars, Option.elim_some, Offset.chars, List.cons_append, List.head?_cons, Option.mem_def,
        Option.some.injEq] at hc
      subst hc
      split <;> decide

theorem offset?_offsetChars (o : Option Offset) : offset? (offsetChars o) = some (o, []) := by
  cases o with
  | none => rfl
  | some o =>
    cases o with
    | utc => rfl
    | numeric h m => simpa [offsetChars] using offset?_numeric h m []

namespace DateTime

theorem ofChars?_chars (d : DateTime) : ofChars? d.chars = some d := by
  have hread : read? d.chars = some (d, []) := by
    cases d with
    | date d =>
      have hdate := Date.read?_chars d []
      rw [List.append_nil] at hdate
      simp [read?, chars, hdate, timeStart?]
    | time t =>
      have hdate := Date.read?_time t []
      have htime : Time.read? (t.chars ++ []) = some (t, []) := t.read?_chars (by simp [EndsTime])
      rw [List.append_nil] at hdate htime
      simp [read?, chars, hdate, htime]
    | both d t o =>
      have hchars : (both d t o).chars = d.chars ++ 'T' :: (t.chars ++ offsetChars o) := by
        simp [chars, offsetChars]
      have htime := t.read?_chars (endsTime_offsetChars o)
      simp [read?, hchars, Date.read?_chars, timeStart?, htime, offset?_offsetChars]
  rw [ofChars?, hread]

end DateTime

end DiceNotation.Toml
