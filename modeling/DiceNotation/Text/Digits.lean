/-!
# Decimal digits

A numeral is a nonempty run of the ASCII digits `0` to `9`; no other script's digits count. `Nat.ofDigitChars` reads
one back.

A run of such characters, or of any others, ends where the text does not go on with one (`takeWhile_run`,
`dropWhile_run`).
-/

namespace DiceNotation.Text

def isNumeral (cs : List Char) : Bool :=
  !cs.isEmpty && cs.all Char.isDigit

/-- The value of a numeral, leading zeros included. -/
def numeralValue (cs : List Char) : Nat :=
  Nat.ofDigitChars 10 cs 0

theorem isNumeral_iff {cs : List Char} : isNumeral cs = true ↔ cs ≠ [] ∧ ∀ c ∈ cs, c.isDigit = true := by
  simp [isNumeral]

theorem not_mem_of_isNumeral {cs : List Char} (h : isNumeral cs = true) : 'd' ∉ cs := by
  intro hd
  have := (isNumeral_iff.1 h).2 'd' hd
  revert this
  decide

theorem isNumeral_toDigits (n : Nat) : isNumeral (Nat.toDigits 10 n) = true :=
  isNumeral_iff.2 ⟨Nat.toDigits_ne_nil, fun _ hc => Nat.isDigit_of_mem_toDigits (by decide) (by decide) hc⟩

theorem numeralValue_toDigits (n : Nat) : numeralValue (Nat.toDigits 10 n) = n :=
  Nat.ofDigitChars_toDigits (by decide) (by decide)

/-! ## Runs -/

section Runs

variable {p : Char → Bool} {w cs : List Char}

theorem takeWhile_run (hw : ∀ c ∈ w, p c = true) (hcs : ∀ c ∈ cs.head?, p c = false) : (w ++ cs).takeWhile p = w := by
  rw [List.takeWhile_append_of_pos hw]
  cases cs with
  | nil => simp
  | cons c cs => simp [hcs c rfl]

theorem dropWhile_run (hw : ∀ c ∈ w, p c = true) (hcs : ∀ c ∈ cs.head?, p c = false) : (w ++ cs).dropWhile p = cs := by
  rw [List.dropWhile_append_of_pos hw]
  cases cs with
  | nil => rfl
  | cons c cs => simp [hcs c rfl]

end Runs

end DiceNotation.Text
