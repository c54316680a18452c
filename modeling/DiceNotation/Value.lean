/-!
# Values

The value of an expression is a signed 64-bit word. An exact integer becomes a value in two ways: `ofInt?` refuses what
does not fit, and `clamp` takes the nearest value.
-/

namespace DiceNotation

abbrev Value := Int64

namespace Value

def Fits (n : Int) : Prop :=
  -0x8000000000000000 ≤ n ∧ n < 0x8000000000000000

-- By sign: a comparison of the integer itself with so large a number would be unfolded step by step on an open term.
instance : DecidablePred Fits
  | .ofNat m => decidable_of_iff (m < 0x8000000000000000) (by rw [Fits, Int.ofNat_eq_natCast]; omega)
  | .negSucc m => decidable_of_iff (m < 0x8000000000000000) (by rw [Fits, Int.negSucc_eq]; omega)

/-- The value equal to `n`, if there is one. -/
def ofInt? (n : Int) : Option Value :=
  if Fits n then some (Int64.ofInt n) else none

/-- The value nearest to `n`. -/
def clamp (n : Int) : Value :=
  if n < -0x8000000000000000 then Int64.minValue
  else if n < 0x8000000000000000 then Int64.ofInt n
  else Int64.maxValue

theorem fits_toInt (v : Value) : Fits v.toInt :=
  ⟨v.le_toInt, v.toInt_lt⟩

theorem toInt_ofInt_of_fits {n : Int} (h : Fits n) : (Int64.ofInt n).toInt = n :=
  Int64.toInt_ofInt_of_le h.1 h.2

theorem ofInt?_eq_some_iff {n : Int} {v : Value} : ofInt? n = some v ↔ v.toInt = n := by
  constructor
  · intro h
    unfold ofInt? at h
    split at h
    · next hn => cases h; exact toInt_ofInt_of_fits hn
    · cases h
  · rintro rfl
    simp [ofInt?, fits_toInt]

theorem ofInt?_eq_none_iff {n : Int} : ofInt? n = none ↔ ¬ Fits n := by
  simp [ofInt?]

/-- Clamping cuts the integers to the range of values. -/
theorem toInt_clamp (n : Int) : (clamp n).toInt = max (-0x8000000000000000) (min n 0x7fffffffffffffff) := by
  unfold clamp
  split
  · have : Int64.minValue.toInt = -0x8000000000000000 := rfl
    omega
  · split
    · rw [toInt_ofInt_of_fits ⟨by omega, by assumption⟩]; omega
    · have : Int64.maxValue.toInt = 0x7fffffffffffffff := rfl
      omega

end Value

end DiceNotation
