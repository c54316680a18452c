import DiceNotation.Random.Source

/-!
# A fair die

A word `w` times the number of sides is a number below `2 ^ 64 * sides`: its high part is the face, counted from 0, and
its low part decides whether the word counts. The words whose low part lies in the topmost `reject` numbers are refused,
which leaves equally many words for every face.

All of it is computed in 64-bit words. `toNat_high`, `toNat_low` and `toNat_reject` say what the words are as numbers,
and `roll_mem` that every roll shows one of the faces.
-/

namespace DiceNotation.Die

/-- The high part of the product, from the products of the two halves of the word. -/
def high (sides : UInt32) (w : UInt64) : UInt64 :=
  ((w >>> 32) * sides.toUInt64 + (((w &&& 0xffffffff) * sides.toUInt64) >>> 32)) >>> 32

def low (sides : UInt32) (w : UInt64) : UInt64 :=
  w * sides.toUInt64

/-- How many low parts are refused: the remainder of `2 ^ 64` by the number of sides. -/
def reject (sides : UInt32) : UInt64 :=
  (0 - sides.toUInt64) % sides.toUInt64

/-- The face a word shows, whether or not it counts. -/
def face (sides : UInt32) (w : UInt64) : Nat :=
  1 + (high sides w).toNat

/-- The face of a word that counts. -/
def face? (sides : UInt32) (w : UInt64) : Option Nat :=
  if low sides w ≤ 0xffffffffffffffff - reject sides then some (face sides w) else none

/-- Takes words until one counts; after `refusals` refused words the next one decides in any case. -/
def rollWithin {γ : Type} [WordSource γ] (sides : UInt32) : Nat → γ → Nat × γ
  | 0, g =>
    let (w, g) := WordSource.next g
    (face sides w, g)
  | refusals + 1, g =>
    let (w, g) := WordSource.next g
    match face? sides w with
    | some n => (n, g)
    | none => rollWithin sides refusals g

/-- The face of one die. A source that has refused a whole period would refuse every word. -/
def roll {γ : Type} [WordSource γ] (sides : UInt32) (g : γ) : Nat × γ :=
  rollWithin sides (WordSource.period g) g

/-! ## The words as numbers -/

theorem toNat_high (sides : UInt32) (w : UInt64) : (high sides w).toNat = w.toNat * sides.toNat / UInt64.size := by
  have hs := sides.toNat_lt
  have hw := w.toNat_lt
  have hhi : w.toNat / 2 ^ 32 < 2 ^ 32 := by omega
  have hlo : w.toNat % 2 ^ 32 < 2 ^ 32 := Nat.mod_lt _ (by decide)
  have h1 : w.toNat / 2 ^ 32 * sides.toNat ≤ (2 ^ 32 - 1) * (2 ^ 32 - 1) := Nat.mul_le_mul (by omega) (by omega)
  have h2 : w.toNat % 2 ^ 32 * sides.toNat ≤ (2 ^ 32 - 1) * (2 ^ 32 - 1) := Nat.mul_le_mul (by omega) (by omega)
  have hmask : (w &&& 0xffffffff).toNat = w.toNat % 2 ^ 32 := by
    rw [UInt64.toNat_and]
    exact Nat.and_two_pow_sub_one_eq_mod w.toNat 32
  have hshift : (w >>> 32).toNat = w.toNat / 2 ^ 32 := by
    rw [UInt64.toNat_shiftRight]
    exact Nat.shiftRight_eq_div_pow _ _
  have e1 : ((w >>> 32) * sides.toUInt64).toNat = w.toNat / 2 ^ 32 * sides.toNat := by
    rw [UInt64.toNat_mul, hshift, UInt32.toNat_toUInt64]
    omega
  have e2 : (((w &&& 0xffffffff) * sides.toUInt64) >>> 32).toNat = w.toNat % 2 ^ 32 * sides.toNat / 2 ^ 32 := by
    rw [UInt64.toNat_shiftRight, UInt64.toNat_mul, hmask, UInt32.toNat_toUInt64, Nat.mod_eq_of_lt (by omega)]
    exact Nat.shiftRight_eq_div_pow _ _
  have hsplit : w.toNat * sides.toNat = 2 ^ 32 * (w.toNat / 2 ^ 32 * sides.toNat) + w.toNat % 2 ^ 32 * sides.toNat := by
    conv => lhs; rw [← Nat.div_add_mod w.toNat (2 ^ 32)]
    rw [Nat.add_mul, Nat.mul_assoc]
  unfold high
  rw [UInt64.toNat_shiftRight, UInt64.toNat_add, e1, e2, Nat.mod_eq_of_lt (by omega)]
  show _ >>> 32 = _
  rw [Nat.shiftRight_eq_div_pow, hsplit, UInt64.size]
  omega

theorem toNat_low (sides : UInt32) (w : UInt64) : (low sides w).toNat = w.toNat * sides.toNat % UInt64.size := by
  simp [low, UInt64.size]

theorem toNat_reject {sides : UInt32} (h : 0 < sides) :
    (reject sides).toNat = (UInt64.size - sides.toNat) % sides.toNat := by
  have hs : 0 < sides.toNat := UInt32.lt_iff_toNat_lt.1 h
  have hlt := sides.toNat_lt
  have hsub : (0 - sides.toUInt64).toNat = UInt64.size - sides.toNat := by
    rw [UInt64.toNat_sub, UInt32.toNat_toUInt64]
    show (UInt64.size - sides.toNat + 0) % UInt64.size = _
    rw [UInt64.size]
    exact Nat.mod_eq_of_lt (by omega)
  unfold reject
  rw [UInt64.toNat_mod, hsub, UInt32.toNat_toUInt64]

/-! ## Faces -/

theorem face_eq (sides : UInt32) (w : UInt64) : face sides w = 1 + w.toNat * sides.toNat / UInt64.size := by
  rw [face, toNat_high]

theorem face_mem {sides : UInt32} (h : 0 < sides) (w : UInt64) : 1 ≤ face sides w ∧ face sides w ≤ sides.toNat := by
  have hs : 0 < sides.toNat := UInt32.lt_iff_toNat_lt.1 h
  have hlt : w.toNat * sides.toNat / UInt64.size < sides.toNat :=
    Nat.div_lt_of_lt_mul (Nat.mul_lt_mul_of_pos_right w.toNat_lt hs)
  rw [face_eq]
  exact ⟨Nat.le_add_right 1 _, by omega⟩

theorem face?_eq_some {sides : UInt32} {w : UInt64} {n : Nat} (h : face? sides w = some n) : n = face sides w := by
  unfold face? at h
  split at h
  · exact (Option.some.inj h).symm
  · cases h

theorem rollWithin_mem {γ : Type} [WordSource γ] {sides : UInt32} (h : 0 < sides) :
    ∀ (refusals : Nat) (g : γ), 1 ≤ (rollWithin sides refusals g).1 ∧ (rollWithin sides refusals g).1 ≤ sides.toNat
  | 0, g => by
    unfold rollWithin
    exact face_mem h _
  | refusals + 1, g => by
    unfold rollWithin
    dsimp only
    split
    · next n hn =>
      rw [face?_eq_some hn]
      exact face_mem h _
    · exact rollWithin_mem h refusals _

/-- Every roll shows one of the faces. -/
theorem roll_mem {γ : Type} [WordSource γ] {sides : UInt32} (h : 0 < sides) (g : γ) :
    1 ≤ (roll sides g).1 ∧ (roll sides g).1 ≤ sides.toNat :=
  rollWithin_mem h _ g

end DiceNotation.Die
