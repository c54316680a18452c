import DiceNotation.Expr.Parser
import DiceNotation.Proofs.Grammar

/-!
# Reading operands

A number token is read as the constant that the grammar gives it, and a dice token as the dice term
(`constant_eq_ok_iff`, `diceTerm_eq_ok_iff`): a text is cut at its only `d`, and both parts are numerals.
-/

namespace DiceNotation

namespace Parser

open Text

theorem splitDice?_eq_some_iff {cs n m : List Char} :
    splitDice? cs = some (n, m) ↔ cs = n ++ 'd' :: m ∧ 'd' ∉ n ∧ 'd' ∉ m := by
  constructor
  · intro h
    unfold splitDice? at h
    split at h
    · cases h
    · next c sides hdrop =>
      split at h
      · cases h
      · next hm =>
        cases h
        have hc := List.head?_dropWhile_not (· ≠ 'd') cs
        rw [hdrop] at hc
        have hc : c = 'd' := by simpa using hc
        subst hc
        refine ⟨?_, ?_, hm⟩
        · rw [← hdrop, List.takeWhile_append_dropWhile]
        · intro hd
          have := List.all_eq_true.1 (List.all_takeWhile (p := (· ≠ 'd')) (l := cs)) 'd' hd
          simp at this
  · rintro ⟨rfl, hn, hm⟩
    have hp : ∀ c ∈ n, decide (c ≠ 'd') = true := by
      intro c hc
      have : c ≠ 'd' := by rintro rfl; exact hn hc
      simpa using this
    rw [splitDice?, List.takeWhile_append_of_pos hp, List.dropWhile_append_of_pos hp]
    simp [hm]

theorem constant_eq_ok_iff {text : String} {e : Expr} :
    constant text = .ok e ↔
      isNumeral text.toList = true ∧ ∃ v : Value, (numeralValue text.toList : Int) = v.toInt ∧ e = .const v := by
  unfold constant
  cases hn : isNumeral text.toList with
  | false => simp
  | true =>
    simp only [Bool.not_true, Bool.false_eq_true, ↓reduceIte, true_and]
    cases hv : Value.ofInt? (numeralValue text.toList) with
    | none =>
      have hv := Value.ofInt?_eq_none_iff.1 hv
      simp only [reduceCtorEq, false_iff, not_exists, not_and]
      intro v h
      exact absurd (h ▸ Value.fits_toInt v) hv
    | some v =>
      have hv := Value.ofInt?_eq_some_iff.1 hv
      simp only [Except.ok.injEq]
      constructor
      · rintro rfl
        exact ⟨v, hv.symm, rfl⟩
      · rintro ⟨w, hw, rfl⟩
        rw [Int64.toInt_inj.1 (hv.trans hw)]

theorem toNat_toUInt32_of_lt {n : Nat} (h : n < 0x100000000) : n.toUInt32.toNat = n := by
  simpa using h

theorem diceTerm_eq_ok_iff {text : String} {count sides : UInt32} :
    diceTerm text = .ok (count, sides) ↔
      ∃ n m, text.toList = n ++ 'd' :: m ∧ isNumeral n = true ∧ isNumeral m = true ∧
        numeralValue n = count.toNat ∧ numeralValue m = sides.toNat ∧ sides ≠ 0 := by
  constructor
  · intro h
    unfold diceTerm at h
    split at h
    · cases h
    · next n m hsplit =>
      split at h
      · cases h
      · split at h
        · cases h
        · next hm hn =>
          dsimp only at h
          split at h
          · cases h
          · next h0 =>
            split at h
            · next hlt =>
              cases h
              simp only [Bool.and_eq_true, decide_eq_true_eq] at hlt
              have hm : n ≠ [] ∧ isNumeral m = true := by simpa using hm
              have h0 : numeralValue n < 0x100000000 → numeralValue m ≠ 0 := by simpa using h0
              refine ⟨n, m, (splitDice?_eq_some_iff.1 hsplit).1, by simpa using hn, hm.2, ?_, ?_, ?_⟩
              · exact (toNat_toUInt32_of_lt hlt.1).symm
              · exact (toNat_toUInt32_of_lt hlt.2).symm
              · intro hs
                have hsides := toNat_toUInt32_of_lt hlt.2
                rw [hs] at hsides
                exact h0 hlt.1 hsides.symm
            · cases h
  · rintro ⟨n, m, htext, hn, hm, hcount, hsides, h0⟩
    have hsplit : splitDice? text.toList = some (n, m) :=
      splitDice?_eq_some_iff.2 ⟨htext, not_mem_of_isNumeral hn, not_mem_of_isNumeral hm⟩
    have hne : n.isEmpty = false := by simpa using (isNumeral_iff.1 hn).1
    have hs0 : sides.toNat ≠ 0 := fun h => h0 (UInt32.toNat_inj.1 h)
    simp [diceTerm, hsplit, hne, hn, hm, hcount, hsides, hs0, count.toNat_lt, sides.toNat_lt]

end Parser

end DiceNotation
