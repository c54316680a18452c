import Mathlib.Control.Monad.Basic
import DiceNotation.Proofs.Evaluation
import DiceNotation.Proofs.Range

/-!
# Results lie within the bounds

`Expr.bounds` is computed without rolling, every end cut to the values; an evaluation computes exactly and fails where a
result is no value. Wherever the evaluation succeeds, its value is within the bounds of its expression: by induction on
the expression, a node's value is the operator's exact result on the values of its operands
(`Evaluation.value_of_join`), and what the operator makes of values within two ranges is within its range of the two
(`Operator.clamp_exact_mem`).
-/

namespace DiceNotation

/-- The sum of so many faces is at least their number and at most that number times the sides. -/
theorem AreFaces.total_mem {count : Nat} {sides : UInt32} {faces : List Nat} (h : AreFaces count sides faces) :
    count ≤ Evaluation.total faces ∧ Evaluation.total faces ≤ count * sides.toNat := by
  obtain ⟨rfl, hmem⟩ := h
  induction faces with
  | nil => simp
  | cons n ns ih =>
    obtain ⟨h₁, h₂⟩ := hmem n List.mem_cons_self
    have := ih fun m hm => hmem m (List.mem_cons_of_mem _ hm)
    rw [List.length_cons, Evaluation.total_cons, Nat.add_mul]
    omega

namespace Expr

/-- Whatever dice the tray throws and whenever its time is up, a value that comes out is within the bounds. -/
theorem eval_mem_bounds {σ : Type} [Tray σ] [FairTray σ] {e : Expr} {t t' : σ} {v : Evaluation}
    (h : (eval e : Rolling σ Evaluation) t = (.ok v, t')) : v.value ∈ e.bounds := by
  induction e generalizing t t' v with
  | const value =>
    rw [eval_const_ok h]
    exact ⟨Int64.le_refl value, Int64.le_refl value⟩
  | dice count sides =>
    obtain ⟨-, faces, hfaces, hv⟩ := eval_dice_ok h
    obtain ⟨hlo, hhi⟩ := hfaces.total_mem
    rw [← Value.clamp_toInt v.value, Evaluation.value_of_ofFaces hv]
    exact Range.clamp_mem (by exact_mod_cast hlo) (by exact_mod_cast hhi)
  | binary op l r ihl ihr =>
    obtain ⟨a, b, t₁, t₂, hl, hr, hv⟩ := eval_binary_ok h
    rw [← Value.clamp_toInt v.value, Evaluation.value_of_join hv]
    exact op.clamp_exact_mem (ihl hl) (ihr hr)

/-- **The bounds are sound.** -/
theorem rollTimed_within_bounds {γ : Type} [WordSource γ] (e : Expr) (timer : Nat → Bool) (source : γ) {v : Evaluation}
    (h : (e.rollTimed timer source).1 = .ok v) : e.bounds.lo ≤ v.value ∧ v.value ≤ e.bounds.hi :=
  eval_mem_bounds (Prod.ext h rfl : (eval e : Rolling (TimedSource γ) Evaluation) ⟨source, timer, 0⟩ = (.ok v, _))

/-- The least value plus 0 or 1, divided by -1: one corner of the quotient is no value. -/
def nearMinimum : Expr :=
  .binary .div (.binary .add (.const Int64.minValue) (.binary .sub (.dice 1 2) (.const 1))) (.const (-1))

theorem nearMinimum_within_bounds :
    (nearMinimum.rollTimed (Timer.after 7) (Cycle.ofList [0x8000000000000000])).1 =
      .ok ⟨Int64.maxValue, "-9223372036854775808 + [2] - 1 / -1"⟩ ∧
    nearMinimum.bounds.lo ≤ Int64.maxValue ∧ Int64.maxValue ≤ nearMinimum.bounds.hi := by
  have h : (nearMinimum.rollTimed (Timer.after 7) (Cycle.ofList [0x8000000000000000])).1 =
      .ok ⟨Int64.maxValue, "-9223372036854775808 + [2] - 1 / -1"⟩ := by decide +kernel
  exact ⟨h, rollTimed_within_bounds nearMinimum (Timer.after 7) (Cycle.ofList [0x8000000000000000]) h⟩

end Expr

end DiceNotation
