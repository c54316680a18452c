import Mathlib.Control.Monad.Basic
import DiceNotation.Histogram
import DiceNotation.Proofs.Traces

/-!
# What a trace tells of divisions by zero

The text that stands for a division by zero begins with a letter, and no other part of a trace has one. So it occurs in
a trace exactly if a division by zero was evaluated: such a division that is not outermost is hidden only behind
another. **To search the trace of an outcome is to look through the nodes of its expression**
(`Outcome.dividedByZero_eq`).

In a run, a division by zero is carried out where both operands of a division have been evaluated and the second has
come out as zero (`Expr.DividesByZero`), wherever in the expression that is. The nodes with such a division are the ones
that the search finds (`Expr.eval_dividesByZero_iff`), so the trace tells what the evaluation did
(`Expr.divisionByZero_in_trace_iff`).
-/

namespace DiceNotation

open Trace

/-! ## Occurrences -/

theorem Histogram.occursIn_iff {part cs : List Char} : occursIn part cs = true ↔ part <:+: cs := by
  induction cs with
  | nil => rw [occursIn, List.isEmpty_iff, List.infix_nil]
  | cons c cs ih => rw [occursIn, Bool.or_eq_true, List.isPrefixOf_iff_prefix, ih, List.infix_cons_iff]

/-! ## Letters -/

namespace Trace

theorem notMem_group_of_isAlpha {c : Char} (hc : c.isAlpha = true) (faces : List Nat) : c ∉ group faces := by
  simp only [group, List.mem_cons, List.mem_append, List.not_mem_nil, or_false, not_or]
  refine ⟨?_, fun h => ?_, ?_⟩
  · rintro rfl
    cases hc
  · rcases mem_listed h with hdigit | rfl | rfl
    · cases (isDigit_of_isAlpha hc).symm.trans hdigit
    · cases hc
    · cases hc
  · rintro rfl
    cases hc

end Trace

/-! ## Divisions by zero -/

/-- Whether some division of the expression has the divisor zero on these faces. -/
def Expr.hasZeroDivision (e : Expr) (faces : List Nat) : Bool :=
  e.visits.any fun x => x.isZeroDivision faces

theorem Expr.hasZeroDivision_binary (op : Operator) (l r : Expr) (faces : List Nat) :
    (binary op l r).hasZeroDivision faces = (l.hasZeroDivision faces || r.hasZeroDivision (faces.drop l.diceCount) ||
      (binary op l r).isZeroDivision faces) := by
  simp only [hasZeroDivision, visits, List.any_append, List.any_map, Function.comp_def, Visit.isZeroDivision_after,
    List.any_cons, List.any_nil, Bool.or_false]
  rfl

namespace Outcome

open Evaluation

variable {e : Expr} {faces : List Nat} {v : Evaluation}

/-- A division by zero leaves its text in the trace. -/
theorem occurs_of_hasZeroDivision (h : Outcome e faces v) (more : List Nat)
    (hzero : e.hasZeroDivision (faces ++ more) = true) : divisionByZero.toList <:+: v.trace.toList := by
  induction h generalizing more with
  | const _ | dice _ _ => cases hzero
  | @binary op l r fs gs a b v hl hr hv ihl ihr =>
    rw [trace_of_join hv]
    split
    · exact List.infix_refl _
    · next hnot =>
      have hnode : (Expr.binary op l r).isZeroDivision (fs ++ gs ++ more) = true ↔ op = .div ∧ b.value = 0 :=
        Expr.isZeroDivision_binary hl hr more
      rw [Expr.hasZeroDivision_binary, Bool.or_eq_true, hnode, Bool.or_eq_true, or_iff_left hnot, List.append_assoc,
        hl.drop_append] at hzero
      simp only [String.toList_append, List.append_assoc]
      rcases hzero with hzero | hzero
      · exact (ihl _ hzero).trans (List.prefix_append _ _).isInfix
      · refine (ihr _ hzero).trans (List.IsSuffix.isInfix ?_)
        simp only [← List.append_assoc]
        exact List.suffix_append _ _

/-- Without a division by zero there is no letter in the trace. -/
theorem letter_notMem_trace (h : Outcome e faces v) (more : List Nat)
    (hzero : e.hasZeroDivision (faces ++ more) = false) : 'E' ∉ v.trace.toList := by
  induction h generalizing more with
  | const value => exact notMem_int_of_isAlpha rfl _
  | dice _ hv =>
    rw [trace_of_ofFaces hv]
    exact notMem_group_of_isAlpha rfl _
  | @binary op l r fs gs a b v hl hr hv ihl ihr =>
    have hnode : (Expr.binary op l r).isZeroDivision (fs ++ gs ++ more) = true ↔ op = .div ∧ b.value = 0 :=
      Expr.isZeroDivision_binary hl hr more
    simp only [Expr.hasZeroDivision_binary, Bool.or_eq_false_iff] at hzero
    obtain ⟨⟨hleft, hright⟩, hself⟩ := hzero
    rw [List.append_assoc] at hleft
    rw [List.append_assoc, hl.drop_append] at hright
    have hnot : ¬(op = .div ∧ b.value = 0) := fun h => by cases hself.symm.trans (hnode.2 h)
    rw [trace_of_join hv, if_neg hnot]
    simp only [String.toList_append, List.mem_append, not_or]
    exact ⟨⟨⟨⟨ihl _ hleft, by decide⟩, by simpa using notMem_symbol_of_isAlpha rfl op⟩, by decide⟩, ihr _ hright⟩

/-- **To search the trace is to look through the nodes.** -/
theorem dividedByZero_eq (h : Outcome e faces v) : Histogram.dividedByZero v = e.hasZeroDivision faces := by
  have hzero := h.occurs_of_hasZeroDivision []
  have hnone := h.letter_notMem_trace []
  rw [List.append_nil] at hzero hnone
  cases hhas : e.hasZeroDivision faces with
  | true => exact Histogram.occursIn_iff.2 (hzero hhas)
  | false =>
    rw [← Bool.not_eq_true]
    intro hoccurs
    exact hnone hhas ((Histogram.occursIn_iff.1 hoccurs).subset (by decide))

end Outcome

/-! ## Divisions that are carried out -/

open Rolling

section

variable {σ : Type} [Tray σ]

/-- The evaluation of the expression on this tray carries out a division by zero. -/
inductive Expr.DividesByZero : Expr → σ → Prop
  | self {l r : Expr} {t t₁ t₂ t₃ : σ} {a b : Evaluation} :
      (checkTime : Rolling σ Unit) t = (.ok (), t₁) → (l.eval : Rolling σ Evaluation) t₁ = (.ok a, t₂) →
        (r.eval : Rolling σ Evaluation) t₂ = (.ok b, t₃) → b.value = 0 → DividesByZero (.binary .div l r) t
  | left {op : Operator} {l r : Expr} {t t₁ : σ} :
      (checkTime : Rolling σ Unit) t = (.ok (), t₁) → DividesByZero l t₁ → DividesByZero (.binary op l r) t
  | right {op : Operator} {l r : Expr} {t t₁ t₂ : σ} {a : Evaluation} :
      (checkTime : Rolling σ Unit) t = (.ok (), t₁) → (l.eval : Rolling σ Evaluation) t₁ = (.ok a, t₂) →
        DividesByZero r t₂ → DividesByZero (.binary op l r) t

/-- If both operands have results, a division by zero is carried out in one of them or it is this operation. -/
theorem Expr.dividesByZero_binary_iff {op : Operator} {l r : Expr} {t t₁ t₂ t₃ : σ} {a b : Evaluation}
    (hpoll : (checkTime : Rolling σ Unit) t = (.ok (), t₁)) (hl : (l.eval : Rolling σ Evaluation) t₁ = (.ok a, t₂))
    (hr : (r.eval : Rolling σ Evaluation) t₂ = (.ok b, t₃)) :
    (binary op l r).DividesByZero t ↔ (l.DividesByZero t₁ ∨ r.DividesByZero t₂) ∨ op = .div ∧ b.value = 0 := by
  constructor
  · intro h
    cases h with
    | self hpoll' hl' hr' hzero =>
      cases hpoll.symm.trans hpoll'
      cases hl.symm.trans hl'
      cases hr.symm.trans hr'
      exact .inr ⟨rfl, hzero⟩
    | left hpoll' h =>
      cases hpoll.symm.trans hpoll'
      exact .inl (.inl h)
    | right hpoll' hl' h =>
      cases hpoll.symm.trans hpoll'
      cases hl.symm.trans hl'
      exact .inl (.inr h)
  · rintro ((h | h) | ⟨rfl, hzero⟩)
    · exact .left hpoll h
    · exact .right hpoll hl h
    · exact .self hpoll hl hr hzero

/-- An evaluation with a result has an outcome, and carries out the divisions by zero that its nodes have. -/
theorem Expr.eval_dividesByZero_iff [FairTray σ] {e : Expr} {t t' : σ} {v : Evaluation}
    (h : (e.eval : Rolling σ Evaluation) t = (.ok v, t')) :
    ∃ faces, Outcome e faces v ∧ ∀ more, e.DividesByZero t ↔ e.hasZeroDivision (faces ++ more) = true := by
  induction e generalizing t t' v with
  | const value =>
    obtain rfl := eval_const_ok h
    refine ⟨[], .const value, fun more => ⟨fun hzero => ?_, fun hzero => ?_⟩⟩
    · cases hzero
    · cases hzero
  | dice count sides =>
    obtain ⟨-, faces, hfaces, hv⟩ := eval_dice_ok h
    refine ⟨faces, .dice hfaces.length_eq hv, fun more => ⟨fun hzero => ?_, fun hzero => ?_⟩⟩
    · cases hzero
    · cases hzero
  | binary op l r ihl ihr =>
    obtain ⟨_, t₁, hpoll, h⟩ := bind_eq_ok h
    obtain ⟨a, t₂, hl, h⟩ := bind_eq_ok h
    obtain ⟨b, t₃, hr, h⟩ := bind_eq_ok h
    rw [run_liftExcept] at h
    obtain ⟨hv, rfl⟩ := Prod.mk.inj h
    obtain ⟨fs, hfs, hdivl⟩ := ihl hl
    obtain ⟨gs, hgs, hdivr⟩ := ihr hr
    refine ⟨fs ++ gs, .binary hfs hgs hv, fun more => ?_⟩
    rw [dividesByZero_binary_iff hpoll hl hr, hasZeroDivision_binary, Bool.or_eq_true, Bool.or_eq_true,
      isZeroDivision_binary hfs hgs more, List.append_assoc, hfs.drop_append, hdivl (gs ++ more), hdivr more]

end

/-- **The trace tells of divisions by zero**: their text occurs in the trace of a result, and is found by the search of
a histogram, exactly if a division by zero was carried out. -/
theorem Expr.divisionByZero_in_trace_iff {γ : Type} [WordSource γ] {timer : Nat → Bool} {e : Expr} {g : γ}
    {v : Evaluation} (h : (e.rollTimed timer g).1 = .ok v) :
    (Evaluation.divisionByZero.toList <:+: v.trace.toList ↔ e.DividesByZero (⟨g, timer, 0⟩ : TimedSource γ)) ∧
      (Histogram.dividedByZero v = true ↔ e.DividesByZero (⟨g, timer, 0⟩ : TimedSource γ)) := by
  have heval : e.eval (⟨g, timer, 0⟩ : TimedSource γ) = (.ok v, (e.eval (⟨g, timer, 0⟩ : TimedSource γ)).2) :=
    Prod.ext h rfl
  obtain ⟨faces, houtcome, hzero⟩ := eval_dividesByZero_iff heval
  have hzero := hzero []
  rw [List.append_nil] at hzero
  have hsearch : Histogram.dividedByZero v = true ↔ e.DividesByZero (⟨g, timer, 0⟩ : TimedSource γ) := by
    rw [houtcome.dividedByZero_eq, hzero]
  exact ⟨Histogram.occursIn_iff.symm.trans hsearch, hsearch⟩

/-- `0 * (7 / (5 / (1d6 - 1)))`: on the face 1 the inner division is by zero, and so is the outer one. -/
def Expr.hiddenDivisions : Expr :=
  .binary .mul (.const 0) (.binary .div (.const 7) (.binary .div (.const 5) (.binary .sub (.dice 1 6) (.const 1))))

theorem Expr.hiddenDivisions_in_trace :
    (hiddenDivisions.rollTimed Timer.never (Cycle.ofList [0])).1 = .ok ⟨0, "0 * ERROR: DIVIDE BY ZERO"⟩ ∧
      hiddenDivisions.DividesByZero (⟨Cycle.ofList [0], Timer.never, 0⟩ : TimedSource Cycle) ∧
      (hiddenDivisions.rollTimed Timer.never (Cycle.ofList [0x8000000000000000])).1 = .ok ⟨0, "0 * 7 / 5 / [4] - 1"⟩ ∧
      ¬hiddenDivisions.DividesByZero (⟨Cycle.ofList [0x8000000000000000], Timer.never, 0⟩ : TimedSource Cycle) := by
  have hzero : (hiddenDivisions.rollTimed Timer.never (Cycle.ofList [0])).1 =
      .ok ⟨0, "0 * ERROR: DIVIDE BY ZERO"⟩ := by decide +kernel
  have hnone : (hiddenDivisions.rollTimed Timer.never (Cycle.ofList [0x8000000000000000])).1 =
      .ok ⟨0, "0 * 7 / 5 / [4] - 1"⟩ := by decide +kernel
  refine ⟨hzero, (divisionByZero_in_trace_iff hzero).2.1 (by decide), hnone, fun h => ?_⟩
  have hfound := (divisionByZero_in_trace_iff hnone).2.2 h
  revert hfound
  decide

end DiceNotation
