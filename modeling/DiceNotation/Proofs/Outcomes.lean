import DiceNotation.Proofs.ExactRolls
import DiceNotation.Proofs.Logging

/-!
# Outcomes on faces

`Outcome e faces v` says that the evaluation of `e` ends with `v` if its dice show `faces` from left to right. Nothing
else of a roll matters: **a roll that has a result has the outcome on the faces that it throws** (`rollTimed_outcome`),
whatever the source of its dice is and whenever its time is up. What holds of all outcomes, by induction on them, holds
of all such rolls: the value is the exact value on the faces (`Outcome.exactValue_eq`).
-/

namespace DiceNotation

/-! ## Outcomes -/

/-- The evaluation of the expression on these faces. -/
inductive Outcome : Expr → List Nat → Evaluation → Prop
  | const (v : Value) : Outcome (.const v) [] (.ofConst v)
  | dice {count sides : UInt32} {faces : List Nat} {v : Evaluation} :
      faces.length = count.toNat → Evaluation.ofFaces faces = .ok v → Outcome (.dice count sides) faces v
  | binary {op : Operator} {l r : Expr} {fs gs : List Nat} {a b v : Evaluation} :
      Outcome l fs a → Outcome r gs b → Evaluation.join op a b = .ok v → Outcome (.binary op l r) (fs ++ gs) v

namespace Outcome

variable {e : Expr} {faces : List Nat} {v : Evaluation}

theorem length_eq (h : Outcome e faces v) : faces.length = e.diceCount := by
  induction h with
  | const _ => rfl
  | dice hlength _ => exact hlength
  | binary _ _ _ ihl ihr => rw [List.length_append, ihl, ihr, Expr.diceCount]

/-- The faces behind those of the left operand are the right operand's. -/
theorem drop_append (h : Outcome e faces v) (more : List Nat) : (faces ++ more).drop e.diceCount = more := by
  rw [← h.length_eq, List.drop_left]

/-- The value is the exact value, whatever faces follow. -/
theorem exactValue_eq (h : Outcome e faces v) (more : List Nat) : e.exactValue (faces ++ more) = v.value.toInt := by
  induction h generalizing more with
  | const _ => rfl
  | @dice count sides faces v hlength hv =>
    rw [Expr.exactValue, List.take_left' hlength, Evaluation.value_of_ofFaces hv]
  | @binary op l r fs gs a b v hl _ hv ihl ihr =>
    rw [Expr.exactValue, List.append_assoc, ihl, hl.drop_append, ihr, Evaluation.value_of_join hv]

end Outcome

/-! ## Divisions by zero -/

/-- A division whose divisor is zero on the faces of its dice. -/
def Expr.isZeroDivision : Expr → List Nat → Bool
  | .binary .div l r, faces => r.exactValue (faces.drop l.diceCount) == 0
  | _, _ => false

/-- The node is such a division, where the expression that it belongs to has these faces. -/
def Visit.isZeroDivision (faces : List Nat) (x : Visit) : Bool :=
  x.node.isZeroDivision (faces.drop x.offset)

theorem Visit.isZeroDivision_after (count : Nat) (x : Visit) (faces : List Nat) :
    (x.after count).isZeroDivision faces = x.isZeroDivision (faces.drop count) := by
  rw [isZeroDivision, isZeroDivision, List.drop_drop]
  rfl

theorem Expr.isZeroDivision_binary {op : Operator} {l r : Expr} {fs gs : List Nat} {a b : Evaluation}
    (hl : Outcome l fs a) (hr : Outcome r gs b) (more : List Nat) :
    (Expr.binary op l r).isZeroDivision (fs ++ gs ++ more) = true ↔ op = .div ∧ b.value = 0 := by
  have hzero : b.value.toInt = 0 ↔ b.value = 0 := Int64.toInt_inj (y := 0)
  cases op with
  | add | sub | mul => simp [isZeroDivision]
  | div => simp [isZeroDivision, List.append_assoc, hl.drop_append, hr.exactValue_eq, hzero]

/-! ## Rolls -/

open Rolling

section

variable {σ : Type} [Tray σ]

theorem eval_outcome {e : Expr} {t t' : Logged σ} {v : Evaluation}
    (h : (e.eval : Rolling (Logged σ) Evaluation) t = (.ok v, t')) :
    ∃ faces, Event.faces t'.log = Event.faces t.log ++ faces ∧ Outcome e faces v := by
  induction e generalizing t t' v with
  | const value =>
    obtain ⟨_, t₁, hpoll, h⟩ := bind_eq_ok h
    cases h
    exact ⟨[], by rw [faces_log_checkTime hpoll, List.append_nil], .const value⟩
  | dice count sides =>
    rw [Expr.eval_dice] at h
    obtain ⟨_, t₁, hpoll, h⟩ := bind_eq_ok h
    split at h
    · cases h
    · obtain ⟨faces, t₂, hthrow, h⟩ := bind_eq_ok h
      obtain ⟨new, rfl, hlength, hlog⟩ := throwDice_log hthrow
      rw [run_liftExcept] at h
      obtain ⟨hv, rfl⟩ := Prod.mk.inj h
      exact ⟨faces, by rw [hlog, faces_log_checkTime hpoll], .dice hlength hv⟩
  | binary op l r ihl ihr =>
    obtain ⟨_, t₁, hpoll, h⟩ := bind_eq_ok h
    obtain ⟨a, t₂, hl, h⟩ := bind_eq_ok h
    obtain ⟨b, t₃, hr, h⟩ := bind_eq_ok h
    rw [run_liftExcept] at h
    obtain ⟨hv, rfl⟩ := Prod.mk.inj h
    obtain ⟨fs, hfs, hl⟩ := ihl hl
    obtain ⟨gs, hgs, hr⟩ := ihr hr
    exact ⟨fs ++ gs, by rw [hgs, hfs, faces_log_checkTime hpoll, List.append_assoc], .binary hl hr hv⟩

end

/-- A roll that has a result has the outcome on the faces that it throws. -/
theorem Expr.rollTimed_outcome {γ : Type} [WordSource γ] {timer : Nat → Bool} {e : Expr} {g : γ} {v : Evaluation}
    (h : (e.rollTimed timer g).1 = .ok v) : Outcome e (e.facesThrown timer g) v := by
  rw [rollTimed_eq_logged] at h
  have heval : e.eval (⟨⟨g, timer, 0⟩, []⟩ : Logged (TimedSource γ)) = (.ok v, (e.rollLogged timer g).2) :=
    Prod.ext h rfl
  obtain ⟨faces, hfaces, houtcome⟩ := eval_outcome heval
  rw [facesThrown, hfaces]
  exact houtcome

end DiceNotation
