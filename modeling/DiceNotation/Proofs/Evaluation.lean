import DiceNotation.Roll.Evaluate

/-!
# Evaluations

As a number, what a node makes of its faces or operands is the exact result or an overflow (`Evaluation.number_ofFaces`,
`Evaluation.number_join`).

A sequence of computations over a tray ends with a result only if all of them do (`bind_eq_ok`), so a successful
evaluation can be taken apart along its expression (`eval_const_ok`, `eval_dice_ok`, `eval_binary_ok`). The faces of a
dice term are as many as its dice, and on a `FairTray` each lies between 1 and the number of sides (`throwDice_ok`).
-/

namespace DiceNotation

namespace Rolling

variable {σ α β : Type}

theorem run_pure (a : α) (t : σ) : (pure a : Rolling σ α) t = (.ok a, t) := rfl

theorem run_throw (e : EvalError) (t : σ) : (throw e : Rolling σ α) t = (.error e, t) := rfl

theorem run_liftExcept (x : Except EvalError α) (t : σ) : (liftExcept x : Rolling σ α) t = (x, t) := by
  cases x <;> rfl

theorem bind_eq_ok {x : Rolling σ α} {f : α → Rolling σ β} {t t' : σ} {b : β} (h : (x >>= f) t = (.ok b, t')) :
    ∃ a s, x t = (.ok a, s) ∧ f a s = (.ok b, t') := by
  rw [run_bind] at h
  rcases hx : x t with ⟨e | a, s⟩
  · rw [hx] at h
    cases h
  · rw [hx] at h
    exact ⟨a, s, rfl, h⟩

/-- A sequence goes on after a result, and ends with an error. -/
theorem bind_cases {x : Rolling σ α} {f : α → Rolling σ β} {t t' : σ} {result : Except EvalError β}
    (h : (x >>= f) t = (result, t')) :
    (∃ a s, x t = (.ok a, s) ∧ f a s = (result, t')) ∨ ∃ error, x t = (.error error, t') ∧ result = .error error := by
  rw [run_bind] at h
  rcases hx : x t with ⟨e | a, s⟩
  · rw [hx] at h
    cases h
    exact .inr ⟨e, rfl, rfl⟩
  · rw [hx] at h
    exact .inl ⟨a, s, rfl, h⟩

theorem bind_of_ok {x : Rolling σ α} {f : α → Rolling σ β} {t s : σ} {a : α} (h : x t = (.ok a, s)) :
    (x >>= f) t = f a s := by
  rw [run_bind, h]

theorem bind_of_error {x : Rolling σ α} {f : α → Rolling σ β} {t s : σ} {e : EvalError} (h : x t = (.error e, s)) :
    (x >>= f) t = (.error e, s) := by
  rw [run_bind, h]

end Rolling

/-! ## Results -/

/-- The outcome of a computation whose exact result is `n`. -/
def Value.checked (n : Int) : Except EvalError Int :=
  if Fits n then .ok n else .error .overflow

theorem Value.checked_eq_ok {m n : Int} (h : checked n = .ok m) : m = n := by
  unfold checked at h
  split at h
  · exact (Except.ok.inj h).symm
  · cases h

namespace Evaluation

/-- The value of a result as a number. -/
def number (x : Except EvalError Evaluation) : Except EvalError Int :=
  x.map fun v => v.value.toInt

theorem number_of_exact {n : Int} {value : Value} {trace : String} (h : value.toInt = n) :
    number (.ok ⟨value, trace⟩) = Value.checked n := by
  subst h
  rw [Value.checked, if_pos (Value.fits_toInt value)]
  rfl

theorem number_ofInt? (n : Int) (trace : String) :
    number (match Value.ofInt? n with
      | some value => .ok ⟨value, trace⟩
      | none => .error .overflow) = Value.checked n := by
  cases h : Value.ofInt? n with
  | some value => exact number_of_exact (Value.ofInt?_eq_some_iff.1 h)
  | none =>
    rw [Value.checked, if_neg (Value.ofInt?_eq_none_iff.1 h)]
    rfl

theorem number_ofFaces (faces : List Nat) : number (ofFaces faces) = Value.checked (total faces) :=
  number_ofInt? _ _

theorem number_join (op : Operator) (a b : Evaluation) :
    number (join op a b) = Value.checked (op.exact a.value.toInt b.value.toInt) := by
  unfold join
  split
  · next hz =>
    refine number_of_exact ?_
    rw [hz.1, hz.2]
    exact (Operator.exact_div_zero _).symm
  · exact number_ofInt? _ _

/-- A result whose exact number is a value is that value. -/
theorem ok_of_fits {x : Except EvalError Evaluation} {n : Int} (h : number x = Value.checked n) (hn : Value.Fits n) :
    ∃ v, x = .ok v ∧ v.value.toInt = n := by
  rw [Value.checked, if_pos hn] at h
  cases x with
  | error _ => cases h
  | ok v => exact ⟨v, rfl, Except.ok.inj h⟩

theorem ok_of_number {x : Except EvalError Evaluation} {v : Value} (h : number x = Value.checked v.toInt) :
    ∃ trace, x = .ok ⟨v, trace⟩ := by
  obtain ⟨⟨value, trace⟩, hx, hvalue⟩ := ok_of_fits h (Value.fits_toInt v)
  obtain rfl : value = v := Int64.toInt_inj.1 hvalue
  exact ⟨trace, hx⟩

theorem value_of_ofFaces {faces : List Nat} {v : Evaluation} (h : ofFaces faces = .ok v) :
    v.value.toInt = total faces := by
  have hnumber := number_ofFaces faces
  rw [h] at hnumber
  exact Value.checked_eq_ok hnumber.symm

theorem value_of_join {op : Operator} {a b v : Evaluation} (h : join op a b = .ok v) :
    v.value.toInt = op.exact a.value.toInt b.value.toInt := by
  have hnumber := number_join op a b
  rw [h] at hnumber
  exact Value.checked_eq_ok hnumber.symm

end Evaluation

/-! ## Taking an evaluation apart -/

/-- A tray whose dice show one of their faces. -/
class FairTray (σ : Type) [Tray σ] : Prop where
  throwDie_mem : ∀ (sides : UInt32) (t : σ), 0 < sides →
    1 ≤ (Tray.throwDie sides t).1 ∧ (Tray.throwDie sides t).1 ≤ sides.toNat

instance {γ : Type} [WordSource γ] : FairTray (TimedSource γ) where
  throwDie_mem _ t h := Die.roll_mem h t.source

/-- The faces of so many dice of one kind. -/
structure AreFaces (count : Nat) (sides : UInt32) (faces : List Nat) : Prop where
  length_eq : faces.length = count
  mem : ∀ n ∈ faces, 1 ≤ n ∧ n ≤ sides.toNat

section Inversion

open Rolling

variable {σ : Type} [Tray σ]

theorem throwDice_succ (sides : UInt32) (left thrown : Nat) (before : List Nat) :
    (throwDice sides (left + 1) thrown before : Rolling σ (List Nat)) =
      (if (thrown + 1) % pollInterval = 0 then checkTime else pure ()) >>= fun _ =>
        throwDie sides >>= fun n => throwDice sides left (thrown + 1) (n :: before) := by
  rw [throwDice]
  split <;> rfl

theorem throwDice_ok [FairTray σ] {sides : UInt32} (hs : 0 < sides) {left thrown : Nat} {before faces : List Nat}
    {t t' : σ} (h : (throwDice sides left thrown before : Rolling σ (List Nat)) t = (.ok faces, t')) :
    ∃ new, faces = before.reverse ++ new ∧ AreFaces left sides new := by
  induction left generalizing thrown before t with
  | zero =>
    rw [throwDice, run_pure] at h
    cases h
    exact ⟨[], by simp, rfl, by simp⟩
  | succ left ih =>
    rw [throwDice_succ] at h
    obtain ⟨-, t₁, -, h⟩ := bind_eq_ok h
    obtain ⟨n, t₂, hn, h⟩ := bind_eq_ok h
    obtain ⟨new, rfl, hnew⟩ := ih h
    rw [run_throwDie] at hn
    cases hn
    refine ⟨(Tray.throwDie sides t₁).1 :: new, by simp, by simp [hnew.length_eq], ?_⟩
    intro m hm
    rcases List.mem_cons.1 hm with rfl | hm
    · exact FairTray.throwDie_mem sides t₁ hs
    · exact hnew.mem m hm

namespace Expr

theorem eval_const_ok {value : Value} {t t' : σ} {v : Evaluation}
    (h : (eval (.const value) : Rolling σ Evaluation) t = (.ok v, t')) : v = .ofConst value := by
  obtain ⟨-, _, -, h⟩ := bind_eq_ok h
  cases h
  rfl

theorem eval_dice (count sides : UInt32) :
    (eval (.dice count sides) : Rolling σ Evaluation) =
      checkTime >>= fun _ =>
        if sides = 0 then throw .noSides
        else throwDice sides count.toNat 0 [] >>= fun faces => liftExcept (Evaluation.ofFaces faces) := by
  rw [eval]
  split <;> rfl

theorem eval_dice_ok [FairTray σ] {count sides : UInt32} {t t' : σ} {v : Evaluation}
    (h : (eval (.dice count sides) : Rolling σ Evaluation) t = (.ok v, t')) :
    0 < sides ∧ ∃ faces, AreFaces count.toNat sides faces ∧ Evaluation.ofFaces faces = .ok v := by
  rw [eval_dice] at h
  obtain ⟨-, t₁, -, h⟩ := bind_eq_ok h
  by_cases hs : sides = 0
  · rw [if_pos hs, run_throw] at h
    cases h
  · rw [if_neg hs] at h
    obtain ⟨faces, t₂, hf, h⟩ := bind_eq_ok h
    have hpos : 0 < sides := UInt32.pos_iff_ne_zero.2 hs
    obtain ⟨new, hnew, hfaces⟩ := throwDice_ok hpos hf
    rw [run_liftExcept] at h
    obtain ⟨hv, -⟩ := Prod.mk.inj h
    exact ⟨hpos, faces, by simpa [hnew] using hfaces, hv⟩

theorem eval_binary_ok {op : Operator} {l r : Expr} {t t' : σ} {v : Evaluation}
    (h : (eval (.binary op l r) : Rolling σ Evaluation) t = (.ok v, t')) :
    ∃ a b t₁ t₂, (eval l : Rolling σ Evaluation) t₁ = (.ok a, t₂) ∧ (eval r : Rolling σ Evaluation) t₂ = (.ok b, t') ∧
      Evaluation.join op a b = .ok v := by
  obtain ⟨-, t₁, -, h⟩ := bind_eq_ok h
  obtain ⟨a, t₂, hl, h⟩ := bind_eq_ok h
  obtain ⟨b, t₃, hr, h⟩ := bind_eq_ok h
  rw [run_liftExcept] at h
  obtain ⟨hv, rfl⟩ := Prod.mk.inj h
  exact ⟨a, b, t₁, t₂, hl, hr, hv⟩

end Expr

end Inversion

end DiceNotation
