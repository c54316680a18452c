import DiceNotation.Proofs.Evaluation

/-!
# The faces that a roll throws

`Die.Shows ss g ns g'` says that dice with the sides `ss`, thrown from the source `g` one after another, show the faces
`ns` and leave the source `g'`. A roll whose time is never up gets all dice of a term, in order (`throwDice_never`).
-/

namespace DiceNotation

variable {γ : Type} [WordSource γ]

/-- Dice are thrown one after another, and each shows one of its faces. -/
inductive Die.Shows : List UInt32 → γ → List Nat → γ → Prop
  | nil (g : γ) : Shows [] g [] g
  | cons {sides : UInt32} {ss : List UInt32} {n : Nat} {ns : List Nat} {g g' g'' : γ} :
      Die.roll sides g = (n, g') → 1 ≤ n ∧ n ≤ sides.toNat → Shows ss g' ns g'' → Shows (sides :: ss) g (n :: ns) g''

namespace Die.Shows

variable {ss ss' : List UInt32} {ns ns' : List Nat} {g g' g'' : γ}

theorem trans (h : Shows ss g ns g') (h' : Shows ss' g' ns' g'') : Shows (ss ++ ss') g (ns ++ ns') g'' := by
  induction h with
  | nil g => exact h'
  | cons hroll hmem _ ih => exact .cons hroll hmem (ih h')

theorem length_eq (h : Shows ss g ns g') : ns.length = ss.length := by
  induction h with
  | nil g => rfl
  | cons _ _ _ ih => simp [ih]

end Die.Shows

namespace Rolling

theorem checkTime_never (g : γ) (polls : Nat) :
    (checkTime : Rolling (TimedSource γ) Unit) ⟨g, Timer.never, polls⟩ = (.ok (), ⟨g, Timer.never, polls + 1⟩) :=
  rfl

end Rolling

open Rolling

/-- All dice of a term are thrown if the time is never up. -/
theorem throwDice_never {sides : UInt32} (hs : 0 < sides) (left thrown : Nat) (before : List Nat) (g : γ)
    (polls : Nat) :
    ∃ faces g' polls', throwDice sides left thrown before ⟨g, Timer.never, polls⟩ =
        (.ok (before.reverse ++ faces), (⟨g', Timer.never, polls'⟩ : TimedSource γ)) ∧
      Die.Shows (List.replicate left sides) g faces g' := by
  induction left generalizing thrown before g polls with
  | zero => exact ⟨[], g, polls, by rw [List.append_nil]; rfl, .nil g⟩
  | succ left ih =>
    obtain ⟨polls₁, hpoll⟩ : ∃ polls₁, (if (thrown + 1) % pollInterval = 0 then checkTime else pure () :
        Rolling (TimedSource γ) Unit) ⟨g, Timer.never, polls⟩ = (.ok (), ⟨g, Timer.never, polls₁⟩) := by
      split
      · exact ⟨polls + 1, checkTime_never g polls⟩
      · exact ⟨polls, rfl⟩
    rcases hroll : Die.roll sides g with ⟨n, g₁⟩
    have hmem : 1 ≤ n ∧ n ≤ sides.toNat := by
      have := Die.roll_mem hs g
      rwa [hroll] at this
    have hthrow : throwDie sides ⟨g, Timer.never, polls₁⟩ = (.ok n, (⟨g₁, Timer.never, polls₁⟩ : TimedSource γ)) := by
      simp [run_throwDie, Tray.throwDie, hroll]
    obtain ⟨faces, g', polls', hrest, hshows⟩ := ih (thrown + 1) (n :: before) g₁ polls₁
    refine ⟨n :: faces, g', polls', ?_, .cons hroll hmem hshows⟩
    rw [throwDice_succ, bind_of_ok hpoll, bind_of_ok hthrow, hrest]
    simp

end DiceNotation
