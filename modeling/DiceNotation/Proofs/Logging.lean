import DiceNotation.Proofs.Evaluation

/-!
# Rolls that keep a log

A `Logged` tray is a tray with a list of all it was asked: the questions for the time and the faces thrown, in order.
Since an evaluation only ever uses the interface of its tray, a relation between computations over two trays that holds
of this interface and is kept by sequences holds of the evaluations of every expression (`Rolling.Relation.eval`). So a
roll that keeps a log is the roll itself (`Expr.rollTimed_eq_logged`). What a dice term adds to the log is known die by
die (`throwDice_step`); a term with a result has added the faces of its dice in order (`throwDice_log`).
-/

namespace DiceNotation

/-! ## What two trays have in common -/

/-- A relation between computations over two trays that holds of all that a roll is made of. -/
structure Rolling.Relation {σ τ : Type} [Tray σ] [Tray τ] (R : (α : Type) → Rolling σ α → Rolling τ α → Prop) :
    Prop where
  liftExcept : ∀ {α : Type} (x : Except EvalError α), R α (liftExcept x) (liftExcept x)
  checkTime : R Unit checkTime checkTime
  throwDie : ∀ sides : UInt32, R Nat (throwDie sides) (throwDie sides)
  bind : ∀ {α β : Type} {x : Rolling σ α} {y : Rolling τ α} {f : α → Rolling σ β} {g : α → Rolling τ β},
    R α x y → (∀ a, R β (f a) (g a)) → R β (x >>= f) (y >>= g)

namespace Rolling.Relation

variable {σ τ : Type} [Tray σ] [Tray τ] {R : (α : Type) → Rolling σ α → Rolling τ α → Prop}

theorem throwDice (h : Relation R) (sides : UInt32) (left thrown : Nat) (before : List Nat) :
    R (List Nat) (throwDice sides left thrown before) (throwDice sides left thrown before) := by
  induction left generalizing thrown before with
  | zero => exact h.liftExcept (.ok before.reverse)
  | succ left ih =>
    simp only [throwDice_succ]
    have hpoll : R Unit (if (thrown + 1) % pollInterval = 0 then Rolling.checkTime else pure ())
        (if (thrown + 1) % pollInterval = 0 then Rolling.checkTime else pure ()) := by
      split
      · exact h.checkTime
      · exact h.liftExcept (.ok ())
    exact h.bind hpoll fun _ => h.bind (h.throwDie sides) fun n => ih (thrown + 1) (n :: before)

theorem eval (h : Relation R) (e : Expr) : R Evaluation e.eval e.eval := by
  induction e with
  | const value => exact h.bind h.checkTime fun _ => h.liftExcept (.ok (Evaluation.ofConst value))
  | dice count sides =>
    simp only [Expr.eval_dice]
    refine h.bind h.checkTime fun _ => ?_
    split
    · exact h.liftExcept (.error .noSides)
    · exact h.bind (h.throwDice sides _ _ _) fun faces => h.liftExcept (Evaluation.ofFaces faces)
  | binary op l r ihl ihr =>
    exact h.bind h.checkTime fun _ => h.bind ihl fun a => h.bind ihr fun b => h.liftExcept (Evaluation.join op a b)

end Rolling.Relation

/-! ## Logs -/

inductive Event where
  | question
  | face (n : Nat)
  deriving DecidableEq

namespace Event

def questions (events : List Event) : Nat :=
  events.count .question

def faces (events : List Event) : List Nat :=
  events.filterMap fun
    | question => none
    | face n => some n

@[simp] theorem questions_nil : questions [] = 0 := rfl

@[simp] theorem questions_question (events : List Event) : questions (question :: events) = questions events + 1 :=
  List.count_cons_self

@[simp] theorem questions_face (n : Nat) (events : List Event) : questions (face n :: events) = questions events :=
  List.count_cons_of_ne (by simp)

@[simp] theorem faces_nil : faces [] = [] := rfl

@[simp] theorem faces_question (events : List Event) : faces (question :: events) = faces events := rfl

@[simp] theorem faces_face (n : Nat) (events : List Event) : faces (face n :: events) = n :: faces events := rfl

theorem questions_append (es fs : List Event) : questions (es ++ fs) = questions es + questions fs :=
  List.count_append

theorem faces_append (es fs : List Event) : faces (es ++ fs) = faces es ++ faces fs :=
  List.filterMap_append

end Event

/-- A tray and all that it was asked so far. -/
structure Logged (σ : Type) where
  tray : σ
  log : List Event := []

instance {σ : Type} [Tray σ] : Tray (Logged σ) where
  timeUp t :=
    let (up, tray) := Tray.timeUp t.tray
    (up, ⟨tray, t.log ++ [.question]⟩)
  throwDie sides t :=
    let (n, tray) := Tray.throwDie sides t.tray
    (n, ⟨tray, t.log ++ [.face n]⟩)

/-- The log changes nothing. -/
theorem Logged.relation {σ : Type} [Tray σ] :
    Rolling.Relation fun α (x : Rolling (Logged σ) α) (y : Rolling σ α) =>
      ∀ t : Logged σ, y t.tray = ((x t).1, (x t).2.tray) where
  liftExcept x t := by rw [Rolling.run_liftExcept, Rolling.run_liftExcept]
  checkTime t := by
    rw [Rolling.run_checkTime, Rolling.run_checkTime]
    rfl
  throwDie sides t := rfl
  bind {α β x y f g} hxy hfg t := by
    rw [Rolling.run_bind, Rolling.run_bind, hxy t]
    rcases x t with ⟨_ | a, t'⟩
    · rfl
    · exact hfg a t'

section

open Rolling

variable {σ : Type} [Tray σ]

theorem log_checkTime {t t' : Logged σ} {x : Except EvalError Unit}
    (h : (checkTime : Rolling (Logged σ) Unit) t = (x, t')) : t'.log = t.log ++ [.question] := by
  rw [run_checkTime] at h
  cases h
  rfl

theorem faces_log_checkTime {t t' : Logged σ} {x : Except EvalError Unit}
    (h : (checkTime : Rolling (Logged σ) Unit) t = (x, t')) : Event.faces t'.log = Event.faces t.log := by
  simp [log_checkTime h, Event.faces_append]

/-- What a dice term does next: before every 256th die it asks, and may be told that its time is up; then it throws. -/
theorem throwDice_step {sides : UInt32} {left thrown : Nat} {before : List Nat} {t t' : Logged σ}
    {x : Except EvalError (List Nat)}
    (h : (throwDice sides (left + 1) thrown before : Rolling (Logged σ) (List Nat)) t = (x, t')) :
    ((thrown + 1) % 256 = 0 ∧ t'.log = t.log ++ [.question] ∧ ∃ error, x = .error error) ∨
      ∃ (n : Nat) (t₁ : Logged σ), (∃ s : σ, (Tray.throwDie sides s).1 = n) ∧
        t₁.log = t.log ++ (if (thrown + 1) % 256 = 0 then [.question] else []) ++ [.face n] ∧
        throwDice sides left (thrown + 1) (n :: before) t₁ = (x, t') := by
  have hinterval : pollInterval = 256 := rfl
  rw [throwDice_succ, hinterval] at h
  by_cases hask : (thrown + 1) % 256 = 0
  · rw [if_pos hask] at h ⊢
    rcases bind_cases h with ⟨_, t₁, hpoll, h⟩ | ⟨error, hpoll, hx⟩
    · rw [← log_checkTime hpoll]
      exact .inr ⟨_, _, ⟨t₁.tray, rfl⟩, rfl, h⟩
    · exact .inl ⟨hask, log_checkTime hpoll, error, hx⟩
  · rw [if_neg hask, pure_bind] at h
    rw [if_neg hask, List.append_nil]
    exact .inr ⟨_, _, ⟨t.tray, rfl⟩, rfl, h⟩

theorem throwDice_log {sides : UInt32} {left thrown : Nat} {before faces : List Nat} {t t' : Logged σ}
    (h : (throwDice sides left thrown before : Rolling (Logged σ) (List Nat)) t = (.ok faces, t')) :
    ∃ new, faces = before.reverse ++ new ∧ new.length = left ∧ Event.faces t'.log = Event.faces t.log ++ new := by
  induction left generalizing thrown before t with
  | zero =>
    rw [throwDice, run_pure] at h
    cases h
    exact ⟨[], by simp, rfl, by simp⟩
  | succ left ih =>
    rcases throwDice_step h with ⟨-, -, error, hx⟩ | ⟨n, t₁, -, hthrown, h⟩
    · cases hx
    · obtain ⟨new, rfl, hlength, hlog⟩ := ih h
      refine ⟨n :: new, by simp, by rw [List.length_cons, hlength], ?_⟩
      rw [hlog, hthrown, Event.faces_append, Event.faces_append]
      split <;> simp

end

namespace Expr

variable {γ : Type} [WordSource γ]

/-- A roll that keeps a log. -/
def rollLogged (timer : Nat → Bool) (e : Expr) (g : γ) : Except EvalError Evaluation × Logged (TimedSource γ) :=
  e.eval ⟨⟨g, timer, 0⟩, []⟩

theorem rollTimed_eq_logged (timer : Nat → Bool) (e : Expr) (g : γ) :
    e.rollTimed timer g =
      ((e.rollLogged timer g).1, (e.rollLogged timer g).2.tray.polls, (e.rollLogged timer g).2.tray.source) := by
  have h := Logged.relation.eval e (⟨⟨g, timer, 0⟩, []⟩ : Logged (TimedSource γ))
  unfold rollTimed rollLogged
  rw [h]

/-- The faces that a roll throws, in order. -/
def facesThrown (timer : Nat → Bool) (e : Expr) (g : γ) : List Nat :=
  Event.faces (e.rollLogged timer g).2.log

end Expr

end DiceNotation
