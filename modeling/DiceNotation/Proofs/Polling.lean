import Mathlib.Algebra.GroupWithZero.Nat
import DiceNotation.Proofs.Interruption
import DiceNotation.Proofs.Overflow

/-!
# How often a roll asks for the time

Events are paced if no more than 256 dice are thrown from one question to the next (`Event.Paced`). When `thrown` dice
of a term have been thrown, the last question was at a multiple of 256 of them or at the node itself, so no more than
`thrown % 256 + 1` dice came after it: an invariant that every die of the term keeps (`throwDice_paced`).

A computation polls so many times if its events are paced, wherever it is begun, and have so many questions when it has
a result (`Rolling.Polls`). Every node begins with a question, so the counts of its parts add up (`Polls.ask`,
`Polls.bind`), and a roll with a result **has asked once for every node and once for every 256 dice of a term**
(`Expr.polls_paced`).
-/

namespace DiceNotation

open Event

namespace Event

/-- No more than 256 dice are thrown from one question to the next, where `idle` came after the last one already. -/
def Paced : (idle : Nat) → List Event → Prop
  | _, [] => True
  | _, question :: events => Paced 0 events
  | idle, face _ :: events => idle < 256 ∧ Paced (idle + 1) events

namespace Paced

variable {idle : Nat} {es fs before between after : List Event}

/-- After 256 dice the next event is a question, and then it does not matter what came before it. -/
theorem weaken (h : Paced 256 es) : Paced idle es := by
  cases es with
  | nil => trivial
  | cons event es =>
    cases event with
    | question => exact h
    | face n => exact absurd h.1 (Nat.lt_irrefl 256)

theorem append (hes : Paced idle es) (hfs : Paced 256 fs) : Paced idle (es ++ fs) := by
  induction es generalizing idle with
  | nil => exact hfs.weaken
  | cons event es ih =>
    cases event with
    | question => exact ih hes
    | face n => exact ⟨hes.1, ih hes.2⟩

theorem add_length_le (h : Paced idle (between ++ after)) (hidle : idle ≤ 256) (hnone : question ∉ between) :
    idle + between.length ≤ 256 := by
  induction between generalizing idle with
  | nil => exact hidle
  | cons event between ih =>
    cases event with
    | question => exact absurd List.mem_cons_self hnone
    | face n =>
      have hle := ih h.2 h.1 fun hmem => hnone (List.mem_cons_of_mem _ hmem)
      rw [List.length_cons]
      omega

/-- A part of paced events that has no question is short. -/
theorem length_le (h : Paced idle (before ++ between ++ after)) (hidle : idle ≤ 256) (hnone : question ∉ between) :
    between.length ≤ 256 := by
  rw [List.append_assoc] at h
  induction before generalizing idle with
  | nil =>
    have h : Paced idle (between ++ after) := h
    have hle := h.add_length_le hidle hnone
    omega
  | cons event before ih =>
    cases event with
    | question => exact ih h (Nat.zero_le _)
    | face n => exact ih h.2 h.1

end Paced

end Event

/-! ## Dice of a term -/

open Rolling

section

variable {σ α β : Type}

/-- The rest of a dice term is paced, and asks at every multiple of 256 dice. -/
theorem throwDice_paced [Tray σ] {sides : UInt32} {left thrown idle : Nat} {before : List Nat} {t t' : Logged σ}
    {x : Except EvalError (List Nat)} (hidle : idle ≤ thrown % 256 + 1)
    (h : (throwDice sides left thrown before : Rolling (Logged σ) (List Nat)) t = (x, t')) :
    ∃ events, t'.log = t.log ++ events ∧ Paced idle events ∧
      ∀ faces, x = .ok faces → thrown / 256 + questions events = (thrown + left) / 256 := by
  induction left generalizing thrown idle before t with
  | zero =>
    rw [throwDice, run_pure] at h
    cases h
    exact ⟨[], by simp, trivial, fun _ _ => rfl⟩
  | succ left ih =>
    rcases throwDice_step h with ⟨-, hlog, error, rfl⟩ | ⟨n, t₁, -, hlog, h⟩
    · exact ⟨[question], hlog, trivial, fun _ hx => by cases hx⟩
    · by_cases hask : (thrown + 1) % 256 = 0
      · have hidle : 1 ≤ (thrown + 1) % 256 + 1 := by omega
        obtain ⟨events, hevents, hpaced, hcount⟩ := ih hidle h
        refine ⟨question :: face n :: events, ?_, ⟨by decide, hpaced⟩, fun faces hx => ?_⟩
        · rw [hevents, hlog, if_pos hask]
          simp
        · have hcount := hcount faces hx
          rw [questions_question, questions_face]
          omega
      · have hidle : idle + 1 ≤ (thrown + 1) % 256 + 1 := by omega
        obtain ⟨events, hevents, hpaced, hcount⟩ := ih hidle h
        refine ⟨face n :: events, ?_, ⟨by omega, hpaced⟩, fun faces hx => ?_⟩
        · rw [hevents, hlog, if_neg hask]
          simp
        · have hcount := hcount faces hx
          rw [questions_face]
          omega

/-! ## Computations -/

/-- From every tray the computation adds paced events, with so many questions if it has a result. -/
def Rolling.Polls (idle : Nat) (x : Rolling (Logged σ) α) (count : Nat) : Prop :=
  ∀ t, ∃ events, (x t).2.log = t.log ++ events ∧ Paced idle events ∧ ∀ a, (x t).1 = .ok a → questions events = count

namespace Rolling.Polls

variable {idle m n : Nat} {x : Rolling (Logged σ) α} {f : α → Rolling (Logged σ) β}

theorem weaken (h : Polls 256 x n) : Polls idle x n := by
  intro t
  obtain ⟨events, hlog, hpaced, hcount⟩ := h t
  exact ⟨events, hlog, hpaced.weaken, hcount⟩

theorem liftExcept (result : Except EvalError α) : Polls idle (liftExcept result : Rolling (Logged σ) α) 0 := by
  intro t
  rw [run_liftExcept]
  exact ⟨[], by simp, trivial, fun _ _ => rfl⟩

theorem throw (error : EvalError) : Polls idle (throw error : Rolling (Logged σ) α) n := by
  intro t
  exact ⟨[], by rw [run_throw]; simp, trivial, fun _ hx => by cases hx⟩

theorem bind (hx : Polls idle x m) (hf : ∀ a, Polls 256 (f a) n) : Polls idle (x >>= f) (m + n) := by
  intro t
  obtain ⟨es, hes, hpaced, hcount⟩ := hx t
  rcases hrun : x t with ⟨error | a, t₁⟩
  · rw [hrun] at hes
    rw [bind_of_error hrun]
    exact ⟨es, hes, hpaced, fun _ hx => by cases hx⟩
  · rw [hrun] at hes hcount
    obtain ⟨fs, hfs, hpaced', hcount'⟩ := hf a t₁
    rw [bind_of_ok hrun]
    refine ⟨es ++ fs, by rw [hfs, hes, List.append_assoc], hpaced.append hpaced', fun b hb => ?_⟩
    rw [questions_append, hcount a rfl, hcount' b hb]

/-- After a question the pace starts anew. -/
theorem ask [Tray σ] {f : Unit → Rolling (Logged σ) β} (hf : ∀ u, Polls 0 (f u) n) :
    Polls idle (checkTime >>= f) (1 + n) := by
  intro t
  rcases hrun : (checkTime : Rolling (Logged σ) Unit) t with ⟨error | u, t₁⟩
  · rw [bind_of_error hrun]
    exact ⟨[question], log_checkTime hrun, trivial, fun _ hx => by cases hx⟩
  · obtain ⟨es, hes, hpaced, hcount⟩ := hf u t₁
    rw [bind_of_ok hrun]
    refine ⟨question :: es, by rw [hes, log_checkTime hrun]; simp, hpaced, fun b hb => ?_⟩
    rw [questions_question, hcount b hb, Nat.add_comm]

theorem throwDice [Tray σ] (sides : UInt32) (count : Nat) :
    Polls 0 (throwDice sides count 0 [] : Rolling (Logged σ) (List Nat)) (count / 256) := by
  intro t
  obtain ⟨events, hlog, hpaced, hcount⟩ :=
    throwDice_paced (Nat.zero_le _) (Prod.eta (DiceNotation.throwDice sides count 0 [] t)).symm
  refine ⟨events, hlog, hpaced, fun faces hx => ?_⟩
  have hcount := hcount faces hx
  omega

end Rolling.Polls

end

/-! ## Expressions -/

namespace Expr

/-- How many times a dice term completes 256 dice. -/
def rounds : Expr → Nat
  | dice count _ => count.toNat / 256
  | _ => 0

/-- One question for every node, and one for every 256 dice of a term. -/
def pollCount (e : Expr) : Nat :=
  e.parts.length + (e.parts.map rounds).sum

theorem pollCount_dice (count sides : UInt32) : (dice count sides).pollCount = 1 + count.toNat / 256 := by
  simp [pollCount, parts, visits, rounds]

theorem pollCount_binary (op : Operator) (l r : Expr) :
    (binary op l r).pollCount = 1 + (l.pollCount + r.pollCount) := by
  simp only [pollCount, parts_binary, List.length_append, List.length_singleton, List.map_append, List.sum_append,
    List.map_singleton, List.sum_singleton, rounds]
  omega

theorem polls_eval {σ : Type} [Tray σ] (e : Expr) : Polls 256 (e.eval : Rolling (Logged σ) Evaluation) e.pollCount := by
  induction e with
  | const value => exact .ask fun _ => .liftExcept (.ok (Evaluation.ofConst value))
  | dice count sides =>
    rw [eval_dice, pollCount_dice]
    refine .ask fun _ => ?_
    split
    · exact .throw .noSides
    · exact (Polls.throwDice sides count.toNat).bind fun faces => .liftExcept (Evaluation.ofFaces faces)
  | binary op l r ihl ihr =>
    rw [pollCount_binary]
    exact .ask fun _ => ihl.weaken.bind fun a => ihr.bind fun b => .liftExcept (Evaluation.join op a b)

end Expr

/-! ## Rolls -/

variable {γ : Type} [WordSource γ]

/-- The questions are counted as they are logged. -/
theorem polls_relation : Rolling.Relation fun α (x _ : Rolling (Logged (TimedSource γ)) α) =>
    ∀ t, (x t).2.tray.polls + questions t.log = t.tray.polls + questions (x t).2.log where
  liftExcept x t := by rw [run_liftExcept]
  checkTime t := by
    rw [run_checkTime]
    show t.tray.polls + 1 + questions t.log = t.tray.polls + questions (t.log ++ [question])
    rw [questions_append, questions_question, questions_nil]
    omega
  throwDie sides t := by
    show t.tray.polls + questions t.log = t.tray.polls + questions (t.log ++ [face _])
    rw [questions_append, questions_face, questions_nil, Nat.add_zero]
  bind {α β x y f f'} hx hf t := by
    have hx := hx t
    rw [run_bind]
    rcases hrun : x t with ⟨error | a, t₁⟩
    · rw [hrun] at hx
      exact hx
    · rw [hrun] at hx
      have hf := hf a t₁
      dsimp only at hx hf ⊢
      omega

namespace Expr

theorem rollTimed_polls (timer : Nat → Bool) (e : Expr) (g : γ) :
    (e.rollTimed timer g).2.1 = questions (e.rollLogged timer g).2.log := by
  have hrelated := polls_relation.eval e (⟨⟨g, timer, 0⟩, []⟩ : Logged (TimedSource γ))
  rw [questions_nil, Nat.add_zero, Nat.zero_add] at hrelated
  rw [rollTimed_eq_logged]
  exact hrelated

/-- **A roll asks for the time often enough, and as often as its expression says.** There is a question before its first
die, no part of it without a question throws more than 256 dice, and a roll that has a result has asked once for every
node and once for every 256 dice of a term. -/
theorem polls_paced (timer : Nat → Bool) (e : Expr) (g : γ) :
    (∀ before n after, (e.rollLogged timer g).2.log = before ++ face n :: after → question ∈ before) ∧
    (∀ before between after, (e.rollLogged timer g).2.log = before ++ between ++ after → question ∉ between →
      (faces between).length ≤ 256) ∧
    (e.rollTimed timer g).2.1 = questions (e.rollLogged timer g).2.log ∧
    ∀ v, (e.rollTimed timer g).1 = .ok v →
      (e.rollTimed timer g).2.1 = e.parts.length + (e.parts.map rounds).sum := by
  obtain ⟨events, hlog, hpaced, hcount⟩ := e.polls_eval (⟨⟨g, timer, 0⟩, []⟩ : Logged (TimedSource γ))
  have hlog : (e.rollLogged timer g).2.log = events := hlog
  rw [rollTimed_polls, hlog]
  refine ⟨?_, ?_, rfl, fun v hv => ?_⟩
  · rintro before n after rfl
    by_contra hnone
    have hpaced : Paced 256 ((before ++ [face n]) ++ after) := by
      rw [List.append_assoc]
      exact hpaced
    have hle := hpaced.add_length_le (Nat.le_refl 256) (by simpa using hnone)
    rw [List.length_append, List.length_singleton] at hle
    omega
  · rintro before between after rfl hnone
    exact Nat.le_trans (List.length_filterMap_le _ _) (hpaced.length_le (Nat.le_refl 256) hnone)
  · rw [rollTimed_eq_logged] at hv
    exact hcount v hv

/-- `300d6 / (0d6 + 256d1)`: three terms with one, no and one question for their dice, and five nodes. -/
def manyDice : Expr :=
  .binary .div (.dice 300 6) (.binary .add (.dice 0 6) (.dice 256 1))

theorem manyDice_polls_paced :
    (manyDice.rollTimed Timer.never (Cycle.ofList [0, 0x8000000000000000])).2.1 = 7 ∧
      ∀ before between after,
        (manyDice.rollLogged Timer.never (Cycle.ofList [0, 0x8000000000000000])).2.log = before ++ between ++ after →
          question ∉ between → (faces between).length ≤ 256 := by
  obtain ⟨-, hspaced, -, hcount⟩ := polls_paced Timer.never manyDice (Cycle.ofList [0, 0x8000000000000000])
  have hresult : (manyDice.rollTimed Timer.never (Cycle.ofList [0, 0x8000000000000000])).1.toBool = true := by
    decide +kernel
  refine ⟨?_, hspaced⟩
  rcases hroll : (manyDice.rollTimed Timer.never (Cycle.ofList [0, 0x8000000000000000])).1 with error | v
  · rw [hroll] at hresult
    cases hresult
  · exact hcount v hroll

end Expr

end DiceNotation
