import Mathlib.Data.Nat.Find
import DiceNotation.Proofs.Logging

/-!
# A timer only cuts a roll short

`Course x g polls result g' events` is the course of a computation that no timer cuts short: from the source `g` and
after `polls` questions it does `events` and ends with `result` and the source `g'`. A timer that answers all its
questions with no lets it take this course, and a timer that says yes to one of them ends it there with a timeout.

Every part of a roll has a course (`HasCourse`): the operations do, and courses are joined (`Course.bind_ok`). So the
roll of an expression is the same for all timers up to the first yes (`timer_cuts_short`).
-/

namespace DiceNotation

open Event

namespace Event

/-- Events with more than `k` questions can be cut right before one that has `k` others before it. -/
theorem exists_question {events : List Event} {k : Nat} (h : k < questions events) :
    ∃ before after, events = before ++ question :: after ∧ questions before = k := by
  induction events generalizing k with
  | nil => simp [questions] at h
  | cons event events ih =>
    cases event with
    | face n =>
      obtain ⟨before, after, rfl, hk⟩ := ih (by simpa [questions] using h)
      exact ⟨face n :: before, after, rfl, by simpa [questions] using hk⟩
    | question =>
      cases k with
      | zero => exact ⟨[], events, rfl, rfl⟩
      | succ k =>
        obtain ⟨before, after, rfl, hk⟩ := ih (by simpa [questions] using h)
        exact ⟨question :: before, after, rfl, by simpa [questions] using hk⟩

/-- An event of two parts together is one of the second part, or else of the first. -/
theorem append_eq_append_cons {es fs before after : List Event} {event : Event}
    (h : es ++ fs = before ++ event :: after) :
    (∃ mid, before = es ++ mid ∧ fs = mid ++ event :: after) ∨ ∃ mid, es = before ++ event :: mid := by
  rcases List.append_eq_append_iff.1 h with ⟨mid, hbefore, hfs⟩ | ⟨_ | ⟨first, mid⟩, hes, hafter⟩
  · exact .inl ⟨mid, hbefore, hfs⟩
  · exact .inl ⟨[], by simpa using hes.symm, hafter.symm⟩
  · obtain ⟨rfl, -⟩ := List.cons.inj hafter
    exact .inr ⟨mid, hes⟩

end Event

variable {γ α β : Type}

/-! ## Courses -/

/-- The timer says no to the questions of these events, if `polls` questions came before. -/
def Timer.Quiet (timer : Nat → Bool) (polls : Nat) (events : List Event) : Prop :=
  ∀ i < questions events, timer (polls + i) = false

structure Course (x : Rolling (Logged (TimedSource γ)) α) (g : γ) (polls : Nat) (result : Except EvalError α) (g' : γ)
    (events : List Event) : Prop where
  quiet : ∀ (timer : Nat → Bool) (log : List Event), Timer.Quiet timer polls events →
    x ⟨⟨g, timer, polls⟩, log⟩ = (result, ⟨⟨g', timer, polls + questions events⟩, log ++ events⟩)
  fires : ∀ (timer : Nat → Bool) (log : List Event) {before after : List Event}, events = before ++ question :: after →
    Timer.Quiet timer polls before → timer (polls + questions before) = true →
      ∃ g'', x ⟨⟨g, timer, polls⟩, log⟩ =
        (.error .timeout, ⟨⟨g'', timer, polls + questions before + 1⟩, log ++ (before ++ [question])⟩)

theorem Timer.quiet_append {timer : Nat → Bool} {polls : Nat} {es fs : List Event} :
    Quiet timer polls (es ++ fs) ↔ Quiet timer polls es ∧ Quiet timer (polls + questions es) fs := by
  unfold Quiet
  rw [questions_append]
  constructor
  · intro h
    refine ⟨fun i hi => h i (by omega), fun i hi => ?_⟩
    rw [Nat.add_assoc]
    exact h _ (by omega)
  · rintro ⟨h, h'⟩ i hi
    by_cases hlt : i < questions es
    · exact h i hlt
    · have := h' (i - questions es) (by omega)
      rwa [show polls + questions es + (i - questions es) = polls + i by omega] at this

theorem Logged.run_checkTime [WordSource γ] (g : γ) (timer : Nat → Bool) (polls : Nat) (log : List Event) :
    Rolling.checkTime (⟨⟨g, timer, polls⟩, log⟩ : Logged (TimedSource γ)) =
      (if timer polls then .error .timeout else .ok (), ⟨⟨g, timer, polls + 1⟩, log ++ [.question]⟩) :=
  Rolling.run_checkTime _

namespace Course

variable {x : Rolling (Logged (TimedSource γ)) α} {f : α → Rolling (Logged (TimedSource γ)) β} {g g₁ g₂ : γ}
  {polls : Nat} {es fs : List Event}

theorem liftExcept (result : Except EvalError α) (g : γ) (polls : Nat) :
    Course (liftExcept result) g polls result g [] where
  quiet timer log _ := by rw [Rolling.run_liftExcept, List.append_nil]; rfl
  fires timer log before after h := by simp at h

/-- A part that ends with an error ends the whole. -/
theorem bind_error {error : EvalError} (hx : Course x g polls (.error error) g₁ es) :
    Course (x >>= f) g polls (.error error) g₁ es where
  quiet timer log h := Rolling.bind_of_error (hx.quiet timer log h)
  fires timer log before after h hquiet hyes := by
    obtain ⟨g'', hrun⟩ := hx.fires timer log h hquiet hyes
    exact ⟨g'', Rolling.bind_of_error hrun⟩

theorem bind_ok {a : α} {result : Except EvalError β} (hx : Course x g polls (.ok a) g₁ es)
    (hf : Course (f a) g₁ (polls + questions es) result g₂ fs) : Course (x >>= f) g polls result g₂ (es ++ fs) where
  quiet timer log h := by
    obtain ⟨hes, hfs⟩ := Timer.quiet_append.1 h
    rw [Rolling.bind_of_ok (hx.quiet timer log hes), hf.quiet timer _ hfs, questions_append, Nat.add_assoc,
      List.append_assoc]
  fires timer log before after h hquiet hyes := by
    -- The question is one of the first part, or one of the second.
    rcases append_eq_append_cons h with ⟨mid, rfl, hfs⟩ | ⟨mid, hes⟩
    · obtain ⟨hes, hmid⟩ := Timer.quiet_append.1 hquiet
      rw [questions_append, ← Nat.add_assoc] at hyes
      obtain ⟨g'', hrun⟩ := hf.fires timer (log ++ es) hfs hmid hyes
      refine ⟨g'', ?_⟩
      rw [Rolling.bind_of_ok (hx.quiet timer log hes), hrun, questions_append, ← Nat.add_assoc]
      simp
    · obtain ⟨g'', hrun⟩ := hx.fires timer log hes hquiet hyes
      exact ⟨g'', Rolling.bind_of_error hrun⟩

variable [WordSource γ]

theorem throwDie (sides : UInt32) (g : γ) (polls : Nat) :
    Course (Rolling.throwDie sides) g polls (.ok (Die.roll sides g).1) (Die.roll sides g).2
      [.face (Die.roll sides g).1] where
  quiet timer log _ := rfl
  fires timer log before after h := by
    have := congrArg questions h
    simp [questions] at this

theorem checkTime (g : γ) (polls : Nat) :
    Course (Rolling.checkTime : Rolling (Logged (TimedSource γ)) Unit) g polls (.ok ()) g [.question] where
  quiet timer log h := by
    have hno : timer polls = false := h 0 (by decide)
    rw [Logged.run_checkTime, hno]
    rfl
  fires timer log before after h _ hyes := by
    -- There is one event, so the question is the first.
    obtain rfl : before = [] := by
      cases before with
      | nil => rfl
      | cons first before => simp at h
    have hyes : timer polls = true := hyes
    refine ⟨g, ?_⟩
    rw [Logged.run_checkTime, hyes]
    rfl

end Course

/-! ## Rolls -/

variable [WordSource γ]

/-- The computation has a course from every source. -/
def HasCourse (x : Rolling (Logged (TimedSource γ)) α) : Prop :=
  ∀ (g : γ) (polls : Nat), ∃ result g' events, Course x g polls result g' events

theorem hasCourse_relation : Rolling.Relation fun α (x _ : Rolling (Logged (TimedSource γ)) α) => HasCourse x where
  liftExcept x g polls := ⟨x, g, [], .liftExcept x g polls⟩
  checkTime g polls := ⟨.ok (), g, [.question], .checkTime g polls⟩
  throwDie sides g polls := ⟨_, _, _, .throwDie sides g polls⟩
  bind {α β x y f f'} hx hf g polls := by
    obtain ⟨result, g₁, es, hx⟩ := hx g polls
    cases result with
    | error error => exact ⟨.error error, g₁, es, hx.bind_error⟩
    | ok a =>
      obtain ⟨result, g₂, fs, hf⟩ := hf a g₁ (polls + questions es)
      exact ⟨result, g₂, es ++ fs, hx.bind_ok hf⟩

namespace Expr

/-- A timer that fires too early ends a roll with a timeout, and any other changes nothing. -/
theorem result_of_timer (timer : Nat → Bool) (e : Expr) (g : γ) :
    (e.rollTimed timer g).1 = (e.rollTimed Timer.never g).1 ∨
      (e.rollTimed timer g).1 = .error .timeout ∧ ∃ k, timer k = true := by
  obtain ⟨result, g', events, hcourse⟩ := hasCourse_relation.eval e g 0
  have hnever := hcourse.quiet Timer.never [] fun _ _ => rfl
  simp only [rollTimed_eq_logged, rollLogged]
  by_cases hfires : ∃ k, k < questions events ∧ timer k = true
  · -- The first yes is the last question.
    obtain ⟨hk, hyes⟩ := Nat.find_spec hfires
    have hno : ∀ i < Nat.find hfires, timer i = false := by
      intro i hi
      have := Nat.find_min hfires hi
      simp only [not_and, Bool.not_eq_true] at this
      exact this (Nat.lt_trans hi hk)
    obtain ⟨before, after, hevents, hbefore⟩ := exists_question hk
    have hquiet : Timer.Quiet timer 0 before := by
      intro i hi
      rw [Nat.zero_add]
      exact hno i (by rwa [← hbefore])
    obtain ⟨g'', hrun⟩ := hcourse.fires timer [] hevents hquiet (by rwa [Nat.zero_add, hbefore])
    exact .inr ⟨by rw [hrun], _, hyes⟩
  · have hquiet : Timer.Quiet timer 0 events := by
      intro i hi
      rw [Nat.zero_add, ← Bool.not_eq_true]
      exact fun hyes => hfires ⟨i, hi, hyes⟩
    have hrun := hcourse.quiet timer [] hquiet
    exact .inl (by rw [hrun, hnever])

/-- **A timer only cuts a roll short.** If it says no to all questions that the roll without a timer asks, the roll is
the same. Otherwise its first yes, to the question `k` counted from 0, is the last question asked and ends the roll with
a timeout, and the faces thrown so far are the first ones of the roll without a timer. -/
theorem timer_cuts_short (timer : Nat → Bool) (e : Expr) (g : γ) :
    ((∀ k < (e.rollTimed Timer.never g).2.1, timer k = false) →
      e.rollTimed timer g = e.rollTimed Timer.never g ∧ e.facesThrown timer g = e.facesThrown Timer.never g) ∧
    ∀ k < (e.rollTimed Timer.never g).2.1, timer k = true → (∀ i < k, timer i = false) →
      (e.rollTimed timer g).1 = .error .timeout ∧ (e.rollTimed timer g).2.1 = k + 1 ∧
        e.facesThrown timer g <+: e.facesThrown Timer.never g := by
  obtain ⟨result, g', events, hcourse⟩ := hasCourse_relation.eval e g 0
  have hnever : e.rollLogged Timer.never g = (result, ⟨⟨g', Timer.never, 0 + questions events⟩, [] ++ events⟩) :=
    hcourse.quiet Timer.never [] fun _ _ => rfl
  have hpolls : (e.rollTimed Timer.never g).2.1 = questions events := by
    rw [rollTimed_eq_logged, hnever]
    exact Nat.zero_add _
  rw [hpolls]
  constructor
  · intro hquiet
    have hrun := hcourse.quiet timer [] fun i hi => by rw [Nat.zero_add]; exact hquiet i hi
    have hlogged : e.rollLogged timer g = (result, ⟨⟨g', timer, 0 + questions events⟩, [] ++ events⟩) := hrun
    simp only [rollTimed_eq_logged, facesThrown, hlogged, hnever, and_self]
  · intro k hk hyes hno
    obtain ⟨before, after, rfl, rfl⟩ := exists_question hk
    have hquiet : Timer.Quiet timer 0 before := fun i hi => by rw [Nat.zero_add]; exact hno i hi
    obtain ⟨g'', hrun⟩ := hcourse.fires timer [] rfl hquiet (by rwa [Nat.zero_add])
    have hlogged : e.rollLogged timer g = (.error .timeout,
        ⟨⟨g'', timer, 0 + questions before + 1⟩, [] ++ (before ++ [question])⟩) := hrun
    simp only [rollTimed_eq_logged, facesThrown, hlogged, hnever, Nat.zero_add, true_and, List.nil_append]
    rw [faces_append, faces_append]
    exact List.prefix_append_right_inj _ |>.2 List.nil_prefix

/-- A roll of 300 dice asks twice, the second time before the 256th die. With the answer yes it ends there, and with a
later one it does not. -/
theorem threeHundredDice_cut_short :
    ((dice 300 6).rollTimed Timer.never (Cycle.ofList [0, 0x8000000000000000])).2.1 = 2 ∧
      ((dice 300 6).rollTimed (Timer.after 1) (Cycle.ofList [0, 0x8000000000000000])).1 = .error .timeout ∧
      ((dice 300 6).rollTimed (Timer.after 1) (Cycle.ofList [0, 0x8000000000000000])).2.1 = 2 ∧
      (dice 300 6).facesThrown (Timer.after 1) (Cycle.ofList [0, 0x8000000000000000]) <+:
        (dice 300 6).facesThrown Timer.never (Cycle.ofList [0, 0x8000000000000000]) ∧
      (dice 300 6).rollTimed (Timer.after 2) (Cycle.ofList [0, 0x8000000000000000]) =
        (dice 300 6).rollTimed Timer.never (Cycle.ofList [0, 0x8000000000000000]) := by
  have hasked : ((dice 300 6).rollTimed Timer.never (Cycle.ofList [0, 0x8000000000000000])).2.1 = 2 := by
    decide +kernel
  obtain ⟨htimeout, hpolls, hfaces⟩ := (timer_cuts_short (Timer.after 1) (dice 300 6) _).2 1
    (by rw [hasked]; decide) rfl (by decide)
  have hlate := (timer_cuts_short (Timer.after 2) (dice 300 6) (Cycle.ofList [0, 0x8000000000000000])).1
    (by rw [hasked]; decide)
  exact ⟨hasked, htimeout, hpolls, hfaces, hlate.1⟩

end Expr

end DiceNotation
