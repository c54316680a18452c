import DiceNotation.Proofs.Faces
import DiceNotation.Proofs.Logging

/-!
# Rolls compute exactly

The meaning of an expression is its exact value on the faces of its dice, taken from left to right (`Expr.exactValue`):
unbounded integers, with no errors. A roll does the nodes of the tree in post-order (`Expr.visits`) and fails at the
first one that throws a die without sides or has an exact value that is no `Value`. `Expr.Ends` says this of the faces
that were thrown, and **every roll ends so** (`rolls_exact`): it throws the dice from left to right, up to the node that
fails, and leaves the source right after them.

By induction on the expression (`eval_logged`), for rolls that keep a log of their faces. The exact value of a node
depends on its own dice alone (`exactValue_append`), so what is known of the nodes of a left operand stays true when the
right one throws its dice.
-/

namespace DiceNotation

/-- A node of an expression and the number of dice to the left of it. -/
structure Visit where
  node : Expr
  offset : Nat

namespace Expr

/-- The sides of the dice from left to right. -/
def diceList : Expr → List UInt32
  | const _ => []
  | dice count sides => List.replicate count.toNat sides
  | binary _ l r => l.diceList ++ r.diceList

/-- The exact value if the dice show these faces from left to right. -/
def exactValue : Expr → List Nat → Int
  | const v, _ => v.toInt
  | dice count _, faces => Evaluation.total (faces.take count.toNat)
  | binary op l r, faces => op.exact (l.exactValue faces) (r.exactValue (faces.drop l.diceCount))

def isSideless : Expr → Bool
  | dice _ sides => sides == 0
  | _ => false

end Expr

namespace Visit

/-- The visit in an expression that has so many dice more on the left. -/
def after (count : Nat) (x : Visit) : Visit :=
  ⟨x.node, count + x.offset⟩

/-- What is wrong with the node itself, whatever its operands are. -/
def failure? (faces : List Nat) (x : Visit) : Option EvalError :=
  if x.node.isSideless then some .noSides
  else if Value.Fits (x.node.exactValue (faces.drop x.offset)) then none
  else some .overflow

/-- How many dice have been thrown when the node fails. -/
def thrown (x : Visit) : EvalError → Nat
  | .noSides => x.offset
  | _ => x.offset + x.node.diceCount

end Visit

namespace Expr

/-- The nodes in post-order. -/
def visits : Expr → List Visit
  | const v => [⟨const v, 0⟩]
  | dice count sides => [⟨dice count sides, 0⟩]
  | binary op l r => l.visits ++ r.visits.map (.after l.diceCount) ++ [⟨binary op l r, 0⟩]

/-- How the roll of an expression ends that throws these faces. -/
inductive Ends (e : Expr) (faces : List Nat) : Except EvalError Int → Prop
  | value :
      (∀ x ∈ e.visits, x.failure? faces = none) → faces.length = e.diceCount → Ends e faces (.ok (e.exactValue faces))
  | failure {before after : List Visit} {x : Visit} {error : EvalError} :
      e.visits = before ++ x :: after → (∀ y ∈ before, y.failure? faces = none) → x.failure? faces = some error →
        faces.length = x.thrown error → Ends e faces (.error error)

/-! ## The faces of the parts -/

theorem length_diceList (e : Expr) : e.diceList.length = e.diceCount := by
  induction e with
  | const => rfl
  | dice => simp [diceList, diceCount]
  | binary op l r ihl ihr => simp [diceList, diceCount, ihl, ihr]

theorem exactValue_append {e : Expr} {faces : List Nat} (h : e.diceCount ≤ faces.length) (more : List Nat) :
    e.exactValue (faces ++ more) = e.exactValue faces := by
  induction e generalizing faces with
  | const => rfl
  | dice count sides =>
    have h : count.toNat ≤ faces.length := h
    simp only [exactValue, List.take_append_of_le_length h]
  | binary op l r ihl ihr =>
    have h : l.diceCount + r.diceCount ≤ faces.length := h
    have hl : l.diceCount ≤ faces.length := by omega
    have hr : r.diceCount ≤ (faces.drop l.diceCount).length := by rw [List.length_drop]; omega
    simp only [exactValue, ihl hl, List.drop_append_of_le_length hl, ihr hr]

theorem visit_le {e : Expr} {x : Visit} (h : x ∈ e.visits) : x.offset + x.node.diceCount ≤ e.diceCount := by
  induction e generalizing x with
  | const | dice =>
    cases List.mem_singleton.1 h
    simp
  | binary op l r ihl ihr =>
    simp only [visits, List.mem_append, List.mem_map, List.mem_singleton] at h
    rcases h with (h | ⟨y, h, rfl⟩) | rfl
    · have := ihl h
      simp only [diceCount]
      omega
    · have := ihr h
      simp only [diceCount, Visit.after]
      omega
    · simp

end Expr

namespace Visit

theorem failure?_append {x : Visit} {faces : List Nat} (h : x.offset + x.node.diceCount ≤ faces.length)
    (more : List Nat) : x.failure? (faces ++ more) = x.failure? faces := by
  have hlen : x.node.diceCount ≤ (faces.drop x.offset).length := by rw [List.length_drop]; omega
  unfold failure?
  rw [List.drop_append_of_le_length (by omega), Expr.exactValue_append hlen]

theorem failure?_after (x : Visit) (faces more : List Nat) :
    (x.after faces.length).failure? (faces ++ more) = x.failure? more := by
  unfold failure? after
  simp

theorem thrown_after (x : Visit) (count : Nat) (error : EvalError) :
    (x.after count).thrown error = count + x.thrown error := by
  cases error <;> simp [thrown, after, Nat.add_assoc]

end Visit

/-! ## How an operation ends -/

namespace Expr.Ends

variable {op : Operator} {l r : Expr} {fs gs : List Nat} {a b : Int} {error : EvalError}

/-- A node whose operands have ended with values, from what is wrong with it. -/
theorem of_last {e : Expr} {faces : List Nat} {before : List Visit} (hvisits : e.visits = before ++ [⟨e, 0⟩])
    (hbefore : ∀ y ∈ before, y.failure? faces = none) (hlen : faces.length = e.diceCount)
    (hsides : e.isSideless = false) : Ends e faces (Value.checked (e.exactValue faces)) := by
  have hfailure : Visit.failure? faces ⟨e, 0⟩ = if Value.Fits (e.exactValue faces) then none else some .overflow := by
    simp [Visit.failure?, hsides]
  unfold Value.checked
  by_cases hfits : Value.Fits (e.exactValue faces)
  · rw [if_pos hfits] at hfailure ⊢
    refine .value ?_ hlen
    intro x hx
    rw [hvisits] at hx
    rcases List.mem_append.1 hx with hx | hx
    · exact hbefore x hx
    · rw [List.mem_singleton.1 hx, hfailure]
  · rw [if_neg hfits] at hfailure ⊢
    exact .failure hvisits hbefore hfailure (by simp [Visit.thrown, hlen])

theorem of_leaf {e : Expr} {faces : List Nat} (hvisits : e.visits = [⟨e, 0⟩]) (hlen : faces.length = e.diceCount)
    (hsides : e.isSideless = false) : Ends e faces (Value.checked (e.exactValue faces)) :=
  have hvisits' : e.visits = [] ++ [⟨e, 0⟩] := hvisits
  of_last hvisits' (by simp) hlen hsides

theorem length_eq (h : Ends l fs (.ok a)) : fs.length = l.diceCount := by
  cases h with
  | value _ hlen => exact hlen

theorem exactValue_eq (h : Ends l fs (.ok a)) : l.exactValue fs = a := by
  cases h with
  | value => rfl

theorem failure?_eq_none (h : Ends l fs (.ok a)) : ∀ x ∈ l.visits, x.failure? fs = none := by
  cases h with
  | value hnone _ => exact hnone

/-- Where the left operand has a value, nothing is wrong up to where nothing is wrong with the right one. -/
theorem failure?_between (h : Ends l fs (.ok a)) {before : List Visit} (hbefore : ∀ y ∈ before, y.failure? gs = none) :
    ∀ y ∈ l.visits ++ before.map (.after l.diceCount), y.failure? (fs ++ gs) = none := by
  intro y hy
  rw [← h.length_eq] at hy
  rcases List.mem_append.1 hy with hy | hy
  · rw [Visit.failure?_append (by rw [h.length_eq]; exact visit_le hy)]
    exact h.failure?_eq_none y hy
  · obtain ⟨z, hz, rfl⟩ := List.mem_map.1 hy
    rw [Visit.failure?_after]
    exact hbefore z hz

theorem left (h : Ends l fs (.error error)) : Ends (.binary op l r) fs (.error error) := by
  cases h with
  | @failure before after x _ hvisits hbefore hx hlen =>
    have hvisits' : (Expr.binary op l r).visits =
        before ++ x :: (after ++ r.visits.map (.after l.diceCount) ++ [⟨.binary op l r, 0⟩]) := by
      simp [visits, hvisits]
    exact .failure hvisits' hbefore hx hlen

theorem right (hl : Ends l fs (.ok a)) (hr : Ends r gs (.error error)) :
    Ends (.binary op l r) (fs ++ gs) (.error error) := by
  cases hr with
  | @failure before after x _ hvisits hbefore hx hlen =>
    have hvisits' : (Expr.binary op l r).visits = (l.visits ++ before.map (.after l.diceCount)) ++
        x.after l.diceCount :: (after.map (.after l.diceCount) ++ [⟨.binary op l r, 0⟩]) := by
      simp [visits, hvisits]
    refine .failure hvisits' (hl.failure?_between hbefore) ?_ ?_
    · rw [← hl.length_eq, Visit.failure?_after]
      exact hx
    · rw [Visit.thrown_after, List.length_append, hl.length_eq, hlen]

theorem binary (hl : Ends l fs (.ok a)) (hr : Ends r gs (.ok b)) :
    Ends (.binary op l r) (fs ++ gs) (Value.checked (op.exact a b)) := by
  have hvalue : (Expr.binary op l r).exactValue (fs ++ gs) = op.exact a b := by
    rw [exactValue, exactValue_append (Nat.le_of_eq hl.length_eq.symm), hl.exactValue_eq, ← hl.length_eq,
      List.drop_left, hr.exactValue_eq]
  have hlen : (fs ++ gs).length = (Expr.binary op l r).diceCount := by
    rw [List.length_append, hl.length_eq, hr.length_eq]
    rfl
  rw [← hvalue]
  exact of_last rfl (hl.failure?_between hr.failure?_eq_none) hlen rfl

theorem const (v : Value) : Ends (.const v) [] (.ok v.toInt) := by
  have h : Ends (.const v) [] (Value.checked v.toInt) := of_leaf rfl rfl rfl
  rwa [Value.checked, if_pos (Value.fits_toInt v)] at h

theorem dice {count sides : UInt32} (hs : sides ≠ 0) (hlen : fs.length = count.toNat) :
    Ends (.dice count sides) fs (Value.checked (Evaluation.total fs)) := by
  have hvalue : (Expr.dice count sides).exactValue fs = Evaluation.total fs := by
    rw [exactValue, List.take_of_length_le (Nat.le_of_eq hlen)]
  rw [← hvalue]
  exact of_leaf rfl hlen (by simpa [isSideless] using hs)

theorem sideless (count : UInt32) : Ends (.dice count 0) [] (.error .noSides) :=
  have hvisits : (Expr.dice count 0).visits = [] ++ ⟨.dice count 0, 0⟩ :: [] := rfl
  .failure hvisits (by simp) rfl rfl

end Expr.Ends

/-! ## Rolls -/

namespace Expr

open Rolling

variable {γ : Type} [WordSource γ]

theorem checkTime_logged (g : γ) (polls : Nat) (log : List Event) :
    (checkTime : Rolling (Logged (TimedSource γ)) Unit) ⟨⟨g, Timer.never, polls⟩, log⟩ =
      (.ok (), ⟨⟨g, Timer.never, polls + 1⟩, log ++ [.question]⟩) :=
  rfl

/-- All dice of a term are thrown if the time is never up, and their faces are in the log. -/
theorem throwDice_logged {sides : UInt32} (hs : 0 < sides) (count : Nat) (g : γ) (polls : Nat) (log : List Event) :
    ∃ faces g' polls' log', throwDice sides count 0 [] ⟨⟨g, Timer.never, polls⟩, log⟩ =
        (.ok faces, (⟨⟨g', Timer.never, polls'⟩, log'⟩ : Logged (TimedSource γ))) ∧
      Event.faces log' = Event.faces log ++ faces ∧ Die.Shows (List.replicate count sides) g faces g' := by
  obtain ⟨faces, g', polls', hthrow, hshows⟩ := throwDice_never hs count 0 [] g polls
  have hlogged := Logged.relation.throwDice sides count 0 []
    (⟨⟨g, Timer.never, polls⟩, log⟩ : Logged (TimedSource γ))
  rw [hthrow] at hlogged
  obtain ⟨hresult, htray⟩ := Prod.mk.inj hlogged
  rcases hrun : throwDice sides count 0 [] (⟨⟨g, Timer.never, polls⟩, log⟩ : Logged (TimedSource γ)) with
    ⟨result, tray, log'⟩
  rw [hrun] at hresult htray
  subst hresult htray
  obtain ⟨new, hnew, -, hlog⟩ := throwDice_log hrun
  obtain rfl : faces = new := by simpa using hnew
  exact ⟨faces, g', polls', log', rfl, hlog, hshows⟩

theorem eval_logged (e : Expr) (g : γ) (polls : Nat) (log : List Event) :
    ∃ result faces g' polls' log', eval e ⟨⟨g, Timer.never, polls⟩, log⟩ =
        (result, (⟨⟨g', Timer.never, polls'⟩, log'⟩ : Logged (TimedSource γ))) ∧
      Event.faces log' = Event.faces log ++ faces ∧ Die.Shows (e.diceList.take faces.length) g faces g' ∧
      e.Ends faces (Evaluation.number result) := by
  induction e generalizing g polls log with
  | const v =>
    rw [eval, bind_of_ok (checkTime_logged g polls log)]
    exact ⟨.ok (.ofConst v), [], g, polls + 1, _, rfl, by simp [Event.faces], .nil g, .const v⟩
  | dice count sides =>
    rw [eval_dice, bind_of_ok (checkTime_logged g polls log)]
    by_cases hs : sides = 0
    · subst hs
      exact ⟨.error .noSides, [], g, polls + 1, _, rfl, by simp [Event.faces], .nil g, .sideless count⟩
    · have hpos : 0 < sides := UInt32.pos_iff_ne_zero.2 hs
      obtain ⟨faces, g', polls', log', hthrow, hlog, hshows⟩ :=
        throwDice_logged hpos count.toNat g (polls + 1) (log ++ [.question])
      have hlen : faces.length = count.toNat := by rw [hshows.length_eq, List.length_replicate]
      refine ⟨Evaluation.ofFaces faces, faces, g', polls', log', ?_, ?_, ?_, ?_⟩
      · rw [if_neg hs, bind_of_ok hthrow, run_liftExcept]
      · rw [hlog]
        simp [Event.faces]
      · rw [List.take_of_length_le (by rw [length_diceList, hlen]; exact Nat.le_refl _)]
        exact hshows
      · rw [Evaluation.number_ofFaces]
        exact .dice hs hlen
  | binary op l r ihl ihr =>
    rw [eval, bind_of_ok (checkTime_logged g polls log)]
    obtain ⟨a, fs, g₁, polls₁, log₁, hl, hlogl, hshowsl, hendsl⟩ := ihl g (polls + 1) (log ++ [.question])
    have hlogl : Event.faces log₁ = Event.faces log ++ fs := by
      rw [hlogl]
      simp [Event.faces]
    have hfs : fs.length ≤ l.diceList.length := by
      have := hshowsl.length_eq
      rw [List.length_take] at this
      omega
    cases a with
    | error error =>
      refine ⟨.error error, fs, g₁, polls₁, log₁, bind_of_error hl, hlogl, ?_, hendsl.left⟩
      rw [diceList, List.take_append_of_le_length hfs]
      exact hshowsl
    | ok a =>
      obtain ⟨b, gs, g₂, polls₂, log₂, hr, hlogr, hshowsr, hendsr⟩ := ihr g₁ polls₁ log₁
      have hlog : Event.faces log₂ = Event.faces log ++ (fs ++ gs) := by
        rw [hlogr, hlogl, List.append_assoc]
      have hlen : fs.length = l.diceList.length := by rw [length_diceList, hendsl.length_eq]
      have hshows : Die.Shows ((binary op l r).diceList.take (fs ++ gs).length) g (fs ++ gs) g₂ := by
        rw [List.take_of_length_le (Nat.le_of_eq hlen.symm)] at hshowsl
        rw [diceList, List.length_append, hlen, List.take_length_add_append]
        exact hshowsl.trans hshowsr
      cases b with
      | error error =>
        refine ⟨.error error, fs ++ gs, g₂, polls₂, log₂, ?_, hlog, hshows, hendsl.right hendsr⟩
        rw [bind_of_ok hl, bind_of_error hr]
      | ok b =>
        refine ⟨Evaluation.join op a b, fs ++ gs, g₂, polls₂, log₂, ?_, hlog, hshows, ?_⟩
        · rw [bind_of_ok hl, bind_of_ok hr, run_liftExcept]
        · rw [Evaluation.number_join]
          exact hendsl.binary hendsr

/-- A roll ends as its expression does on the faces that it throws. -/
theorem roll_ends_facesThrown (e : Expr) (g : γ) :
    Die.Shows (e.diceList.take (e.facesThrown Timer.never g).length) g (e.facesThrown Timer.never g) (e.roll g).2 ∧
      e.Ends (e.facesThrown Timer.never g) (Evaluation.number (e.roll g).1) := by
  obtain ⟨result, faces, g', polls, log, heval, hlog, hshows, hends⟩ := eval_logged e g 0 []
  have hlogged : e.rollLogged Timer.never g = (result, ⟨⟨g', Timer.never, polls⟩, log⟩) := heval
  have hroll : e.roll g = (result, g') := by rw [roll, rollTimed_eq_logged, hlogged]
  have hfaces : e.facesThrown Timer.never g = faces := by
    rw [facesThrown, hlogged, hlog]
    rfl
  rw [hroll, hfaces]
  exact ⟨hshows, hends⟩

theorem roll_ends (e : Expr) (g : γ) :
    ∃ faces, Die.Shows (e.diceList.take faces.length) g faces (e.roll g).2 ∧
      e.Ends faces (Evaluation.number (e.roll g).1) :=
  ⟨_, roll_ends_facesThrown e g⟩

/-- Rolls expressions one after another on the same source. -/
def rollAll : List Expr → γ → List (Except EvalError Evaluation) × γ
  | [], g => ([], g)
  | e :: es, g =>
    let (result, g) := e.roll g
    let (results, g) := rollAll es g
    (result :: results, g)

/-- Each expression ends with its result after its faces. -/
inductive AllEnd : List Expr → List (List Nat) → List (Except EvalError Evaluation) → Prop
  | nil : AllEnd [] [] []
  | cons {e : Expr} {es : List Expr} {faces : List Nat} {facess : List (List Nat)}
      {result : Except EvalError Evaluation} {results : List (Except EvalError Evaluation)} :
      e.Ends faces (Evaluation.number result) → AllEnd es facess results →
        AllEnd (e :: es) (faces :: facess) (result :: results)

/-- The dice that expressions throw in turn, of which each throws as many as it has faces. -/
def thrownDice (es : List Expr) (facess : List (List Nat)) : List UInt32 :=
  (List.zipWith (fun e faces => e.diceList.take faces.length) es facess).flatten

/-- **A roll computes exactly**: it throws the dice of its expression from left to right, each of which shows one of its
faces, up to the first node in post-order that has no value, and leaves the source right after them. So the rolls of
expressions in turn take the faces of one run of throws. -/
theorem rolls_exact (g : γ) :
    (∀ e : Expr, ∃ faces, Die.Shows (e.diceList.take faces.length) g faces (e.roll g).2 ∧
      e.Ends faces (Evaluation.number (e.roll g).1)) ∧
    ∀ es : List Expr, ∃ facess, Die.Shows (thrownDice es facess) g facess.flatten (rollAll es g).2 ∧
      AllEnd es facess (rollAll es g).1 := by
  refine ⟨fun e => roll_ends e g, ?_⟩
  intro es
  induction es generalizing g with
  | nil => exact ⟨[], .nil g, .nil⟩
  | cons e es ih =>
    obtain ⟨faces, hshows, hends⟩ := roll_ends e g
    obtain ⟨facess, hshows', hends'⟩ := ih (e.roll g).2
    exact ⟨faces :: facess, hshows.trans hshows', .cons hends hends'⟩

end Expr

end DiceNotation
