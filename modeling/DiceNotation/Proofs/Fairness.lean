import Mathlib.Algebra.Order.Floor.Div
import Mathlib.Data.Set.Card
import Mathlib.Order.Interval.Finset.Nat
import DiceNotation.Proofs.Extremes
import DiceNotation.Proofs.Polling

/-!
# Dice are fair

A word counts for a face if its product with the number of sides lies in an interval that begins at a multiple of
`2 ^ 64` and is `2 ^ 64 / sides` times the number of sides long (`Die.face?_eq_some_iff_bounds`). So the words for a
face are `2 ^ 64 / sides` successive ones (`Die.image_words`), for every face the same number (`Die.ncard_words`), and
its powers are the numbers of rows of words for the faces of several dice (`Die.ncard_rows`).

The dice of a term take the words that count one after another, whatever refused words stand between them
(`throwDice_words`). So **every row of faces comes from equally many rows of words that count** (`Die.fair`).
-/

namespace DiceNotation

/-! ## Words that count -/

/-- An interval that is `count` times `s` long has exactly `count` multiples of `s`, which are successive ones. -/
theorem mem_Ico_ceilDiv_iff {s : Nat} (hs : 0 < s) (start count x : Nat) :
    x ∈ Set.Ico (start ⌈/⌉ s) (start ⌈/⌉ s + count) ↔ start ≤ x * s ∧ x * s < start + count * s := by
  have hend : start ⌈/⌉ s + count = (start + count * s) ⌈/⌉ s := by
    rw [Nat.ceilDiv_eq_add_pred_div, Nat.ceilDiv_eq_add_pred_div, ← Nat.add_mul_div_right _ _ hs]
    congr 1
    omega
  rw [hend, Set.mem_Ico, ceilDiv_le_iff_le_mul hs, ← Nat.not_le (b := x), ceilDiv_le_iff_le_mul hs, Nat.not_le,
    Nat.mul_comm s x]

namespace Die

variable {sides : UInt32} {w : UInt64} {n : Nat}

/-- A word counts if the low part of its product with the sides is not among the topmost ones. -/
theorem face?_eq_some_iff (h : 0 < sides) : face? sides w = some n ↔
    w.toNat * sides.toNat % 2 ^ 64 ≤ 2 ^ 64 - 1 - (2 ^ 64 - sides.toNat) % sides.toNat ∧
      n = 1 + w.toNat * sides.toNat / 2 ^ 64 := by
  have hmax : (0xffffffffffffffff : UInt64).toNat = 0xffffffffffffffff := rfl
  have hle : reject sides ≤ 0xffffffffffffffff := by
    have := (reject sides).toNat_lt
    rw [UInt64.le_iff_toNat_le, hmax]
    omega
  have hcounts : low sides w ≤ 0xffffffffffffffff - reject sides ↔
      w.toNat * sides.toNat % 2 ^ 64 ≤ 2 ^ 64 - 1 - (2 ^ 64 - sides.toNat) % sides.toNat := by
    rw [UInt64.le_iff_toNat_le, UInt64.toNat_sub_of_le _ _ hle, toNat_low, toNat_reject h]
    rfl
  rw [face?, Option.ite_none_right_eq_some, hcounts, face_eq, Option.some.injEq, eq_comm (a := n)]
  rfl

/-- The products that count for a face are in an interval whose length is a multiple of the sides. -/
theorem face?_eq_some_iff_bounds (h : 0 < sides) (hn : 1 ≤ n) : face? sides w = some n ↔
    (n - 1) * 2 ^ 64 ≤ w.toNat * sides.toNat ∧
      w.toNat * sides.toNat < (n - 1) * 2 ^ 64 + 2 ^ 64 / sides.toNat * sides.toNat := by
  have hs : 0 < sides.toNat := UInt32.lt_iff_toNat_lt.1 h
  have hlt := sides.toNat_lt
  have hmod : (2 ^ 64 - sides.toNat) % sides.toNat = 2 ^ 64 % sides.toNat := (Nat.mod_eq_sub_mod (by omega)).symm
  have hrest := Nat.mod_lt (2 ^ 64) hs
  have hwhole := Nat.div_add_mod' (2 ^ 64) sides.toNat
  rw [face?_eq_some_iff h, hmod]
  generalize w.toNat * sides.toNat = product at *
  generalize 2 ^ 64 / sides.toNat * sides.toNat = length at *
  generalize 2 ^ 64 % sides.toNat = rest at *
  omega

/-- The words that count for a face are successive numbers. -/
theorem image_words (h : 0 < sides) (h1 : 1 ≤ n) (hn : n ≤ sides.toNat) :
    UInt64.toNat '' {w | face? sides w = some n} =
      Set.Ico (((n - 1) * 2 ^ 64) ⌈/⌉ sides.toNat) (((n - 1) * 2 ^ 64) ⌈/⌉ sides.toNat + 2 ^ 64 / sides.toNat) := by
  have hs : 0 < sides.toNat := UInt32.lt_iff_toNat_lt.1 h
  ext x
  rw [mem_Ico_ceilDiv_iff hs]
  constructor
  · rintro ⟨w, hw, rfl⟩
    exact (face?_eq_some_iff_bounds h h1).1 hw
  · intro hx
    have hlt : x < UInt64.size := by
      have hface : n * 2 ^ 64 ≤ sides.toNat * 2 ^ 64 := Nat.mul_le_mul_right _ hn
      have hlength := Nat.div_mul_le_self (2 ^ 64) sides.toNat
      apply Nat.lt_of_mul_lt_mul_right (a := sides.toNat)
      rw [UInt64.size]
      omega
    refine ⟨UInt64.ofNat x, (face?_eq_some_iff_bounds h h1).2 ?_, UInt64.toNat_ofNat_of_lt' hlt⟩
    rw [UInt64.toNat_ofNat_of_lt' hlt]
    exact hx

/-- Equally many words count for every face. -/
theorem ncard_words (h : 0 < sides) (h1 : 1 ≤ n) (hn : n ≤ sides.toNat) :
    {w | face? sides w = some n}.ncard = 2 ^ 64 / sides.toNat := by
  have hinjective : Function.Injective UInt64.toNat := fun _ _ => UInt64.toNat_inj.1
  rw [← Set.ncard_image_of_injective _ hinjective, image_words h h1 hn, ← Finset.coe_Ico, Set.ncard_coe_finset,
    Nat.card_Ico, Nat.add_sub_cancel_left]

/-- The rows of words that count for a row of faces are as many as the words for one face, to the power of the dice. -/
theorem ncard_rows (h : 0 < sides) {faces : List Nat} (hfaces : ∀ n ∈ faces, 1 ≤ n ∧ n ≤ sides.toNat) :
    {words : List UInt64 | words.map (face? sides) = faces.map some}.ncard =
      (2 ^ 64 / sides.toNat) ^ faces.length := by
  induction faces with
  | nil => simp
  | cons n faces ih =>
    obtain ⟨⟨h1, hn⟩, hfaces⟩ := List.forall_mem_cons.1 hfaces
    have hrows : {words : List UInt64 | words.map (face? sides) = (n :: faces).map some} =
        (fun row : UInt64 × List UInt64 => row.1 :: row.2) ''
          ({w | face? sides w = some n} ×ˢ {words | words.map (face? sides) = faces.map some}) := by
      ext words
      cases words with
      | nil => simp
      | cons w words => simp
    have hinjective : Function.Injective fun row : UInt64 × List UInt64 => row.1 :: row.2 := by
      rintro ⟨w, words⟩ ⟨w', words'⟩ hrow
      obtain ⟨rfl, rfl⟩ := List.cons.inj hrow
      rfl
    rw [hrows, Set.ncard_image_of_injective _ hinjective, Set.ncard_prod, ncard_words h h1 hn, ih hfaces,
      List.length_cons]
    exact Nat.pow_succ'.symm

/-! ## Dice of a term -/

/-- Dice show the faces of the words that count, in order. -/
theorem Shows.eq_take {count : Nat} {all words : List UInt64} {faces : List Nat} {g : Cycle}
    (h : Shows (List.replicate count sides) (⟨all, words⟩ : Cycle) faces g) (hlen : words.length ≤ all.length)
    (hcount : count ≤ (words.filterMap (face? sides)).length) :
    faces = (words.filterMap (face? sides)).take count := by
  induction count generalizing words faces with
  | zero =>
    cases h
    rfl
  | succ count ih =>
    cases hcounts : words.filterMap (face? sides) with
    | nil =>
      rw [hcounts] at hcount
      cases hcount
    | cons n ns =>
      obtain ⟨refused, w, rest, rfl, hrefused, hw, rfl⟩ := List.filterMap_eq_cons_iff.1 hcounts
      rw [List.length_append, List.length_cons] at hlen
      rw [hcounts, List.length_cons] at hcount
      rw [List.replicate_succ] at h
      cases h with
      | cons hroll _ hshows =>
        rw [roll_of_refused hrefused hw (by omega)] at hroll
        cases hroll
        rw [ih hshows (by omega) (Nat.le_of_succ_le_succ hcount), List.take_succ_cons]

end Die

open Rolling

/-- A dice term on a list of words of which enough count gets the faces of those, in order. -/
theorem throwDice_words {sides : UInt32} (hs : 0 < sides) {count : Nat} {words : List UInt64}
    (hcount : count ≤ (words.filterMap (Die.face? sides)).length) :
    ((throwDice sides count 0 [] : Rolling (TimedSource Cycle) (List Nat)) ⟨Cycle.ofList words, Timer.never, 0⟩).1 =
      .ok ((words.filterMap (Die.face? sides)).take count) := by
  obtain ⟨faces, g', polls', hthrow, hshows⟩ := throwDice_never hs count 0 [] (Cycle.ofList words) 0
  rw [hthrow, ← hshows.eq_take (Nat.le_refl _) hcount]
  rfl

/-- Every die of a term shows one of its faces, also if the time is up before the last one. -/
theorem throwDice_faces_mem {σ : Type} [Tray σ] [FairTray σ] {sides : UInt32} (hs : 0 < sides) {left thrown : Nat}
    {before : List Nat} {t t' : Logged σ} {x : Except EvalError (List Nat)}
    (h : (throwDice sides left thrown before : Rolling (Logged σ) (List Nat)) t = (x, t'))
    (hbefore : ∀ n ∈ Event.faces t.log, 1 ≤ n ∧ n ≤ sides.toNat) :
    ∀ n ∈ Event.faces t'.log, 1 ≤ n ∧ n ≤ sides.toNat := by
  induction left generalizing thrown before t with
  | zero =>
    rw [throwDice, run_pure] at h
    cases h
    exact hbefore
  | succ left ih =>
    rcases throwDice_step h with ⟨-, hlog, -⟩ | ⟨n, t₁, ⟨s, rfl⟩, hlog, h⟩
    · rw [hlog, Event.faces_append]
      simpa [Event.faces] using hbefore
    · refine ih h ?_
      have hfaces : Event.faces t₁.log = Event.faces t.log ++ [(Tray.throwDie sides s).1] := by
        rw [hlog, Event.faces_append, Event.faces_append]
        split <;> simp [Event.faces]
      rw [hfaces, List.forall_mem_append, List.forall_mem_singleton]
      exact ⟨hbefore, FairTray.throwDie_mem sides s hs⟩

theorem Expr.facesThrown_dice_mem {γ : Type} [WordSource γ] {sides : UInt32} (hs : 0 < sides) (timer : Nat → Bool)
    (count : UInt32) (g : γ) : ∀ n ∈ (dice count sides).facesThrown timer g, 1 ≤ n ∧ n ≤ sides.toNat := by
  have hrun : (dice count sides).eval (⟨⟨g, timer, 0⟩, []⟩ : Logged (TimedSource γ)) =
      (((dice count sides).rollLogged timer g).1, ((dice count sides).rollLogged timer g).2) := rfl
  have hnone : ∀ n ∈ Event.faces ([] : List Event), 1 ≤ n ∧ n ≤ sides.toNat := by simp [Event.faces]
  rw [eval_dice, if_neg (UInt32.pos_iff_ne_zero.1 hs)] at hrun
  rw [facesThrown]
  rcases bind_cases hrun with ⟨_, t₁, hpoll, hrun⟩ | ⟨_, hpoll, -⟩
  · have hstart := faces_log_checkTime hpoll
    rcases bind_cases hrun with ⟨faces, t₂, hthrow, hrun⟩ | ⟨_, hthrow, -⟩
    · rw [run_liftExcept] at hrun
      rw [← (Prod.mk.inj hrun).2]
      exact throwDice_faces_mem hs hthrow (by rwa [hstart])
    · exact throwDice_faces_mem hs hthrow (by rwa [hstart])
  · rwa [faces_log_checkTime hpoll]

theorem map_eq_map_some_iff {α β : Type} {f : α → Option β} {as : List α} {bs : List β} :
    as.map f = bs.map some ↔ (∀ a ∈ as, (f a).isSome = true) ∧ as.filterMap f = bs := by
  induction as generalizing bs with
  | nil => cases bs <;> simp
  | cons a as ih =>
    cases h : f a with
    | none => cases bs <;> simp [h]
    | some b => cases bs <;> simp [h, ih, and_left_comm]

/-- A row of words, one for each die, gives a row of faces if each word counts for its face. -/
theorem throwDice_row_iff {sides : UInt32} (hs : 0 < sides) {words : List UInt64} {faces : List Nat} :
    (words.length = faces.length ∧ (∀ w ∈ words, (Die.face? sides w).isSome = true) ∧
      (throwDice sides faces.length 0 [] (⟨Cycle.ofList words, Timer.never, 0⟩ : TimedSource Cycle)).1 = .ok faces) ↔
      words.map (Die.face? sides) = faces.map some := by
  rw [map_eq_map_some_iff]
  constructor
  · rintro ⟨hlen, hcount, hthrow⟩
    have hall := List.filterMap_length_eq_length.2 hcount
    rw [throwDice_words hs (by omega), List.take_of_length_le (by omega)] at hthrow
    exact ⟨hcount, Except.ok.inj hthrow⟩
  · rintro ⟨hcount, rfl⟩
    have hall := List.filterMap_length_eq_length.2 hcount
    refine ⟨hall.symm, hcount, ?_⟩
    rw [throwDice_words hs (Nat.le_refl _), List.take_length]

/-- **Dice are fair.** Every die of a term shows one of its faces. A word counts if the low part of its product with the
sides is not among the topmost `2 ^ 64 % sides` numbers, and the high part is then its face; equally many words count
for every face. A term takes the words that count in order, so every row of faces comes from equally many rows of words
that count. -/
theorem Die.fair {sides : UInt32} (h : 0 < sides) :
    (∀ (γ : Type) [WordSource γ] (timer : Nat → Bool) (count : UInt32) (g : γ),
      ∀ n ∈ (Expr.dice count sides).facesThrown timer g, 1 ≤ n ∧ n ≤ sides.toNat) ∧
    (∀ w n, Die.face? sides w = some n ↔
      w.toNat * sides.toNat % 2 ^ 64 ≤ 2 ^ 64 - 1 - (2 ^ 64 - sides.toNat) % sides.toNat ∧
        n = 1 + w.toNat * sides.toNat / 2 ^ 64) ∧
    (∀ n, 1 ≤ n → n ≤ sides.toNat → {w | Die.face? sides w = some n}.ncard = 2 ^ 64 / sides.toNat) ∧
    (∀ count words, count ≤ (words.filterMap (Die.face? sides)).length →
      (throwDice sides count 0 [] (⟨Cycle.ofList words, Timer.never, 0⟩ : TimedSource Cycle)).1 =
        .ok ((words.filterMap (Die.face? sides)).take count)) ∧
    ∀ faces : List Nat, (∀ n ∈ faces, 1 ≤ n ∧ n ≤ sides.toNat) →
      {words : List UInt64 | words.length = faces.length ∧ (∀ w ∈ words, (Die.face? sides w).isSome = true) ∧
        (throwDice sides faces.length 0 [] (⟨Cycle.ofList words, Timer.never, 0⟩ : TimedSource Cycle)).1 =
          .ok faces}.ncard = (2 ^ 64 / sides.toNat) ^ faces.length := by
  refine ⟨fun γ _ timer count g => Expr.facesThrown_dice_mem h timer count g, fun w n => Die.face?_eq_some_iff h,
    fun n h1 hn => Die.ncard_words h h1 hn, fun count words hcount => throwDice_words h hcount, fun faces hfaces => ?_⟩
  simp only [throwDice_row_iff h]
  exact Die.ncard_rows h hfaces

/-- With six sides four words of all are refused, and two dice show a one and a six for as many pairs of words as any
other two faces. -/
theorem Die.six_fair :
    {w | Die.face? 6 w = some 6}.ncard = 3074457345618258602 ∧
      {words : List UInt64 | words.length = 2 ∧ (∀ w ∈ words, (Die.face? 6 w).isSome = true) ∧
        (throwDice 6 2 0 [] (⟨Cycle.ofList words, Timer.never, 0⟩ : TimedSource Cycle)).1 = .ok [1, 6]}.ncard =
        3074457345618258602 ^ 2 ∧
      (throwDice 6 2 0 [] (⟨Cycle.ofList [0xaaaaaaaaaaaaaaaa, 0, 0xffffffffffffffff], Timer.never, 0⟩ :
        TimedSource Cycle)).1 = .ok [1, 6] := by
  obtain ⟨-, -, hwords, hthrow, hrows⟩ := Die.fair (by decide : (0 : UInt32) < 6)
  exact ⟨hwords 6 (by decide) (by decide), hrows [1, 6] (by decide), hthrow 2 _ (by decide)⟩

end DiceNotation
