import DiceNotation.Toml.Reader
import DiceNotation.Toml.Writer

/-!
# Written strings and keys

A character that is written in double quotes is read as it was (`Escapes.read`), and so are strings (`basic?_quoted`)
and keys, bare or quoted (`key?_key`). Line breaks are only ever written as escapes (`OneLine`), so what is written
stays on its line.
-/

namespace DiceNotation.Toml

open Reader Text Writer

/-! ## Escapes -/

theorem digitOf?_digitChar : ∀ d < 16, digitOf? 16 (Nat.digitChar d).toUpper = some d := by decide

theorem hexNumber?_hex4 {n : Nat} (h : n < 0x10000) : hexNumber? (hex4 n) = some n := by
  have hdigit (m : Nat) : digitOf? 16 (Nat.digitChar (m % 16)).toUpper = some (m % 16) :=
    digitOf?_digitChar (m % 16) (Nat.mod_lt _ (by decide))
  simp only [hexNumber?, hex4, List.map_cons, List.map_nil, List.mapM_cons, List.mapM_nil, hdigit]
  simp
  omega

theorem scalar?_toNat (c : Char) : scalar? c.toNat = some c := by
  have hvalid : c.toNat.isValidChar := c.valid
  rw [scalar?, dif_pos hvalid]
  rfl

/-- A string whose first character is `c`. -/
def withFirst (c : Char) (read : Option (List Char × List Char)) : Option (List Char × List Char) :=
  read.map fun (s, rest) => (c :: s, rest)

theorem basic?_plain {c : Char} (h : isStringChar c = true) (hquote : c ≠ '"') (hslash : c ≠ '\\') (cs : List Char) :
    basic? (c :: cs) = withFirst c (basic? cs) := by
  rw [basic?]
  · simp only [h, hslash, ne_eq, not_false_eq_true, and_self, ↓reduceIte]
    cases basic? cs <;> rfl
  · exact hquote
  · simp [hslash]
  · simp [hslash]
  · simp [hslash]

theorem basic?_escape {c x : Char} (h : escape? c = some x) (cs : List Char) :
    basic? ('\\' :: c :: cs) = withFirst x (basic? cs) := by
  have hu : c ≠ 'u' := by rintro rfl; cases h
  have hU : c ≠ 'U' := by rintro rfl; cases h
  rw [basic?]
  · rw [h]
    cases basic? cs <;> rfl
  · simp [hu]
  · simp [hU]

theorem basic?_hex4 {c : Char} (h : c.toNat < 0x10000) (cs : List Char) :
    basic? ('\\' :: 'u' :: (hex4 c.toNat ++ cs)) = withFirst c (basic? cs) := by
  have hnumber := hexNumber?_hex4 h
  simp only [hex4, List.map_cons, List.map_nil, List.cons_append, List.nil_append] at hnumber ⊢
  rw [basic?, hnumber]
  show (scalar? c.toNat >>= fun x => _) = _
  rw [scalar?_toNat]
  cases basic? cs <;> rfl

/-- The three ways to write a character in double quotes. -/
inductive Escapes (c : Char) : List Char → Prop
  | short {x : Char} : escape? x = some c → Escapes c ['\\', x]
  | code : c.toNat < 0x10000 → Escapes c ('\\' :: 'u' :: hex4 c.toNat)
  | plain : isStringChar c = true → c ≠ '"' → c ≠ '\\' → Escapes c [c]

theorem escapes_escaped (c : Char) : Escapes c (escaped c) := by
  unfold escaped
  split
  · next h => subst h; exact .short rfl
  split
  · next h => subst h; exact .short rfl
  split
  · next h => subst h; exact .short rfl
  split
  · next h => subst h; exact .short rfl
  split
  · next h => subst h; exact .short rfl
  split
  · next h => subst h; exact .short rfl
  split
  · next h => subst h; exact .short rfl
  split
  · next h =>
    refine .code ?_
    rcases h with h | rfl
    · have hlt : c.toNat < ' '.toNat := h
      exact Nat.lt_trans hlt (by decide)
    · decide
  · next hquote hslash h =>
    simp only [not_or, Char.not_lt] at h
    exact .plain (by simp [isStringChar, isCommentChar, h.1, h.2]) hquote hslash

theorem Escapes.read {c : Char} {w : List Char} (h : Escapes c w) (cs : List Char) :
    basic? (w ++ cs) = withFirst c (basic? cs) := by
  cases h with
  | short h => exact basic?_escape h cs
  | code h => exact basic?_hex4 h cs
  | plain h hquote hslash => exact basic?_plain h hquote hslash cs

theorem basic?_flatMap_escaped (s rest : List Char) : basic? (s.flatMap escaped ++ '"' :: rest) = some (s, rest) := by
  induction s with
  | nil => rw [List.flatMap_nil, List.nil_append, basic?]
  | cons c s ih =>
    rw [List.flatMap_cons, List.append_assoc, (escapes_escaped c).read, ih]
    rfl

theorem toList_quoted (s : String) : (quoted s).toList = '"' :: (s.toList.flatMap escaped ++ ['"']) := by
  simp [quoted]

theorem basic?_quoted (s : String) (rest : List Char) :
    ∃ cs, (quoted s).toList ++ rest = '"' :: cs ∧ basic? cs = some (s.toList, rest) := by
  refine ⟨s.toList.flatMap escaped ++ '"' :: rest, ?_, basic?_flatMap_escaped s.toList rest⟩
  simp [toList_quoted]

/-! ## Line breaks -/

/-- Nothing that could end a line. -/
def OneLine (cs : List Char) : Prop :=
  ∀ c ∈ cs, c ≠ '\n' ∧ c ≠ '\r'

theorem OneLine.append {cs ds : List Char} (hc : OneLine cs) (hd : OneLine ds) : OneLine (cs ++ ds) :=
  fun c h => (List.mem_append.1 h).elim (hc c) (hd c)

theorem OneLine.cons {c : Char} {cs : List Char} (hc : c ≠ '\n' ∧ c ≠ '\r') (h : OneLine cs) : OneLine (c :: cs) :=
  List.forall_mem_cons.2 ⟨hc, h⟩

theorem oneLine_of_isKeyChar {cs : List Char} (h : ∀ c ∈ cs, isKeyChar c = true) : OneLine cs := by
  intro c hc
  have := h c hc
  constructor
  · rintro rfl; exact absurd this (by decide)
  · rintro rfl; exact absurd this (by decide)

theorem oneLine_hex4 (n : Nat) : OneLine (hex4 n) := by
  have hdigit : ∀ d < 16, (Nat.digitChar d).toUpper ≠ '\n' ∧ (Nat.digitChar d).toUpper ≠ '\r' := by decide
  intro c hc
  obtain ⟨d, hd, rfl⟩ := List.mem_map.1 hc
  refine hdigit d ?_
  simp only [List.mem_cons, List.not_mem_nil, or_false] at hd
  omega

theorem Escapes.oneLine {c : Char} {w : List Char} (h : Escapes c w) : OneLine w := by
  cases h with
  | @short x h =>
    have hn : x ≠ '\n' := by rintro rfl; cases h
    have hr : x ≠ '\r' := by rintro rfl; cases h
    simp [OneLine, hn, hr]
  | code _ => exact .cons (by decide) (.cons (by decide) (oneLine_hex4 _))
  | plain h _ _ =>
    have hn : c ≠ '\n' := by rintro rfl; exact absurd h (by decide)
    have hr : c ≠ '\r' := by rintro rfl; exact absurd h (by decide)
    simp [OneLine, hn, hr]

theorem oneLine_quoted (s : String) : OneLine (quoted s).toList := by
  rw [toList_quoted]
  refine .cons (by decide) (.append ?_ (by simp [OneLine]))
  intro c hc
  obtain ⟨d, -, hc⟩ := List.mem_flatMap.1 hc
  exact (escapes_escaped d).oneLine c hc

/-! ## Keys -/

/-- The text does not go on with a character of a key. -/
def EndsWord (cs : List Char) : Prop :=
  ∀ c ∈ cs.head?, isKeyChar c = false

theorem isBareKey_iff {s : String} : isBareKey s = true ↔ s.toList ≠ [] ∧ ∀ c ∈ s.toList, isKeyChar c = true := by
  simp [isBareKey, isKeyChar]

/-- Where a written key begins, no line is blank and no table opens. -/
theorem exists_key_cons (s : String) :
    ∃ c cs, (key s).toList = c :: cs ∧ (isKeyChar c = true ∨ c = '"') := by
  unfold key
  split
  · next h =>
    obtain ⟨hne, hall⟩ := isBareKey_iff.1 h
    obtain ⟨c, cs, hcs⟩ := List.exists_cons_of_ne_nil hne
    exact ⟨c, cs, hcs, .inl (hall c (by simp [hcs]))⟩
  · exact ⟨_, _, toList_quoted s, .inr rfl⟩

theorem oneLine_key (s : String) : OneLine (key s).toList := by
  unfold key
  split
  · next h => exact oneLine_of_isKeyChar (isBareKey_iff.1 h).2
  · exact oneLine_quoted s

theorem key?_key (s : String) {rest : List Char} (hrest : EndsWord rest) :
    key? ((key s).toList ++ rest) = some (s, rest) := by
  unfold key
  split
  · next h =>
    obtain ⟨hne, hall⟩ := isBareKey_iff.1 h
    have htake := takeWhile_run hall hrest
    have hdrop := dropWhile_run hall hrest
    obtain ⟨c, cs, hcs⟩ := List.exists_cons_of_ne_nil hne
    have hc : isKeyChar c = true := hall c (by simp [hcs])
    rw [hcs, List.cons_append] at htake hdrop ⊢
    rw [key?]
    · rw [htake, hdrop]
      show some (String.ofList (c :: cs), rest) = some (s, rest)
      rw [← hcs, String.ofList_toList]
    · intro _ heq
      rw [(List.cons.inj heq).1] at hc
      exact absurd hc (by decide)
    · intro _ heq
      rw [(List.cons.inj heq).1] at hc
      exact absurd hc (by decide)
  · obtain ⟨cs, hcs, hread⟩ := basic?_quoted s rest
    rw [hcs, key?, hread]
    simp

end DiceNotation.Toml
