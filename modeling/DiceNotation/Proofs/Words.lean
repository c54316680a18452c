import DiceNotation.Proofs.Lexing

/-!
# The words of a text

A word of a text is a longest run of characters that are neither blank nor symbols, so none of these stands right before
it or right after it (`WordAt`). The pieces that the lexer cuts a text into are its words and its symbols, each once and
in the order of the text (`lists_pieces`). Hence the lexer can be described by the positions of words alone
(`tokenize_words`): **if every word is a numeral or a dice term, each word and each symbol has one token; otherwise the
first word that is neither is the error**. Nothing but blanks is lost: one after the other the tokens are the text
without its blanks, with a `1` for each count that is left out (`Written.flatMap_text`).
-/

namespace DiceNotation.Token

open Text

/-! ## Words and symbols where they stand -/

/-- A word can begin behind these characters. -/
def Starts (before : List Char) : Prop :=
  ∀ c ∈ before.getLast?, ¬ IsWordChar c

/-- After `i` characters of the text stands the word `w`. -/
def WordAt (text : List Char) (i : Nat) (w : List Char) : Prop :=
  w ≠ [] ∧ (∀ c ∈ w, IsWordChar c) ∧
    ∃ before after, text = before ++ w ++ after ∧ before.length = i ∧ Starts before ∧ Stops after

inductive PieceAt (text : List Char) (i : Nat) : Piece → Prop
  | word {w : List Char} : WordAt text i w → PieceAt text i (.word w)
  | symbol {c : Char} {kind : Kind} :
      text[i]? = some c → Kind.ofSymbol? c = some kind → PieceAt text i (.symbol kind c)

variable {text : List Char} {i j : Nat} {v w cs : List Char} {c : Char}

theorem not_isWordChar_of_ofSymbol? {kind : Kind} (h : Kind.ofSymbol? c = some kind) : ¬ IsWordChar c := by
  intro hc
  rw [hc.2] at h
  cases h

theorem WordAt.getElem?_add (h : WordAt text i w) (hlt : j < w.length) : text[i + j]? = w[j]? := by
  obtain ⟨-, -, before, after, rfl, rfl, -, -⟩ := h
  rw [List.append_assoc, List.getElem?_append_right (Nat.le_add_right _ _), Nat.add_sub_cancel_left,
    List.getElem?_append_left hlt]

theorem WordAt.isWordChar (h : WordAt text i w) (hle : i ≤ j) (hlt : j < i + w.length) (hc : text[j]? = some c) :
    IsWordChar c := by
  obtain ⟨k, rfl⟩ := Nat.exists_eq_add_of_le hle
  rw [h.getElem?_add (by omega)] at hc
  exact h.2.1 c (List.mem_of_getElem? hc)

theorem WordAt.lt_add_length (h : WordAt text i w) : i < i + w.length :=
  Nat.lt_add_of_pos_right (List.length_pos_iff.2 h.1)

theorem WordAt.exists_getElem? (h : WordAt text i w) : ∃ c, text[i]? = some c ∧ IsWordChar c := by
  have hpos := List.length_pos_iff.2 h.1
  have hc : text[i]? = some w[0] := by
    rw [← List.getElem?_eq_getElem hpos, ← h.getElem?_add hpos, Nat.add_zero]
  exact ⟨_, hc, h.isWordChar (Nat.le_refl i) h.lt_add_length hc⟩

/-- What stands right before a word is no part of one. -/
theorem WordAt.not_isWordChar_before (h : WordAt text (i + 1) w) (hc : text[i]? = some c) : ¬ IsWordChar c := by
  obtain ⟨-, -, before, after, rfl, hi, hstarts, -⟩ := h
  refine hstarts c ?_
  rw [List.append_assoc, List.getElem?_append_left (by omega)] at hc
  rw [List.getLast?_eq_getElem?, hi]
  exact hc

theorem eq_of_append_of_stops {as bs : List Char} (hv : ∀ c ∈ v, IsWordChar c) (hw : ∀ c ∈ w, IsWordChar c)
    (has : Stops as) (hbs : Stops bs) (h : v ++ as = w ++ bs) : v = w := by
  induction v generalizing w with
  | nil =>
    cases w with
    | nil => rfl
    | cons c w =>
      obtain rfl : as = c :: (w ++ bs) := h
      exact absurd (hw c List.mem_cons_self) has
  | cons c v ih =>
    cases w with
    | nil =>
      obtain rfl : c :: (v ++ as) = bs := h
      exact absurd (hv c List.mem_cons_self) hbs
    | cons d w =>
      obtain ⟨rfl, htail⟩ := List.cons.inj h
      rw [ih (List.forall_mem_cons.1 hv).2 (List.forall_mem_cons.1 hw).2 htail]

theorem WordAt.unique (hv : WordAt text i v) (hw : WordAt text i w) : v = w := by
  obtain ⟨-, hv, before, after, rfl, rfl, -, hafter⟩ := hv
  obtain ⟨-, hw, before', after', htext, hlength, -, hafter'⟩ := hw
  rw [List.append_assoc, List.append_assoc] at htext
  obtain ⟨-, h⟩ := List.append_inj htext hlength.symm
  exact eq_of_append_of_stops hv hw hafter hafter' h

/-- No word begins inside another. -/
theorem WordAt.not_inside (hw : WordAt text i w) (hlt : i < j) (hj : j < i + w.length) : ¬ WordAt text j v := by
  intro hv
  obtain ⟨k, rfl⟩ : ∃ k, j = k + 1 := ⟨j - 1, by omega⟩
  obtain ⟨c, hc, -⟩ := hv.exists_getElem?
  have hk : k < text.length := Nat.lt_of_succ_lt (List.getElem?_eq_some_iff.1 hc).1
  have hbefore := List.getElem?_eq_getElem hk
  exact hv.not_isWordChar_before hbefore (hw.isWordChar (by omega) (by omega) hbefore)

namespace PieceAt

variable {p q : Piece}

theorem exists_getElem? (h : PieceAt text i p) : ∃ c, text[i]? = some c ∧ isBlank c = false := by
  cases h with
  | word h =>
    obtain ⟨c, hc, hword⟩ := h.exists_getElem?
    exact ⟨c, hc, hword.1⟩
  | symbol hc hk => exact ⟨_, hc, isBlank_of_ofSymbol? hk⟩

theorem unique (hp : PieceAt text i p) (hq : PieceAt text i q) : p = q := by
  cases hp with
  | word hv =>
    cases hq with
    | word hw => rw [hv.unique hw]
    | symbol hc hk =>
      have hword := hv.isWordChar (Nat.le_refl i) hv.lt_add_length hc
      exact absurd hword (not_isWordChar_of_ofSymbol? hk)
  | symbol hc hk =>
    cases hq with
    | word hw =>
      have hword := hw.isWordChar (Nat.le_refl i) hw.lt_add_length hc
      exact absurd hword (not_isWordChar_of_ofSymbol? hk)
    | symbol hd hk' =>
      obtain rfl := Option.some.inj (hc.symm.trans hd)
      rw [Option.some.inj (hk.symm.trans hk')]

theorem not_inside (hw : WordAt text i w) (hlt : i < j) (hj : j < i + w.length) : ¬ PieceAt text j p := by
  intro h
  cases h with
  | word h => exact hw.not_inside hlt hj h
  | symbol hc hk => exact not_isWordChar_of_ofSymbol? hk (hw.isWordChar (Nat.le_of_lt hlt) hj hc)

end PieceAt

/-! ## The pieces of a text -/

/-- All words and symbols that stand after the first `i` characters, in order. -/
structure Lists (text : List Char) (i : Nat) (spots : List (Nat × Piece)) : Prop where
  ascending : spots.Pairwise fun a b => a.1 < b.1
  mem_iff : ∀ j p, (j, p) ∈ spots ↔ i ≤ j ∧ PieceAt text j p

namespace Lists

variable {spots : List (Nat × Piece)}

theorem nil (h : text.length ≤ i) : Lists text i [] := by
  refine ⟨.nil, fun j p => ⟨fun h => absurd h List.not_mem_nil, fun ⟨hj, hp⟩ => ?_⟩⟩
  obtain ⟨c, hc, -⟩ := hp.exists_getElem?
  have := (List.getElem?_eq_some_iff.1 hc).1
  omega

theorem blank (hc : text[i]? = some c) (hb : isBlank c = true) (h : Lists text (i + 1) spots) :
    Lists text i spots := by
  refine ⟨h.ascending, fun j p => ?_⟩
  rw [h.mem_iff]
  refine and_congr_left fun hp => Iff.intro Nat.le_of_succ_le fun hle => Nat.lt_of_le_of_ne hle ?_
  rintro rfl
  obtain ⟨d, hd, hblank⟩ := hp.exists_getElem?
  obtain rfl := Option.some.inj (hc.symm.trans hd)
  rw [hb] at hblank
  cases hblank

/-- A piece, and all those after the place `k` where it ends. -/
theorem cons {k : Nat} {p : Piece} (hp : PieceAt text i p) (hk : i < k)
    (hinside : ∀ j q, i < j → j < k → ¬ PieceAt text j q) (h : Lists text k spots) :
    Lists text i ((i, p) :: spots) := by
  constructor
  · refine List.pairwise_cons.2 ⟨fun s hs => ?_, h.ascending⟩
    have := ((h.mem_iff s.1 s.2).1 hs).1
    exact Nat.lt_of_lt_of_le hk this
  · intro j q
    rw [List.mem_cons, h.mem_iff, Prod.mk.injEq]
    constructor
    · rintro (⟨rfl, rfl⟩ | ⟨hle, hq⟩)
      · exact ⟨Nat.le_refl _, hp⟩
      · exact ⟨by omega, hq⟩
    · rintro ⟨hle, hq⟩
      rcases Nat.lt_or_eq_of_le hle with hlt | rfl
      · refine .inr ⟨Nat.le_of_not_lt fun hj => hinside j q hlt hj hq, hq⟩
      · exact .inl ⟨rfl, hq.unique hp⟩

theorem symbol {kind : Kind} (hc : text[i]? = some c) (hk : Kind.ofSymbol? c = some kind)
    (h : Lists text (i + 1) spots) : Lists text i ((i, .symbol kind c) :: spots) :=
  .cons (.symbol hc hk) (Nat.lt_succ_self i) (fun j q hlt hj => by omega) h

theorem word (hw : WordAt text i w) (h : Lists text (i + w.length) spots) :
    Lists text i ((i, .word w) :: spots) :=
  .cons (.word hw) hw.lt_add_length (fun _ _ hlt hj => PieceAt.not_inside hw hlt hj) h

/-- The characters read since the last cut are a word, if there are any. -/
theorem ofPending {before pending : List Char} (h : Lists text (before.length + pending.length) spots)
    (htext : text = before ++ pending.reverse ++ cs) (hstarts : Starts before) (hpending : ∀ c ∈ pending, IsWordChar c)
    (hs : Stops cs) :
    ∃ spots', Lists text before.length spots' ∧
      spots'.map Prod.snd = Piece.ofPending pending ++ spots.map Prod.snd := by
  cases hp : pending with
  | nil =>
    rw [hp] at h
    exact ⟨spots, h, rfl⟩
  | cons c cs' =>
    have hword : WordAt text before.length pending.reverse := by
      refine ⟨by simp [hp], fun c hc => hpending c (List.mem_reverse.1 hc), before, cs, htext, rfl, hstarts, hs⟩
    rw [← pending.length_reverse] at h
    exact ⟨_, .word hword h, by simp [hp, Piece.ofPending]⟩

end Lists

theorem lists_piecesAfter (before pending : List Char) (htext : text = before ++ pending.reverse ++ cs)
    (hstarts : Starts before) (hpending : ∀ c ∈ pending, IsWordChar c) :
    ∃ spots, Lists text before.length spots ∧ spots.map Prod.snd = piecesAfter pending cs := by
  induction cs generalizing before pending with
  | nil =>
    have hnil : Lists text (before.length + pending.length) [] := .nil (by simp [htext])
    obtain ⟨spots, hspots, hmap⟩ := hnil.ofPending htext hstarts hpending trivial
    exact ⟨spots, hspots, by rw [hmap, piecesAfter, List.map_nil, List.append_nil]⟩
  | cons c cs ih =>
    by_cases hc : IsWordChar c
    · rw [piecesAfter_wordChar hc]
      exact ih before (c :: pending) (by simp [htext]) hstarts (List.forall_mem_cons.2 ⟨hc, hpending⟩)
    · -- A word may end here. The rest is read after it.
      have hstops : Stops (c :: cs) := hc
      have hat : text[before.length + pending.length]? = some c := by simp [htext]
      obtain ⟨spots, hspots, hmap⟩ : ∃ spots, Lists text (before.length + pending.length + 1) spots ∧
          spots.map Prod.snd = piecesAfter [] cs := by
        have := ih (before ++ pending.reverse ++ [c]) [] (by simp [htext]) (by simpa [Starts]) (by simp)
        simpa [Nat.add_assoc] using this
      rw [piecesAfter_stop hstops]
      cases hb : isBlank c with
      | true =>
        obtain ⟨spots', hspots', hmap'⟩ := (hspots.blank hat hb).ofPending htext hstarts hpending hstops
        exact ⟨spots', hspots', by simp [hmap', hmap, piecesAfter, hb, Piece.ofPending]⟩
      | false =>
        cases hk : Kind.ofSymbol? c with
        | none => exact absurd ⟨hb, hk⟩ hc
        | some kind =>
          obtain ⟨spots', hspots', hmap'⟩ := (hspots.symbol hat hk).ofPending htext hstarts hpending hstops
          exact ⟨spots', hspots', by simp [hmap', hmap, piecesAfter_symbol hk]⟩

/-- The lexer cuts a text into its words and symbols. -/
theorem lists_pieces (text : List Char) : ∃ spots, Lists text 0 spots ∧ spots.map Prod.snd = pieces text :=
  lists_piecesAfter [] [] rfl (by simp [Starts]) (by simp)

/-! ## The tokens of a text -/

/-- The token of the word or symbol that stands after `i` characters. -/
inductive TokenAt (text : List Char) (i : Nat) : Token → Prop
  | word {w : List Char} {t : Token} : WordAt text i w → Word w t → TokenAt text i t
  | symbol {c : Char} {kind : Kind} :
      text[i]? = some c → Kind.ofSymbol? c = some kind → TokenAt text i ⟨kind, c.toString⟩

/-- One token for each word and each symbol, in the order of the text. -/
def ListsTokens (text : List Char) (ts : List Token) : Prop :=
  ∃ spots : List (Nat × Token), spots.map Prod.snd = ts ∧ (spots.Pairwise fun a b => a.1 < b.1) ∧
    ∀ i t, (i, t) ∈ spots ↔ TokenAt text i t

/-- The word is a numeral or a dice term. -/
def HasToken (w : List Char) : Prop :=
  ∃ t, Word w t

theorem tokenAt_iff {t : Token} : TokenAt text i t ↔ ∃ p, PieceAt text i p ∧ p.token = .ok t := by
  constructor
  · intro h
    cases h with
    | word hw ht => exact ⟨_, .word hw, classify_eq_ok_iff.2 ht⟩
    | symbol hc hk => exact ⟨_, .symbol hc hk, rfl⟩
  · rintro ⟨p, hp, ht⟩
    cases hp with
    | word hw => exact .word hw (classify_eq_ok_iff.1 ht)
    | symbol hc hk =>
      cases ht
      exact .symbol hc hk

theorem exists_token {p : Piece} (hp : PieceAt text i p) (h : ∀ w, WordAt text i w → HasToken w) :
    ∃ t, p.token = .ok t := by
  cases hp with
  | @word w hw =>
    obtain ⟨t, ht⟩ := h w hw
    exact ⟨t, classify_eq_ok_iff.2 ht⟩
  | symbol _ _ => exact ⟨_, rfl⟩

theorem classify_eq_error (h : ¬ HasToken w) : classify w = .error (.unrecognized (String.ofList w)) := by
  cases hw : classify w with
  | ok t => exact absurd ⟨t, classify_eq_ok_iff.1 hw⟩ h
  | error error =>
    unfold classify at hw
    repeat' split at hw
    all_goals cases hw
    rfl

theorem exists_tokens {spots : List (Nat × Piece)} (h : ∀ s ∈ spots, ∃ t, s.2.token = .ok t) :
    ∃ tokens : List (Nat × Token), (spots.map Prod.snd).mapM Piece.token = .ok (tokens.map Prod.snd) ∧
      tokens.map Prod.fst = spots.map Prod.fst ∧ ∀ i t, (i, t) ∈ tokens ↔ ∃ p, (i, p) ∈ spots ∧ p.token = .ok t := by
  induction spots with
  | nil => exact ⟨[], rfl, rfl, by simp⟩
  | cons s spots ih =>
    obtain ⟨⟨t, ht⟩, hspots⟩ := List.forall_mem_cons.1 h
    obtain ⟨tokens, hmap, hplaces, hmem⟩ := ih hspots
    refine ⟨(s.1, t) :: tokens, mapM_cons_eq_ok.2 ⟨t, _, ht, hmap, rfl⟩, by simp [hplaces], fun i u => ?_⟩
    rw [List.mem_cons, hmem]
    constructor
    · rintro (heq | ⟨p, hp, hu⟩)
      · cases heq
        exact ⟨s.2, List.mem_cons_self, ht⟩
      · exact ⟨p, List.mem_cons_of_mem s hp, hu⟩
    · rintro ⟨p, hp, hu⟩
      rcases List.mem_cons.1 hp with rfl | hp
      · exact .inl (by rw [Except.ok.inj (hu.symm.trans ht)])
      · exact .inr ⟨p, hp, hu⟩

theorem exists_listsTokens {text : String} (h : ∀ i w, WordAt text.toList i w → HasToken w) :
    ∃ ts, tokenize text = .ok ts ∧ ListsTokens text.toList ts := by
  obtain ⟨spots, hspots, hpieces⟩ := lists_pieces text.toList
  obtain ⟨tokens, hmap, hplaces, hmem⟩ := exists_tokens fun s hs =>
    exists_token ((hspots.mem_iff s.1 s.2).1 hs).2 (h s.1)
  refine ⟨tokens.map Prod.snd, ?_, tokens, rfl, ?_, fun i t => ?_⟩
  · rw [tokenize, ← hpieces]
    exact hmap
  · have := hspots.ascending
    rw [← List.pairwise_map (f := Prod.fst) (R := (· < ·)), ← hplaces, List.pairwise_map] at this
    exact this
  · rw [hmem, tokenAt_iff]
    simp [hspots.mem_iff]

/-- The pieces of a text around one of its words. -/
theorem WordAt.exists_pieces (hw : WordAt text i w) :
    ∃ (spots : List (Nat × Piece)) (later : List Piece),
      pieces text = spots.map Prod.snd ++ .word w :: later ∧ ∀ s ∈ spots, s.1 < i ∧ PieceAt text s.1 s.2 := by
  obtain ⟨spots, hspots, hpieces⟩ := lists_pieces text
  have hmem : (i, .word w) ∈ spots := (hspots.mem_iff _ _).2 ⟨Nat.zero_le i, .word hw⟩
  obtain ⟨earlier, later, rfl⟩ := List.append_of_mem hmem
  refine ⟨earlier, later.map Prod.snd, by rw [← hpieces]; simp, fun s hs => ⟨?_, ?_⟩⟩
  · exact (List.pairwise_append.1 hspots.ascending).2.2 s hs _ List.mem_cons_self
  · exact ((hspots.mem_iff s.1 s.2).1 (List.mem_append_left _ hs)).2

theorem hasToken_of_tokenize {text : String} {ts : List Token} (h : tokenize text = .ok ts)
    (hw : WordAt text.toList i w) : HasToken w := by
  obtain ⟨spots, later, hpieces, -⟩ := hw.exists_pieces
  rw [tokenize, hpieces] at h
  obtain ⟨_, _, -, hrest, -⟩ := mapM_append_eq_ok.1 h
  obtain ⟨t, _, ht, -, -⟩ := mapM_cons_eq_ok.1 hrest
  exact ⟨t, classify_eq_ok_iff.1 ht⟩

theorem tokenize_eq_error {text : String} (hw : WordAt text.toList i w) (hno : ¬ HasToken w)
    (hbefore : ∀ j v, j < i → WordAt text.toList j v → HasToken v) :
    tokenize text = .error (.unrecognized (String.ofList w)) := by
  obtain ⟨spots, later, hpieces, hspots⟩ := hw.exists_pieces
  obtain ⟨tokens, hmap, -, -⟩ := exists_tokens fun s hs =>
    exists_token (hspots s hs).2 fun v => hbefore s.1 v (hspots s hs).1
  have hword : Piece.token (.word w) = .error (.unrecognized (String.ofList w)) := classify_eq_error hno
  rw [tokenize, hpieces, List.mapM_append, hmap, List.mapM_cons, hword]
  rfl

/-! ## The characters of a text -/

instance : DecidablePred IsWordChar :=
  fun _ => inferInstanceAs (Decidable (_ ∧ _))

/-- The text with a `1` before each `d` that begins a word. The text may begin inside a word. -/
def withCounts (inWord : Bool) : List Char → List Char
  | [] => []
  | c :: cs => (if c = 'd' ∧ inWord = false then ['1', c] else [c]) ++ withCounts (decide (IsWordChar c)) cs

/-- The text without its blanks. -/
def withoutBlanks (cs : List Char) : List Char :=
  cs.filter fun c => !isBlank c

theorem withCounts_of_not_isWordChar (hc : ¬ IsWordChar c) (inWord : Bool) (cs : List Char) :
    withCounts inWord (c :: cs) = c :: withCounts false cs := by
  have hd : c ≠ 'd' := by
    rintro rfl
    exact hc isWordChar_d
  simp [withCounts, hc, hd]

theorem withCounts_inside (hw : ∀ c ∈ w, IsWordChar c) (cs : List Char) :
    withCounts true (w ++ cs) = w ++ withCounts true cs := by
  induction w with
  | nil => rfl
  | cons c w ih =>
    obtain ⟨hc, hw⟩ := List.forall_mem_cons.1 hw
    simp [withCounts, hc, ih hw]

theorem withCounts_of_stops (h : Stops cs) (inWord : Bool) : withCounts inWord cs = withCounts false cs := by
  cases cs with
  | nil => rfl
  | cons c cs => rw [withCounts_of_not_isWordChar h, withCounts_of_not_isWordChar h]

theorem withCounts_word (hw : ∀ d ∈ c :: w, IsWordChar d) (hs : Stops cs) :
    withCounts false (c :: w ++ cs) = (if c = 'd' then ['1', c] else [c]) ++ (w ++ withCounts false cs) := by
  obtain ⟨hc, hw⟩ := List.forall_mem_cons.1 hw
  simp [withCounts, hc, withCounts_inside hw, withCounts_of_stops hs]

theorem withCounts_numeral {n m : List Char} (hn : isNumeral n = true) (hw : ∀ c ∈ n ++ m, IsWordChar c)
    (hs : Stops cs) : withCounts false (n ++ m ++ cs) = n ++ m ++ withCounts false cs := by
  obtain ⟨c, n, rfl⟩ := List.exists_cons_of_ne_nil (isNumeral_iff.1 hn).1
  have hd : c ≠ 'd' := by
    rintro rfl
    exact not_mem_of_isNumeral hn List.mem_cons_self
  rw [List.cons_append] at hw ⊢
  rw [withCounts_word hw hs, if_neg hd]
  rfl

/-- A count that is left out is written. -/
theorem Word.withCounts_eq {t : Token} (h : Word w t) (hs : Stops cs) :
    withCounts false (w ++ cs) = t.text.toList ++ withCounts false cs := by
  have hw := h.isWordChar
  cases h with
  | number hn =>
    rw [← List.append_nil w] at hw
    have := withCounts_numeral hn hw hs
    simpa using this
  | dice hn _ => simpa using withCounts_numeral hn hw hs
  | die _ => simpa using withCounts_word hw hs

theorem withoutBlanks_append (cs ds : List Char) :
    withoutBlanks (cs ++ ds) = withoutBlanks cs ++ withoutBlanks ds :=
  List.filter_append cs ds

theorem withoutBlanks_of_isWordChar (hw : ∀ c ∈ w, IsWordChar c) : withoutBlanks w = w :=
  List.filter_eq_self.2 fun c hc => by simp [(hw c hc).1]

/-- The tokens one after the other are the text without its blanks, with the counts that are left out. -/
theorem Written.flatMap_text {ts : List Token} (h : Written cs ts) :
    (ts.flatMap fun t => t.text.toList) = withoutBlanks (withCounts false cs) := by
  induction h with
  | nil => rfl
  | @blank c cs ts hb _ ih =>
    have hc : ¬ IsWordChar c := fun hc => by rw [hc.1] at hb; cases hb
    rw [withCounts_of_not_isWordChar hc, ih]
    simp [withoutBlanks, hb]
  | @symbol c kind cs ts hk _ ih =>
    rw [withCounts_of_not_isWordChar (not_isWordChar_of_ofSymbol? hk), List.flatMap_cons, ih]
    simp [withoutBlanks, isBlank_of_ofSymbol? hk, Char.toString_eq_singleton]
  | word hw hs _ ih =>
    rw [hw.withCounts_eq hs, withoutBlanks_append, withoutBlanks_of_isWordChar hw.isWordChar_text, List.flatMap_cons,
      ih]

example : withoutBlanks (withCounts false "d6 + 2 d8".toList) = "1d6+21d8".toList := by decide

/-! ## The lexer by words -/

/-- **The lexer gives a text the tokens of its words and symbols.** If every word is a numeral or a dice term, there is
one token for each word and each symbol, in the order of the text, and one after the other they are the text without its
blanks, with a `1` for each count that is left out. Otherwise the first word that is neither is the error. -/
theorem tokenize_words (text : String) :
    ((∀ i w, WordAt text.toList i w → HasToken w) ↔
      ∃ ts, tokenize text = .ok ts ∧ ListsTokens text.toList ts ∧
        (ts.flatMap fun t => t.text.toList) = withoutBlanks (withCounts false text.toList)) ∧
    (∀ i w, WordAt text.toList i w → ¬ HasToken w → (∀ j v, j < i → WordAt text.toList j v → HasToken v) →
      tokenize text = .error (.unrecognized (String.ofList w))) := by
  refine ⟨⟨fun h => ?_, ?_⟩, fun i w hw hno hbefore => tokenize_eq_error hw hno hbefore⟩
  · obtain ⟨ts, hts, hlists⟩ := exists_listsTokens h
    exact ⟨ts, hts, hlists, (tokenize_eq_ok_iff.1 hts).flatMap_text⟩
  · rintro ⟨ts, hts, -, -⟩ i w hw
    exact hasToken_of_tokenize hts hw

/-- The word `x3` of `d6*x3 y` is the first that is neither a numeral nor a dice term. -/
theorem unknownFactor_unrecognized :
    WordAt "d6*x3 y".toList 3 ['x', '3'] ∧ ¬ HasToken ['x', '3'] ∧
    (∀ j v, j < 3 → WordAt "d6*x3 y".toList j v → HasToken v) ∧
    tokenize "d6*x3 y" = .error (.unrecognized "x3") := by
  have hx : IsWordChar 'x' := by decide
  have hdigit : IsWordChar '3' ∧ IsWordChar '6' := by decide
  have hstop : ¬ IsWordChar '*' ∧ ¬ IsWordChar ' ' := by decide
  have hat : WordAt "d6*x3 y".toList 3 ['x', '3'] :=
    ⟨by simp, by simp [hx, hdigit], ['d', '6', '*'], [' ', 'y'], rfl, rfl, by simp [Starts, hstop], hstop.2⟩
  have hfirst : WordAt "d6*x3 y".toList 0 ['d', '6'] :=
    ⟨by simp, by simp [isWordChar_d, hdigit], [], ['*', 'x', '3', ' ', 'y'], rfl, rfl, by simp [Starts], hstop.1⟩
  have hno : ¬ HasToken ['x', '3'] := by
    rintro ⟨t, ht⟩
    have := classify_eq_ok_iff.2 ht
    cases this
  have hbefore : ∀ j v, j < 3 → WordAt "d6*x3 y".toList j v → HasToken v := by
    intro j v hj hv
    match j with
    | 0 =>
      rw [hv.unique hfirst]
      exact ⟨_, .die rfl⟩
    | 1 => exact absurd hv (hfirst.not_inside (by decide) (by decide))
    | 2 =>
      obtain ⟨c, hc, hword⟩ := hv.exists_getElem?
      cases hc
      exact absurd hword (by decide)
  exact ⟨hat, hno, hbefore, (tokenize_words "d6*x3 y").2 3 ['x', '3'] hat hno hbefore⟩

end DiceNotation.Token
