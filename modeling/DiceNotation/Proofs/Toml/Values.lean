import Mathlib.Data.List.Forall2
import DiceNotation.Proofs.Toml.Scans

/-!
# Written values

A written value is read as it was, whatever may follow a value (`ReadsAs`): integers (`integer?_toString`), dates and
times, which a scan by their characters cuts out of the line (`DateTime.exists_isScanned`), strings, and arrays item by
item (`itemsWithin?_items`). **All values that have a written form read back** (`readsAs_of_value?`).
-/

namespace DiceNotation.Toml

open Reader Writer Text

/-! ## Integers -/

theorem digitOf?_of_isDigit {c : Char} (h : c.isDigit = true) : digitOf? 10 c = some (c.toNat - '0'.toNat) := by
  obtain ⟨-, hhi⟩ := Char.isDigit_iff_toNat.1 h
  have hlt : c.toNat - '0'.toNat < 10 := by
    have : '9'.toNat = '0'.toNat + 9 := rfl
    omega
  simp [digitOf?, digitValue?, h] at hlt ⊢
  exact hlt

theorem digits?_of_isDigit {cs : List Char} (h : ∀ c ∈ cs, c.isDigit = true) {afterDigit : Bool}
    (hstart : afterDigit = true ∨ cs ≠ []) : digits? 10 afterDigit cs = some (cs.map fun c => c.toNat - '0'.toNat) := by
  induction cs generalizing afterDigit with
  | nil => simp [digits?, hstart.resolve_right (absurd rfl)]
  | cons c cs ih =>
    obtain ⟨hc, hcs⟩ := List.forall_mem_cons.1 h
    have hscore : c ≠ '_' := by
      rintro rfl
      exact absurd hc (by decide)
    rw [digits?, if_neg hscore, digitOf?_of_isDigit hc]
    show (digits? 10 true cs >>= fun ds => _) = _
    rw [ih hcs (.inl rfl)]
    rfl

/-- A number is written without a leading zero. -/
theorem eq_zero_of_head?_toDigits {n : Nat} (h : (Nat.toDigits 10 n).head? = some '0') : n = 0 := by
  induction n using Nat.strongRecOn with
  | _ n ih =>
    rw [Nat.toDigits_eq_if (by decide)] at h
    split at h
    · exact Nat.digitChar_eq_zero.1 (Option.some.inj h)
    · next hge =>
      rw [List.head?_append, List.head?_eq_some_head Nat.toDigits_ne_nil, Option.some_or,
        ← List.head?_eq_some_head] at h
      have := ih (n / 10) (by omega) h
      omega

theorem decimal?_toDigits (n : Nat) : decimal? (Nat.toDigits 10 n) = some n := by
  have hdigit : ∀ c ∈ Nat.toDigits 10 n, c.isDigit = true := (isNumeral_iff.1 (isNumeral_toDigits n)).2
  unfold decimal?
  rw [digits?_of_isDigit hdigit (.inr Nat.toDigits_ne_nil)]
  split
  · next d ds heq =>
    obtain ⟨c, cs, hcs, hc, hds⟩ := List.map_eq_cons_iff.1 (Option.some.inj heq)
    have hzero : c = '0' := by
      obtain ⟨hlo, -⟩ := Char.isDigit_iff_toNat.1 (hdigit c (by simp [hcs]))
      exact Char.toNat_inj.1 (by omega)
    obtain rfl := eq_zero_of_head?_toDigits (n := n) (by simp [hcs, hzero])
    rw [Nat.toDigits_zero] at hcs
    obtain rfl : cs = [] := (List.cons.inj hcs).2.symm
    cases hds
  · rw [Option.map_some, ofDigits, List.foldl_map]
    exact congrArg some (Nat.ofDigitChars_toDigits (by decide) (by decide))

theorem integer?_of_isDigit {cs : List Char} {n : Nat} (h : ∀ c ∈ cs, c.isDigit = true) (hread : decimal? cs = some n)
    (hn : (n : Int) < 0x8000000000000000) : integer? cs = some (Int64.ofInt n) := by
  unfold integer?
  split
  · exact absurd (h 'x' (by simp)) (by decide)
  · exact absurd (h 'o' (by simp)) (by decide)
  · exact absurd (h 'b' (by simp)) (by decide)
  · exact absurd (h '-' (by simp)) (by decide)
  · rw [hread]
    exact if_pos ⟨by simp only [Int.ofNat_eq_natCast]; omega, hn⟩

theorem integer?_hyphen {cs : List Char} {n : Nat} (hread : decimal? cs = some n)
    (hn : (n : Int) ≤ 0x8000000000000000) : integer? ('-' :: cs) = some (Int64.ofInt (-n)) := by
  unfold integer?
  simp only [hread]
  exact if_pos ⟨by simp only [Int.neg_le_neg_iff]; exact hn, by show -(n : Int) < _; omega⟩

/-- A sign, if there is one, and digits. -/
theorem exists_toList_toString (n : Int) :
    ∃ m, (toString n).toList = Nat.toDigits 10 m ∧ n = m ∨ (toString n).toList = '-' :: Nat.toDigits 10 m ∧ n = -m := by
  cases n with
  | ofNat m => exact ⟨m, .inl ⟨Nat.toList_repr, rfl⟩⟩
  | negSucc m =>
    refine ⟨m + 1, .inr ⟨?_, rfl⟩⟩
    show ("-" ++ (m + 1).repr).toList = _
    rw [String.toList_append, Nat.toList_repr]
    rfl

theorem integer?_toString (n : Int64) : integer? (toString n.toInt).toList = some n := by
  have hlo := n.le_toInt
  have hhi := n.toInt_lt
  obtain ⟨m, ⟨htext, hn⟩ | ⟨htext, hn⟩⟩ := exists_toList_toString n.toInt
  · rw [htext, integer?_of_isDigit (isNumeral_iff.1 (isNumeral_toDigits m)).2 (decimal?_toDigits m) (by omega), ← hn,
      Int64.ofInt_toInt]
  · rw [htext, integer?_hyphen (decimal?_toDigits m) (by omega), ← hn, Int64.ofInt_toInt]

/-! ## Words -/

/-- A value that begins with a key character is a word, and a date or time may begin with it. -/
theorem valueWithin?_word {fuel : Nat} (hfuel : fuel ≠ 0) {word tail : List Char} (hne : word ≠ [])
    (hword : ∀ c ∈ word, isKeyChar c = true) (htail : EndsWord tail) :
    valueWithin? fuel (word ++ tail) =
      if beginsDateTime word tail then
        (afterDateTime? tail).map fun rest =>
          ((DateTime.ofChars? ((word ++ tail).take ((word ++ tail).length - rest.length))).map .dateTime, rest)
      else (word? word).map fun v => (some v, tail) := by
  obtain ⟨c, cs, rfl⟩ := List.exists_cons_of_ne_nil hne
  have hc : isKeyChar c = true := hword c List.mem_cons_self
  have htake := Text.takeWhile_run hword htail
  have hdrop := Text.dropWhile_run hword htail
  have hother (d : Char) (hd : isKeyChar d = false) (ds : List Char) : c :: cs ++ tail ≠ d :: ds := by
    intro heq
    rw [(List.cons.inj heq).1, hd] at hc
    cases hc
  rw [valueWithin?.eq_6 _ _ hfuel (hother '"' (by decide)) (hother '\'' (by decide)) (hother '+' (by decide))
    (fun _ ds _ => hother '[' (by decide) ds), htake, hdrop]
  split
  · cases afterDateTime? tail <;> rfl
  · cases word? (c :: cs) <;> rfl

/-- The characters of an integer in base 10. -/
structure IsInteger (word : List Char) : Prop where
  ne_nil : word ≠ []
  isDigit_or : ∀ c ∈ word, c.isDigit = true ∨ c = '-'
  hyphen : '-' ∉ word.tail

theorem isInteger_toString (n : Int) : IsInteger (toString n).toList := by
  obtain ⟨m, htext⟩ := exists_toList_toString n
  have hdigit : ∀ c ∈ Nat.toDigits 10 m, c.isDigit = true := (isNumeral_iff.1 (isNumeral_toDigits m)).2
  have hhyphen : '-' ∉ Nat.toDigits 10 m := by
    intro hc
    exact absurd (hdigit '-' hc) (by decide)
  rcases htext with ⟨htext, -⟩ | ⟨htext, -⟩
  · rw [htext]
    exact ⟨Nat.toDigits_ne_nil, fun c hc => .inl (hdigit c hc), fun hc => hhyphen (List.mem_of_mem_tail hc)⟩
  · rw [htext]
    exact ⟨List.cons_ne_nil _ _, List.forall_mem_cons.2 ⟨.inr rfl, fun c hc => .inl (hdigit c hc)⟩, hhyphen⟩

namespace IsInteger

variable {word : List Char}

theorem notMem (h : IsInteger word) {c : Char} (hdigit : c.isDigit = false) (hhyphen : c ≠ '-') : c ∉ word := by
  intro hc
  rcases h.isDigit_or c hc with hc | hc
  · rw [hdigit] at hc
    cases hc
  · exact hhyphen hc

theorem isKeyChar (h : IsInteger word) : ∀ c ∈ word, isKeyChar c = true := by
  intro c hc
  rcases h.isDigit_or c hc with hc | rfl
  · exact isKeyChar_of_isDigit hc
  · decide

theorem not_beginsDateTime (h : IsInteger word) {rest : List Char} (hrest : EndsValue rest) :
    beginsDateTime word rest = false := by
  have hupper := h.notMem (c := 'T') (by decide) (by decide)
  have hlower := h.notMem (c := 't') (by decide) (by decide)
  have hmark : hasDateMark word = false := by
    rw [hasDateMark, Bool.or_eq_false_iff, List.any_eq_false]
    refine ⟨fun c hc hT => ?_, ?_⟩
    · simp only [Bool.or_eq_true, decide_eq_true_eq] at hT
      rcases hT with rfl | rfl
      · exact hupper hc
      · exact hlower hc
    · simp [h.hyphen]
  have hcolon := hrest.head?_ne (c := ':') (by decide) (by decide)
  simp [beginsDateTime, hmark, hcolon]

theorem word? (h : IsInteger word) : word? word = (integer? word).map .integer := by
  have htrue : word ≠ "true".toList := by
    rintro rfl
    exact h.notMem (c := 'r') (by decide) (by decide) (by decide)
  have hfalse : word ≠ "false".toList := by
    rintro rfl
    exact h.notMem (c := 'a') (by decide) (by decide) (by decide)
  rw [Reader.word?, if_neg htrue, if_neg hfalse]

end IsInteger

theorem valueWithin?_integer {fuel : Nat} (hfuel : fuel ≠ 0) (n : Int64) {rest : List Char} (hrest : EndsValue rest) :
    valueWithin? fuel ((toString n.toInt).toList ++ rest) = some (some (.integer n), rest) := by
  have hword := isInteger_toString n.toInt
  rw [valueWithin?_word hfuel hword.ne_nil hword.isKeyChar hrest.endsWord, hword.not_beginsDateTime hrest, hword.word?,
    integer?_toString]
  rfl

theorem isKeyChar_bool (b : Bool) : ∀ c ∈ (if b then "true" else "false").toList, isKeyChar c = true := by
  rw [← List.all_eq_true]
  cases b <;> rfl

theorem bool_ne_nil (b : Bool) : (if b then "true" else "false").toList ≠ [] := by
  cases b <;> exact List.cons_ne_nil _ _

theorem valueWithin?_bool {fuel : Nat} (hfuel : fuel ≠ 0) (b : Bool) {rest : List Char} (hrest : EndsValue rest) :
    valueWithin? fuel ((if b then "true" else "false").toList ++ rest) = some (some (.bool b), rest) := by
  rw [valueWithin?_word hfuel (bool_ne_nil b) (isKeyChar_bool b) hrest.endsWord]
  cases b <;> rfl

theorem valueWithin?_dateTime {fuel : Nat} (hfuel : fuel ≠ 0) (d : DateTime) {rest : List Char}
    (hrest : EndsValue rest) : valueWithin? fuel (d.chars ++ rest) = some (some (.dateTime d), rest) := by
  obtain ⟨word, tail, hchars, hscan⟩ := d.exists_isScanned
  have htext : (d.chars ++ rest).take ((d.chars ++ rest).length - rest.length) = d.chars := by
    rw [List.length_append, Nat.add_sub_cancel, List.take_left]
  rw [hchars, List.append_assoc] at htext ⊢
  rw [valueWithin?_word hfuel hscan.ne_nil hscan.isKeyChar (hscan.endsWord hrest), if_pos (hscan.begins hrest),
    hscan.after hrest, Option.map_some, htext, ← hchars, DateTime.ofChars?_chars]
  rfl

/-! ## Strings and arrays -/

theorem valueWithin?_quoted {fuel : Nat} (hfuel : fuel ≠ 0) (s : String) (rest : List Char) :
    valueWithin? fuel ((quoted s).toList ++ rest) = some (some (.text s), rest) := by
  obtain ⟨cs, hcs, hread⟩ := basic?_quoted s rest
  rw [hcs, valueWithin?.eq_2 _ _ hfuel, hread]
  simp

/-- The text is a written form of the value. -/
structure ReadsAs (cs : List Char) (v : Value) : Prop where
  read {fuel : Nat} {rest : List Char} :
    2 * cs.length ≤ fuel → EndsValue rest → valueWithin? fuel (cs ++ rest) = some (some v, rest)
  ne_nil : cs ≠ []
  head : ∀ c ∈ cs.head?, c ≠ ' ' ∧ c ≠ '\t' ∧ c ≠ ']'
  oneLine : OneLine cs

namespace ReadsAs

variable {cs : List Char} {v : Value}

theorem exists_cons (h : ReadsAs cs v) : ∃ c ds, cs = c :: ds ∧ c ≠ ' ' ∧ c ≠ '\t' ∧ c ≠ ']' := by
  obtain ⟨c, ds, hcs⟩ := List.exists_cons_of_ne_nil h.ne_nil
  exact ⟨c, ds, hcs, h.head c (by simp [hcs])⟩

theorem skipSpace (h : ReadsAs cs v) (rest : List Char) : skipSpace (cs ++ rest) = cs ++ rest := by
  obtain ⟨c, ds, rfl, hspace, htab, -⟩ := h.exists_cons
  simp [Reader.skipSpace, hspace, htab]

/-- A value without parts takes no fuel but for itself. -/
theorem of_read (hne : cs ≠ []) (hhead : ∀ c ∈ cs.head?, isKeyChar c = true ∨ c = '"') (hline : OneLine cs)
    (hread : ∀ {fuel : Nat}, fuel ≠ 0 → ∀ {rest : List Char}, EndsValue rest →
      valueWithin? fuel (cs ++ rest) = some (some v, rest)) : ReadsAs cs v where
  read hfuel hrest := by
    have hlength := List.length_pos_iff.2 hne
    exact hread (by omega) hrest
  ne_nil := hne
  head c hc := by
    refine ⟨?_, ?_, ?_⟩ <;> (rintro rfl; exact absurd (hhead _ hc) (by decide))
  oneLine := hline

end ReadsAs

theorem readsAs_integer (n : Int64) : ReadsAs (toString n.toInt).toList (.integer n) := by
  have hword := isInteger_toString n.toInt
  refine .of_read hword.ne_nil ?_ (oneLine_of_isKeyChar hword.isKeyChar) fun hfuel => valueWithin?_integer hfuel n
  intro c hc
  exact .inl (hword.isKeyChar c (List.mem_of_mem_head? hc))

theorem readsAs_bool (b : Bool) : ReadsAs (if b then "true" else "false").toList (.bool b) := by
  refine .of_read (bool_ne_nil b) ?_ (oneLine_of_isKeyChar (isKeyChar_bool b)) fun hfuel => valueWithin?_bool hfuel b
  intro c hc
  exact .inl (isKeyChar_bool b c (List.mem_of_mem_head? hc))

theorem readsAs_quoted (s : String) : ReadsAs (quoted s).toList (.text s) := by
  refine .of_read ?_ ?_ (oneLine_quoted s) fun hfuel rest _ => valueWithin?_quoted hfuel s rest
  · simp [toList_quoted]
  · rw [toList_quoted]
    rintro c ⟨⟩
    exact .inr rfl

theorem readsAs_dateTime (d : DateTime) : ReadsAs d.chars (.dateTime d) := by
  obtain ⟨word, tail, hchars, hscan⟩ := d.exists_isScanned
  have hline := (oneLine_of_isKeyChar hscan.isKeyChar).append hscan.oneLine
  refine .of_read ?_ ?_ (hchars ▸ hline) fun hfuel rest => valueWithin?_dateTime hfuel d
  · simp [hchars, hscan.ne_nil]
  · obtain ⟨c, cs, rfl⟩ := List.exists_cons_of_ne_nil hscan.ne_nil
    rw [hchars]
    rintro _ ⟨⟩
    exact .inl (hscan.isKeyChar c List.mem_cons_self)

/-! ## Arrays -/

namespace ReadsAs

variable {cs : List Char} {v : Value} {fuel : Nat}

theorem not_closing (h : ReadsAs cs v) (rest cs' : List Char) : cs ++ rest ≠ ']' :: cs' := by
  obtain ⟨c, ds, rfl, -, -, hbracket⟩ := h.exists_cons
  intro heq
  exact hbracket (List.cons.inj heq).1

theorem last_item (h : ReadsAs cs v) (hfuel : 2 * cs.length ≤ fuel) (rest : List Char) :
    itemsWithin? (fuel + 1) (cs ++ ']' :: rest) = some (some [v], rest) := by
  have hends : EndsValue (']' :: rest) := by
    rintro _ ⟨⟩
    exact .inr rfl
  rw [itemsWithin?.eq_3 _ _ (h.not_closing _), h.read hfuel hends]
  rfl

theorem next_item (h : ReadsAs cs v) (hfuel : 2 * cs.length ≤ fuel) (rest : List Char) :
    itemsWithin? (fuel + 1) (cs ++ ',' :: rest) =
      (itemsWithin? fuel (Reader.skipSpace rest)).map fun (vs, rest) => (vs.map (v :: ·), rest) := by
  have hends : EndsValue (',' :: rest) := by
    rintro _ ⟨⟩
    exact .inl rfl
  rw [itemsWithin?.eq_3 _ _ (h.not_closing _), h.read hfuel hends]
  show (itemsWithin? fuel (Reader.skipSpace rest) >>= fun read => _) = _
  cases itemsWithin? fuel (Reader.skipSpace rest) with
  | none => rfl
  | some read => cases h : read.1 <;> simp [h]

end ReadsAs

/-- The written items of an array. -/
def itemChars (texts : List (List Char)) : List Char :=
  [',', ' '].intercalate texts

theorem itemChars_cons_cons (cs cs' : List Char) (texts : List (List Char)) :
    itemChars (cs :: cs' :: texts) = cs ++ ',' :: ' ' :: itemChars (cs' :: texts) := by
  rw [itemChars, List.intercalate_cons_cons, List.append_assoc]
  rfl

theorem exists_itemChars_cons (cs : List Char) (texts : List (List Char)) :
    ∃ rest, itemChars (cs :: texts) = cs ++ rest := by
  cases texts with
  | nil => exact ⟨[], by simp [itemChars, List.intercalate_singleton]⟩
  | cons cs' texts => exact ⟨_, itemChars_cons_cons cs cs' texts⟩

theorem ReadsAs.skipSpace_items {cs : List Char} {v : Value} (h : ReadsAs cs v) (texts : List (List Char))
    (rest : List Char) :
    Reader.skipSpace (' ' :: (itemChars (cs :: texts) ++ rest)) = itemChars (cs :: texts) ++ rest := by
  obtain ⟨tail, htail⟩ := exists_itemChars_cons cs texts
  rw [htail, List.append_assoc]
  exact h.skipSpace (tail ++ rest)

theorem itemsWithin?_items {texts : List (List Char)} {vs : List Value} (h : List.Forall₂ ReadsAs texts vs)
    {fuel : Nat} (hfuel : 2 * (itemChars texts).length < fuel) (rest : List Char) :
    itemsWithin? fuel (itemChars texts ++ ']' :: rest) = some (some vs, rest) := by
  induction h generalizing fuel with
  | nil => exact itemsWithin?.eq_2 _ _ (by omega)
  | @cons cs v texts vs hv hvs ih =>
    obtain ⟨fuel, rfl⟩ := Nat.exists_eq_add_one_of_ne_zero (n := fuel) (by omega)
    cases hvs with
    | nil =>
      rw [itemChars, List.intercalate_singleton] at hfuel ⊢
      exact hv.last_item (by omega) rest
    | @cons cs' v' texts vs hv' hvs =>
      rw [itemChars_cons_cons] at hfuel ⊢
      simp only [List.length_append, List.length_cons] at hfuel
      rw [List.append_assoc, List.cons_append, List.cons_append, hv.next_item (by omega), hv'.skipSpace_items,
        ih (by omega)]
      rfl

theorem oneLine_items {texts : List (List Char)} {vs : List Value} (h : List.Forall₂ ReadsAs texts vs) :
    OneLine (itemChars texts) := by
  induction h with
  | nil => simp [OneLine, itemChars]
  | @cons cs v texts vs hv hvs ih =>
    cases hvs with
    | nil => simpa [itemChars, List.intercalate_singleton] using hv.oneLine
    | cons =>
      rw [itemChars_cons_cons]
      exact hv.oneLine.append (.cons (by decide) (.cons (by decide) ih))

theorem readsAs_array {texts : List (List Char)} {vs : List Value} (h : List.Forall₂ ReadsAs texts vs) :
    ReadsAs ('[' :: (itemChars texts ++ [']'])) (.array vs) where
  read {fuel rest} hfuel _ := by
    simp only [List.length_cons, List.length_append, List.length_nil] at hfuel
    obtain ⟨fuel, rfl⟩ := Nat.exists_eq_add_one_of_ne_zero (n := fuel) (by omega)
    have hskip : Reader.skipSpace (itemChars texts ++ ']' :: rest) = itemChars texts ++ ']' :: rest := by
      cases h with
      | nil => rfl
      | cons hv _ => exact hv.skipSpace_items _ _
    rw [List.cons_append, List.append_assoc, List.singleton_append, valueWithin?.eq_4, hskip,
      itemsWithin?_items h (by omega)]
    rfl
  ne_nil := List.cons_ne_nil _ _
  head := by
    rintro _ ⟨⟩
    decide
  oneLine := .cons (by decide) ((oneLine_items h).append (by simp [OneLine]))

mutual

theorem readsAs_of_value? : ∀ {v : Value} {s : String}, Writer.value? v = some s → ReadsAs s.toList v
  | .integer n, s, h => by
    obtain rfl := Option.some.inj h
    exact readsAs_integer n
  | .text t, s, h => by
    obtain rfl := Option.some.inj h
    exact readsAs_quoted t
  | .bool b, s, h => by
    obtain rfl := Option.some.inj h
    exact readsAs_bool b
  | .dateTime d, s, h => by
    obtain rfl := Option.some.inj h
    rw [String.toList_ofList]
    exact readsAs_dateTime d
  | .array items, s, h => by
    obtain ⟨texts, htexts, hs⟩ := Option.bind_eq_some_iff.1 h
    obtain rfl := Option.some.inj hs
    simpa [String.toList_intercalate, itemChars] using readsAs_array (readsAs_of_values? htexts)

theorem readsAs_of_values? : ∀ {vs : List Value} {texts : List String}, Writer.values? vs = some texts →
    List.Forall₂ ReadsAs (texts.map String.toList) vs
  | [], texts, h => by
    obtain rfl := Option.some.inj h
    exact .nil
  | v :: vs, texts, h => by
    obtain ⟨text, htext, h⟩ := Option.bind_eq_some_iff.1 h
    obtain ⟨texts', htexts, h⟩ := Option.bind_eq_some_iff.1 h
    obtain rfl := Option.some.inj h
    exact .cons (readsAs_of_value? htext) (readsAs_of_values? htexts)

end

theorem value?_of_value? {v : Value} {s : String} (h : Writer.value? v = some s) :
    Reader.value? s.toList = some (some v, []) := by
  have hends : EndsValue [] := by simp [EndsValue]
  have hread := (readsAs_of_value? h).read (Nat.le_succ _) hends
  rwa [List.append_nil] at hread

end DiceNotation.Toml
