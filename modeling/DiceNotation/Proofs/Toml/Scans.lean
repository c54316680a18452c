import DiceNotation.Proofs.Toml.Dates
import DiceNotation.Proofs.Toml.Strings

/-!
# Where a written date or time ends

Before a date or time is read, a scan by its characters cuts it out of the line. A written one begins with a word that
the scan takes for the beginning of a date or time, and the scan ends where the text ends (`IsScanned`), whatever may
follow a value: that is so for a date (`isScanned_date`), for the hours of a time with the rest of it
(`isScanned_hours`), and hence **for everything that is written** (`DateTime.exists_isScanned`).
-/

namespace DiceNotation.Toml

open Reader Writer

/-! ## After a value -/

/-- The text goes on as after a value, with the rest of an array or not at all. -/
def EndsValue (cs : List Char) : Prop :=
  ∀ c ∈ cs.head?, c = ',' ∨ c = ']'

theorem EndsValue.endsWord {cs : List Char} (h : EndsValue cs) : EndsWord cs := by
  intro c hc
  rcases h c hc with rfl | rfl <;> decide

theorem EndsValue.head?_ne {cs : List Char} (h : EndsValue cs) {c : Char} (hcomma : c ≠ ',') (hbracket : c ≠ ']') :
    cs.head? ≠ some c := by
  intro hc
  rcases h c hc with rfl | rfl
  · exact hcomma rfl
  · exact hbracket rfl

/-! ## Runs of key characters -/

theorem isKeyChar_of_isDigit {c : Char} (h : c.isDigit = true) : isKeyChar c = true := by
  simp [isKeyChar, Char.isAlphanum, h]

theorem isKeyChar_padded {width n : Nat} : ∀ c ∈ padded width n, isKeyChar c = true :=
  fun c hc => isKeyChar_of_isDigit (isDigit_of_mem_padded c hc)

theorem isKeyChar_trimmed {width n : Nat} : ∀ c ∈ trimmed (padded width n), isKeyChar c = true :=
  fun c hc => isKeyChar_of_isDigit (isDigit_of_mem_trimmed isDigit_of_mem_padded c hc)

theorem afterRun?_word {word : List Char} (hne : word ≠ []) (hword : ∀ c ∈ word, isKeyChar c = true) (cs : List Char) :
    afterRun? (word ++ cs) = some (cs.dropWhile isKeyChar) := by
  obtain ⟨c, word, rfl⟩ := List.exists_cons_of_ne_nil hne
  obtain ⟨hc, hword⟩ := List.forall_mem_cons.1 hword
  show (if isKeyChar c = true then some ((word ++ cs).dropWhile isKeyChar) else none) = _
  rw [if_pos hc, List.dropWhile_append_of_pos hword]

theorem afterRun?_padded (width n : Nat) (cs : List Char) :
    afterRun? (padded width n ++ cs) = some (cs.dropWhile isKeyChar) :=
  afterRun?_word (padded_ne_nil width n) isKeyChar_padded cs

theorem after?_of_head?_ne {c : Char} {cs : List Char} (h : cs.head? ≠ some c) : after? c cs = none := by
  cases cs with
  | nil => rfl
  | cons d cs => exact if_neg fun hd => h (congrArg some hd)

theorem afterPart?_of_head?_ne {c : Char} {cs : List Char} (h : cs.head? ≠ some c) : afterPart? c cs = some cs := by
  rw [afterPart?, after?_of_head?_ne h]

theorem afterPart?_padded (c : Char) {width n : Nat} (cs : List Char) :
    afterPart? c (c :: (padded width n ++ cs)) = some (cs.dropWhile isKeyChar) := by
  simp [afterPart?, after?, afterRun?_padded]

/-! ## Behind the hours -/

/-- After the seconds, of which `cs` may continue the run, the scan finds no fraction, and with an offset it comes to
`rest`. -/
def EndsOffset (cs rest : List Char) : Prop :=
  (cs.dropWhile isKeyChar).head? ≠ some '.' ∧
    (afterPart? '+' (cs.dropWhile isKeyChar)).bind (afterPart? ':') = some rest

/-- The run goes on through a hyphen and the hours behind it, and ends at a plus sign. -/
theorem endsOffset_numeric (h : { n : Int // n.natAbs ≤ 99 }) (m : Within 0 99) {rest : List Char}
    (hdrop : rest.dropWhile isKeyChar = rest) : EndsOffset ((Offset.numeric h m).chars ++ rest) rest := by
  have hchars : (Offset.numeric h m).chars ++ rest =
      (if h.val < 0 then '-' else '+') :: (padded 2 h.val.natAbs ++ ':' :: (padded 2 m ++ rest)) := by
    simp [Offset.chars]
  have hcolon : (':' :: (padded 2 m ++ rest)).dropWhile isKeyChar = ':' :: (padded 2 m ++ rest) :=
    List.dropWhile_cons_of_neg (by decide)
  have hminutes : afterPart? ':' (':' :: (padded 2 m ++ rest)) = some rest := by
    rw [afterPart?_padded, hdrop]
  rw [EndsOffset, hchars]
  split
  · have hrun : ('-' :: (padded 2 h.val.natAbs ++ ':' :: (padded 2 m ++ rest))).dropWhile isKeyChar =
        ':' :: (padded 2 m ++ rest) := by
      rw [List.dropWhile_cons_of_pos (by decide), List.dropWhile_append_of_pos isKeyChar_padded, hcolon]
    rw [hrun, afterPart?_of_head?_ne (by simp)]
    exact ⟨by simp, hminutes⟩
  · rw [List.dropWhile_cons_of_neg (by decide), afterPart?_padded, hcolon]
    exact ⟨by simp, hminutes⟩

theorem endsOffset_offsetChars (o : Option Offset) {rest : List Char} (hrest : EndsValue rest) :
    EndsOffset (offsetChars o ++ rest) rest := by
  have hdrop : rest.dropWhile isKeyChar = rest := Text.dropWhile_run (w := []) (by simp) hrest.endsWord
  have hplus : afterPart? '+' rest = some rest := afterPart?_of_head?_ne (hrest.head?_ne (by decide) (by decide))
  have hcolon : afterPart? ':' rest = some rest := afterPart?_of_head?_ne (hrest.head?_ne (by decide) (by decide))
  have hdot := hrest.head?_ne (c := '.') (by decide) (by decide)
  cases o with
  | none => simp [EndsOffset, offsetChars, hdrop, hplus, hcolon, hdot]
  | some o =>
    cases o with
    | utc =>
      have hutc : isKeyChar 'Z' = true := by decide
      simp [EndsOffset, offsetChars, Offset.chars, hutc, hdrop, hplus, hcolon, hdot]
    | numeric h m => exact endsOffset_numeric h m hdrop

theorem afterFraction (n : Within 0 999999999) {cs : List Char} (hcs : (cs.dropWhile isKeyChar).head? ≠ some '.') :
    afterPart? '.' ((fractionChars n ++ cs).dropWhile isKeyChar) = some (cs.dropWhile isKeyChar) := by
  by_cases hn : n.val = 0
  · rw [fractionChars, if_pos hn, List.nil_append, afterPart?_of_head?_ne hcs]
  · rw [fractionChars_eq hn, List.cons_append, List.dropWhile_cons_of_neg (by decide), afterPart?, after?, if_pos rfl]
    exact afterRun?_word (trimmed_ne_nil hn) isKeyChar_trimmed cs

/-- What is written for a time and its offset after the hours. -/
def afterHoursChars (t : Time) (o : Option Offset) : List Char :=
  ':' :: (padded 2 t.minute ++ ':' :: (padded 2 t.second ++ (fractionChars t.nanosecond ++ offsetChars o)))

theorem afterDateTime?_hours (t : Time) (o : Option Offset) {rest : List Char} (hrest : EndsValue rest) :
    afterDateTime? (afterHoursChars t o ++ rest) = some rest := by
  obtain ⟨hdot, hoffset⟩ := endsOffset_offsetChars o hrest
  have hcolon (cs : List Char) : (':' :: cs).dropWhile isKeyChar = ':' :: cs := List.dropWhile_cons_of_neg (by decide)
  have hminutes : afterMinutes? (padded 2 t.minute ++ ':' :: (padded 2 t.second ++
      (fractionChars t.nanosecond ++ (offsetChars o ++ rest)))) = some rest := by
    rw [afterMinutes?, afterRun?_padded, hcolon]
    show (afterRun? _ >>= fun cs => _) = _
    rw [afterRun?_padded]
    show (afterPart? '.' _ >>= fun cs => _) = _
    rw [afterFraction t.nanosecond hdot]
    exact hoffset
  simpa [afterHoursChars, afterDateTime?, afterHours, after?] using hminutes

theorem oneLine_padded (width n : Nat) : OneLine (padded width n) :=
  oneLine_of_isKeyChar isKeyChar_padded

theorem oneLine_fractionChars (n : Nat) : OneLine (fractionChars n) := by
  by_cases hn : n = 0
  · simp [OneLine, fractionChars, hn]
  · rw [fractionChars_eq hn]
    exact .cons (by decide) (oneLine_of_isKeyChar isKeyChar_trimmed)

theorem oneLine_offsetChars (o : Option Offset) : OneLine (offsetChars o) := by
  cases o with
  | none => simp [OneLine, offsetChars]
  | some o =>
    cases o with
    | utc => simp [OneLine, offsetChars, Offset.chars]
    | numeric h m =>
      refine .cons ?_ (.append (oneLine_padded 2 _) (.cons (by decide) (oneLine_padded 2 m)))
      split <;> decide

theorem oneLine_afterHoursChars (t : Time) (o : Option Offset) : OneLine (afterHoursChars t o) :=
  .cons (by decide) (.append (oneLine_padded 2 _) (.cons (by decide) (.append (oneLine_padded 2 _)
    (.append (oneLine_fractionChars _) (oneLine_offsetChars o)))))

/-! ## The first word -/

theorem isDigit_or_of_mem_date (d : Date) : ∀ c ∈ d.chars, c.isDigit = true ∨ c = '-' := by
  intro c hc
  simp only [Date.chars, List.mem_append, List.mem_cons, List.append_assoc, List.cons_append] at hc
  rcases hc with hc | rfl | hc | rfl | hc
  · exact .inl (isDigit_of_mem_padded c hc)
  · exact .inr rfl
  · exact .inl (isDigit_of_mem_padded c hc)
  · exact .inr rfl
  · exact .inl (isDigit_of_mem_padded c hc)

theorem isKeyChar_date (d : Date) : ∀ c ∈ d.chars, isKeyChar c = true := by
  intro c hc
  rcases isDigit_or_of_mem_date d c hc with hc | rfl
  · exact isKeyChar_of_isDigit hc
  · decide

theorem startsNumber_padded (width n : Nat) (cs : List Char) : startsNumber (padded width n ++ cs) = true := by
  obtain ⟨c, ds, hds⟩ := List.exists_cons_of_ne_nil (padded_ne_nil width n)
  have hc : c.isDigit = true := isDigit_of_mem_padded c (by rw [hds]; exact List.mem_cons_self)
  simp [startsNumber, hds, hc]

theorem startsNumber_date (d : Date) (cs : List Char) : startsNumber (d.chars ++ cs) = true := by
  rw [Date.chars, List.append_assoc, List.append_assoc]
  exact startsNumber_padded 4 d.year _

theorem hasDateMark_date (d : Date) : hasDateMark d.chars = true := by
  have hhyphen : '-' ∈ d.chars.tail := by
    obtain ⟨c, ds, hds⟩ := List.exists_cons_of_ne_nil (padded_ne_nil 4 d.year)
    simp [Date.chars, hds]
  rw [hasDateMark, Bool.or_eq_true, Bool.and_eq_true, Bool.not_eq_true', List.any_eq_false]
  refine .inr ⟨by simpa using hhyphen, ?_⟩
  -- No hyphen in a date is the sign of an exponent.
  rintro ⟨c, c'⟩ hmem he
  have hc := isDigit_or_of_mem_date d c (List.of_mem_zip hmem).1
  simp only [Bool.and_eq_true, Bool.or_eq_true, decide_eq_true_eq] at he
  rcases he.1 with rfl | rfl <;> exact absurd hc (by decide)

/-! ## Dates and times -/

/-- A word at which a date or time begins, and the part of this date or time behind the word. -/
structure IsScanned (word tail : List Char) : Prop where
  ne_nil : word ≠ []
  isKeyChar : ∀ c ∈ word, isKeyChar c = true
  oneLine : OneLine tail
  endsWord {rest : List Char} : EndsValue rest → EndsWord (tail ++ rest)
  begins {rest : List Char} : EndsValue rest → beginsDateTime word (tail ++ rest) = true
  after {rest : List Char} : EndsValue rest → afterDateTime? (tail ++ rest) = some rest

theorem date_ne_nil (d : Date) : d.chars ≠ [] := by
  simp [Date.chars]

theorem isScanned_date (d : Date) : IsScanned d.chars [] where
  ne_nil := date_ne_nil d
  isKeyChar := isKeyChar_date d
  oneLine := by simp [OneLine]
  endsWord h := h.endsWord
  begins _ := by
    have hstart := startsNumber_date d []
    rw [List.append_nil] at hstart
    simp [beginsDateTime, hstart, hasDateMark_date]
  after {rest} h := by
    have hhours : afterHours rest = rest := by
      unfold afterHours
      split
      · exact absurd rfl (h.head?_ne (by decide) (by decide))
      · rfl
    rw [List.nil_append, afterDateTime?, hhours, after?_of_head?_ne (h.head?_ne (by decide) (by decide))]

/-- The hours of a time end the word, whatever date stands before them. -/
theorem isScanned_hours {word : List Char} (t : Time) (o : Option Offset) (hne : word ≠ [])
    (hword : ∀ c ∈ word, isKeyChar c = true) (hstart : startsNumber word = true) :
    IsScanned word (afterHoursChars t o) where
  ne_nil := hne
  isKeyChar := hword
  oneLine := oneLine_afterHoursChars t o
  endsWord _ := by
    rintro c ⟨⟩
    decide
  begins _ := by simp [beginsDateTime, hstart, afterHoursChars]
  after h := afterDateTime?_hours t o h

theorem time_append_offset (t : Time) (o : Option Offset) :
    t.chars ++ offsetChars o = padded 2 t.hour ++ afterHoursChars t o := by
  simp [Time.chars, afterHoursChars]

theorem DateTime.exists_isScanned (d : DateTime) : ∃ word tail, d.chars = word ++ tail ∧ IsScanned word tail := by
  cases d with
  | date d => exact ⟨d.chars, [], (List.append_nil _).symm, isScanned_date d⟩
  | time t =>
    have hstart := startsNumber_padded 2 t.hour []
    rw [List.append_nil] at hstart
    refine ⟨padded 2 t.hour, afterHoursChars t none, ?_, ?_⟩
    · rw [← time_append_offset]
      exact (List.append_nil _).symm
    · exact isScanned_hours t none (padded_ne_nil 2 t.hour) isKeyChar_padded hstart
  | both d t o =>
    refine ⟨d.chars ++ 'T' :: padded 2 t.hour, afterHoursChars t o, ?_, ?_⟩
    · have htime := time_append_offset t o
      simp only [chars, offsetChars, List.append_assoc, List.cons_append] at htime ⊢
      rw [htime]
    · refine isScanned_hours t o ?_ ?_ (startsNumber_date d _)
      · simp
      · intro c hc
        simp only [List.mem_append, List.mem_cons] at hc
        rcases hc with hc | rfl | hc
        · exact isKeyChar_date d c hc
        · decide
        · exact isKeyChar_padded c hc

end DiceNotation.Toml
