import DiceNotation.LineAnswers
import DiceNotation.Proofs.Lines
import DiceNotation.Proofs.Messages
import DiceNotation.Proofs.Service.InTurn
import DiceNotation.Proofs.SettingsFile

/-!
# Every line is answered once and in order

An input asks for its lines up to the first that is not UTF-8, without the blank ones (`asks_iff`). Each of them is
answered as if it were asked alone: the service remembers of the others only how many of them took a block of its stream
(`answersTo_eq`). The stream is any sequence of blocks, so it may as well be one that is replaced from time to time.

The answers are printed in lines. None of them has a line break in it, and the words before a trace, a value and a
message tell them apart, so `readBack` finds the answers in what is printed (`readBack_printed`).

**What is printed for an input is the answers to its lines, each of them on its own, one after the other**
(`answers_exact`).
-/

namespace DiceNotation.LineAnswers

open Service Text

/-! ## The lines of the input -/

theorem toUTF8_of_fromUTF8? {bytes : ByteArray} {text : String} (h : String.fromUTF8? bytes = some text) :
    text.toUTF8 = bytes := by
  unfold String.fromUTF8? at h
  split at h <;> cases h
  rfl

theorem fromUTF8?_bytes (text : String) : String.fromUTF8? ⟨(Settings.bytes text).toArray⟩ = some text :=
  dif_pos text.isValidUTF8

/-- The texts are the lines of the input before the first that is not UTF-8, without the blank ones. -/
def Asks (input : List UInt8) (texts : List String) : Prop :=
  ∃ (ls : List (List UInt8)) (before : List String) (rest : List (List UInt8)),
    Text.Lines 10 13 input ls ∧ ls = before.map Settings.bytes ++ rest ∧
      (∀ line ∈ rest.head?, ∀ text, Settings.bytes text ≠ line) ∧ texts = before.filter fun text => !isBlankLine text

theorem exists_rest (ls : List (List UInt8)) : ∃ rest, ls = (decoded ls).map Settings.bytes ++ rest ∧
    ∀ line ∈ rest.head?, ∀ text, Settings.bytes text ≠ line := by
  induction ls with
  | nil => exact ⟨[], rfl, by simp⟩
  | cons line ls ih =>
    cases hline : String.fromUTF8? ⟨line.toArray⟩ with
    | some text =>
      obtain ⟨rest, hls, hrest⟩ := ih
      have hbytes : Settings.bytes text = line := by rw [Settings.bytes, toUTF8_of_fromUTF8? hline]
      refine ⟨rest, ?_, hrest⟩
      rw [decoded, hline, List.map_cons, hbytes, List.cons_append, ← hls]
    | none =>
      refine ⟨line :: ls, by rw [decoded, hline]; rfl, ?_⟩
      rintro _ ⟨⟩ text rfl
      rw [fromUTF8?_bytes] at hline
      cases hline

theorem decoded_append {rest : List (List UInt8)} (h : ∀ line ∈ rest.head?, ∀ text, Settings.bytes text ≠ line)
    (before : List String) : decoded (before.map Settings.bytes ++ rest) = before := by
  induction before with
  | nil =>
    cases rest with
    | nil => rfl
    | cons line rest =>
      cases hline : String.fromUTF8? ⟨line.toArray⟩ with
      | some text => exact absurd (by rw [Settings.bytes, toUTF8_of_fromUTF8? hline]) (h line rfl text)
      | none => rw [List.map_nil, List.nil_append, decoded, hline]
  | cons text before ih => rw [List.map_cons, List.cons_append, decoded, fromUTF8?_bytes, ih]

/-- An input asks for the lines that are rolled, and for no others. -/
theorem asks_iff {input : List UInt8} {texts : List String} : Asks input texts ↔ questions input = texts := by
  constructor
  · rintro ⟨ls, before, rest, hlines, rfl, hrest, rfl⟩
    rw [questions, (lines_eq_iff (by decide)).2 hlines, decoded_append hrest]
  · rintro rfl
    obtain ⟨rest, hls, hrest⟩ := exists_rest (Text.lines 10 13 input)
    exact ⟨_, _, rest, (lines_eq_iff (by decide)).1 rfl, hls, hrest, rfl⟩

/-! ## One answer after the other -/

/-- What a service prints that is started for these lines. -/
def answersTo (settings : Settings) (master : Nat → Block) (clocks : Nat → Clock) (texts : List String) :
    List String :=
  match State.start? settings master with
  | some s => answersFrom s clocks texts
  | none => []

variable {settings : Settings} {master : Nat → Block} {clock : Clock} {clocks : Nat → Clock} {s : State} {k : Nat}
  {text : String} {texts : List String}

theorem answersFrom_eq (hworkers : settings.workers ≠ 0) (h : State.IsIdle settings master k s)
    (clocks : Nat → Clock) (texts : List String) :
    answersFrom s clocks texts = (results settings (streamFrom k master) clocks texts).flatMap answer := by
  induction texts generalizing s k clocks with
  | nil => rfl
  | cons text texts ih =>
    have hrest := ih (h.rollText_snd text (clocks 0)) (streamFrom 1 clocks)
    have hanswers : answersFrom s clocks (text :: texts) = answer (s.rollText text (clocks 0)).1 ++
        answersFrom (s.rollText text (clocks 0)).2 (streamFrom 1 clocks) texts := rfl
    rw [hanswers, hrest, h.rollText_fst hworkers, results_cons, List.flatMap_cons, streamFrom_streamFrom,
      List.countP_singleton]
    rfl

theorem answersTo_eq (hworkers : settings.workers ≠ 0) (master : Nat → Block) (clocks : Nat → Clock)
    (texts : List String) :
    answersTo settings master clocks texts = (results settings master clocks texts).flatMap answer := by
  obtain ⟨s, hstart, hidle⟩ := State.exists_start hworkers master
  simp only [answersTo, hstart, answersFrom_eq hworkers hidle, streamFrom_zero]

/-! ## What a result can be -/

/-- All that is printed for a result stays in its line. -/
theorem isInline_answer (hworkers : settings.workers ≠ 0) (clock : Clock) (block : Block) (text : String) :
    ∀ line ∈ answer (alone settings clock block text), IsInline line := by
  have hfailure : ∀ f : RollFailure, IsInline f.message → ∀ line ∈ answer (.error f), IsInline line :=
    fun f hf => List.forall_mem_singleton.2 (isInline_append.2 ⟨by decide, hf⟩)
  obtain ⟨error, hread, halone⟩ | ⟨error, halone⟩ | ⟨e, faces, v, -, houtcome, halone⟩ := alone_cases hworkers text
  · rw [halone]
    exact hfailure _ (Expr.isInline_message_of_read hread)
  · rw [halone]
    exact hfailure _ error.isInline_message
  · have hrolls : IsInline ("Rolls: " ++ v.trace) := isInline_append.2 ⟨by decide, houtcome.isInline_trace⟩
    have hresult : IsInline ("Result: " ++ toString v.value.toInt) := isInline_append.2 ⟨by decide, isInline_int _⟩
    rw [halone]
    exact List.forall_mem_cons.2 ⟨hrolls, List.forall_mem_singleton.2 hresult⟩

/-- A text that is not blank has something to be blamed. -/
theorem not_begins_message (hworkers : settings.workers ≠ 0) (hblank : isBlankLine text = false) {block : Block}
    {f : RollFailure} (h : alone settings clock block text = .error f) :
    ¬ Begins 'e' f.message ∧ ∀ errors, f = .roll (.read (.parse errors)) → .empty ∉ errors := by
  have hchar : ∃ c ∈ text.toList, isBlank c = false := by simpa [isBlankLine] using hblank
  obtain ⟨error, hread, halone⟩ | ⟨error, halone⟩ | ⟨e, faces, v, -, -, halone⟩ := alone_cases hworkers text
  · cases halone.symm.trans h
    refine ⟨Expr.not_begins_message_of_read hchar hread, ?_⟩
    rintro errors ⟨⟩
    exact Expr.empty_notMem_of_read hchar hread
  · cases halone.symm.trans h
    refine ⟨?_, by simp⟩
    rintro ⟨cs, hcs⟩
    cases error <;> cases hcs
  · cases halone.symm.trans h

/-! ## Reading the answers back -/

/-- What is printed: every line is ended. -/
def printed (lines : List String) : List Char :=
  lines.flatMap fun line => line.toList ++ ['\n']

/-- The value that is written in digits, after a minus sign if it is negative. -/
def value? : List Char → Option Value
  | '-' :: digits => Value.ofInt? (-numeralValue digits)
  | digits => Value.ofInt? (numeralValue digits)

/-- The result of a roll in two lines. -/
def rolled? (first second : List Char) : Option Evaluation := do
  let trace ← first.dropPrefix? "Rolls: ".toList
  let value ← (← second.dropPrefix? "Result: ".toList) |> value?
  return ⟨value, String.ofList trace⟩

/-- The results or messages in some lines. -/
def readLines : List (List Char) → Option (List (Except String Evaluation))
  | [] => some []
  | first :: rest =>
    match first.dropPrefix? "Error: ".toList with
    | some message => (readLines rest).map (.error (String.ofList message) :: ·)
    | none =>
      match rest with
      | [] => none
      | second :: rest => do return .ok (← rolled? first second) :: (← readLines rest)

/-- The results or messages in what is printed. -/
def readBack (text : List Char) : Option (List (Except String Evaluation)) :=
  readLines (Text.lines '\n' '\r' text).dropLast

theorem dropPrefix?_append (p cs : List Char) : (p ++ cs).dropPrefix? p = some cs :=
  List.dropPrefix?_eq_some_iff.2 ⟨p, rfl, beq_self_eq_true p⟩

theorem value?_toString (v : Value) : value? (toString v.toInt).toList = some v := by
  refine Eq.trans ?_ (Value.ofInt?_eq_some_iff.2 rfl)
  generalize v.toInt = n
  cases n with
  | ofNat n =>
    show value? n.repr.toList = _
    rw [Nat.toList_repr]
    unfold value?
    split
    · next digits hdigits =>
      have hminus : Char.isDigit '-' = true := Nat.isDigit_of_mem_toDigits (by decide) (by decide)
        (hdigits ▸ List.mem_cons_self)
      cases hminus
    · rw [numeralValue_toDigits]
      rfl
  | negSucc n =>
    show value? ("-" ++ (n + 1).repr).toList = _
    rw [String.toList_append, Nat.toList_repr]
    show Value.ofInt? (-numeralValue (Nat.toDigits 10 (n + 1))) = _
    rw [numeralValue_toDigits]
    rfl

theorem rolled?_answer (v : Evaluation) :
    rolled? ("Rolls: " ++ v.trace).toList ("Result: " ++ toString v.value.toInt).toList = some v := by
  simp only [rolled?, String.toList_append, dropPrefix?_append, Option.bind_eq_bind, Option.bind_some,
    value?_toString, String.ofList_toList]
  rfl

theorem readLines_answer (result : Result) (lines : List (List Char)) :
    readLines ((answer result).map String.toList ++ lines) =
      (readLines lines).map (result.mapError RollFailure.message :: ·) := by
  cases result with
  | error f =>
    show readLines (("Error: " ++ f.message).toList :: lines) = _
    rw [readLines.eq_def]
    simp only [String.toList_append, dropPrefix?_append, String.ofList_toList]
    rfl
  | ok v =>
    have hrolls : ("Rolls: " ++ v.trace).toList.dropPrefix? "Error: ".toList = none := by
      rw [String.toList_append]
      rfl
    show readLines (("Rolls: " ++ v.trace).toList :: ("Result: " ++ toString v.value.toInt).toList :: lines) = _
    rw [readLines.eq_def]
    simp only [hrolls, rolled?_answer]
    cases readLines lines <;> rfl

theorem lines_printed {lines : List String} (h : ∀ line ∈ lines, IsInline line) :
    Text.lines '\n' '\r' (printed lines) = lines.map String.toList ++ [[]] := by
  induction lines with
  | nil => rfl
  | cons line lines ih =>
    obtain ⟨hline, hlines⟩ := List.forall_mem_cons.1 h
    have hfeed : '\n' ∉ line.toList := fun hmem => absurd (hline _ hmem (by decide)) (by decide)
    have hreturn : line.toList.getLast? ≠ some '\r' := fun hlast =>
      absurd (hline _ (List.mem_of_getLast? hlast) (by decide)) (by decide)
    have hprinted : printed (line :: lines) = line.toList ++ '\n' :: printed lines := by simp [printed]
    rw [hprinted, lines_ended hfeed hreturn, ih hlines]
    rfl

theorem readBack_printed {results : List Result} (h : ∀ result ∈ results, ∀ line ∈ answer result, IsInline line) :
    readBack (printed (results.flatMap answer)) = some (results.map (·.mapError RollFailure.message)) := by
  have hlines : ∀ line ∈ results.flatMap answer, IsInline line := by
    intro line hline
    obtain ⟨result, hresult, hline⟩ := List.mem_flatMap.1 hline
    exact h result hresult line hline
  rw [readBack, lines_printed hlines, List.dropLast_concat]
  clear h hlines
  induction results with
  | nil => rfl
  | cons result results ih =>
    rw [List.flatMap_cons, List.map_append, readLines_answer, ih]
    rfl

/-! ## The program -/

/-- The settings of a settings file, or the defaults if none is named. -/
def loaded (format : Toml.Format) : Option Settings.Entry → Settings
  | some entry => (Settings.load entry format).1
  | none => {}

theorem workers_loaded (format : Toml.Format) (entry : Option Settings.Entry) :
    (loaded format entry).workers ≠ 0 := by
  cases entry with
  | none => exact Nat.succ_ne_zero 3
  | some entry =>
    rw [loaded, Settings.load_settings]
    exact Nat.pos_iff_ne_zero.1 (Settings.one_le_get_complete (entry.document format)
      ⟨Settings.workersKey, 1, Settings.workers⟩ (by simp [Settings.fields]) (by decide) (by decide))

/-- No message to a line that is not blank is about an empty expression. -/
theorem ne_empty_of_mem_answer (hworkers : settings.workers ≠ 0) (hblank : isBlankLine text = false) {block : Block}
    {line : String} (hline : line ∈ answer (alone settings clock block text)) : line ≠ "Error: empty expression" := by
  rintro rfl
  have hbegins : Begins 'E' "Error: empty expression" := ⟨_, rfl⟩
  cases hresult : alone settings clock block text with
  | error f =>
    rw [hresult] at hline
    have hlists : "Error: ".toList ++ "empty expression".toList = "Error: ".toList ++ f.message.toList := by
      rw [← String.toList_append, ← String.toList_append, ← List.mem_singleton.1 hline]
      rfl
    exact (not_begins_message hworkers hblank hresult).1 ⟨_, (List.append_cancel_left hlists).symm⟩
  | ok v =>
    rw [hresult] at hline
    have hfirst : ∀ line ∈ answer (.ok v), Begins 'R' line :=
      List.forall_mem_cons.2 ⟨Begins.append ⟨_, rfl⟩ _, List.forall_mem_singleton.2 (Begins.append ⟨_, rfl⟩ _)⟩
    exact absurd (hbegins.eq (hfirst _ hline)) (by decide)

/-- **Every line is answered once and in order.** The lines that are asked for are those that are not blank, up to the
first that is not UTF-8. Each has the result that it has alone, under its own clock and with the block of the stream
that follows those of the lines before it. What stands behind a line is answered as by a service that is started there:
so it does not matter what became of the line. Nothing that is printed has a line break inside, the results and messages
can be read back from it, and no message is about an empty expression. -/
theorem answers_exact (format : Toml.Format) (entry : Option Settings.Entry) (master : Nat → Block)
    (clocks : Nat → Clock) (input : List UInt8) :
    let settings := loaded format entry
    ∃ texts, (∀ asked, Asks input asked ↔ asked = texts) ∧
      answers settings master input clocks = (results settings master clocks texts).flatMap answer ∧
      (∀ before text after, texts = before ++ text :: after →
        answers settings master input clocks =
          answersTo settings master clocks before ++
            answer (alone settings (clocks before.length) (master (before.countP (reads settings))) text) ++
            answersTo settings (streamFrom ((before ++ [text]).countP (reads settings)) master)
              (streamFrom (before ++ [text]).length clocks) after) ∧
      (∀ line ∈ answers settings master input clocks, IsInline line ∧ line ≠ "Error: empty expression") ∧
      (∀ errors, .error (.roll (.read (.parse errors))) ∈ results settings master clocks texts → .empty ∉ errors) ∧
      readBack (printed (answers settings master input clocks)) =
        some ((results settings master clocks texts).map (·.mapError RollFailure.message)) := by
  intro settings
  have hworkers : settings.workers ≠ 0 := workers_loaded format entry
  clear_value settings
  have hanswers :
      answers settings master input clocks = (results settings master clocks (questions input)).flatMap answer :=
    answersTo_eq hworkers master clocks (questions input)
  have hblank : ∀ text ∈ questions input, isBlankLine text = false := by simp [questions]
  have hinline :
      ∀ result ∈ results settings master clocks (questions input), ∀ line ∈ answer result, IsInline line := by
    intro result hresult
    obtain ⟨clock, block, text, -, rfl⟩ := exists_of_mem_results hresult
    exact isInline_answer hworkers clock block text
  refine ⟨questions input, fun asked => asks_iff.trans eq_comm, hanswers, ?_, ?_, ?_, ?_⟩
  · intro before text after htexts
    rw [hanswers, htexts, answersTo_eq hworkers, answersTo_eq hworkers, results_append, results_cons,
      streamFrom_streamFrom, streamFrom_streamFrom, ← List.countP_append]
    simp [streamFrom]
  · rw [hanswers]
    intro line hline
    obtain ⟨result, hresult, hline⟩ := List.mem_flatMap.1 hline
    refine ⟨hinline result hresult line hline, ?_⟩
    obtain ⟨clock, block, text, htext, rfl⟩ := exists_of_mem_results hresult
    exact ne_empty_of_mem_answer hworkers (hblank text htext) hline
  · intro errors hresult
    obtain ⟨clock, block, text, htext, halone⟩ := exists_of_mem_results hresult
    exact (not_begins_message hworkers (hblank text htext) halone.symm).2 errors rfl
  · rw [hanswers]
    exact readBack_printed hinline

/-- A blank line has no answer, and neither has what stands behind a line that is not UTF-8. -/
example : answers {} (masterOfSeed 1) (Settings.bytes "007\r\n \t\n1 +\n2 * 3" ++ [10, 255, 10, 49]) =
    ["Rolls: 7", "Result: 7", "Error: unexpected end of expression", "Rolls: 2 * 3", "Result: 6"] := by
  decide +kernel

end DiceNotation.LineAnswers
