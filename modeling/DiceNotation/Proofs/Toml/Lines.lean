import DiceNotation.Proofs.Lines
import DiceNotation.Proofs.Toml.Values

/-!
# Written lines

A line of a written document is read as what it was written for (`ReadsLine`): an empty line, the header of a table
(`readsLine_header`), an entry (`readsLine_entry`). A text that consists of such lines, each of them ended, is read line
by line, and behind the last of them an empty line is read (`Written.read`).
-/

namespace DiceNotation.Toml

open Reader Writer

/-! ## Single lines -/

/-- The text is a line for `l`. -/
structure ReadsLine (cs : List Char) (l : Line) : Prop where
  read : line? cs = some l
  oneLine : OneLine cs
  unmarked : cs.head? ≠ some '\ufeff'

theorem readsLine_blank : ReadsLine [] .blank where
  read := rfl
  oneLine := by simp [OneLine]
  unmarked := by decide

theorem skipSpace_of_head {c : Char} (h : c ≠ ' ' ∧ c ≠ '\t') (cs : List Char) : skipSpace (c :: cs) = c :: cs := by
  simp [skipSpace, h.1, h.2]

/-- A key stands where its first character says, without blanks before it. -/
theorem skipSpace_key (s : String) (cs : List Char) : skipSpace ((key s).toList ++ cs) = (key s).toList ++ cs := by
  obtain ⟨c, ds, hcs, hc⟩ := exists_key_cons s
  rw [hcs]
  refine skipSpace_of_head ⟨?_, ?_⟩ _
  · rintro rfl
    exact absurd hc (by decide)
  · rintro rfl
    exact absurd hc (by decide)

theorem readsLine_header (name : String) : ReadsLine ('[' :: ((key name).toList ++ [']'])) (.header name) where
  read := by
    have hname : key? ((key name).toList ++ [']']) = some (name, [']']) := key?_key name (by simp [EndsWord]; decide)
    rw [line?, skipSpace_of_head (by decide)]
    show (key? (skipSpace ((key name).toList ++ [']'])) >>= fun read => _) = _
    rw [skipSpace_key, hname]
    rfl
  oneLine := .cons (by decide) ((oneLine_key name).append (by simp [OneLine]))
  unmarked := by simp

/-- A line that begins with a key is an entry. -/
theorem line?_key {name : String} {v : Value} {cs : List Char} (hskip : skipSpace cs = cs)
    (hread : Reader.value? cs = some (some v, [])) :
    line? ((key name).toList ++ ' ' :: '=' :: ' ' :: cs) = some (.entry name (some v)) := by
  have hkey : key? ((key name).toList ++ ' ' :: '=' :: ' ' :: cs) = some (name, ' ' :: '=' :: ' ' :: cs) :=
    key?_key name (by simp [EndsWord]; decide)
  have hfirst (c : Char) (hc : isKeyChar c = false ∧ c ≠ '"') (ds : List Char) :
      (key name).toList ++ ' ' :: '=' :: ' ' :: cs ≠ c :: ds := by
    obtain ⟨d, ds', hds, hd⟩ := exists_key_cons name
    intro heq
    rw [hds] at heq
    obtain rfl := (List.cons.inj heq).1
    rcases hd with hd | hd
    · rw [hc.1] at hd
      cases hd
    · exact hc.2 hd
  rw [line?, skipSpace_key]
  split
  · next heq => simp at heq
  · next heq => exact absurd heq (hfirst '#' (by decide) _)
  · next heq => exact absurd heq (hfirst '[' (by decide) _)
  · rw [hkey]
    show (Reader.value? (skipSpace cs) >>= fun read => _) = _
    rw [hskip, hread]
    rfl

theorem readsLine_entry (name : String) {v : Value} {s : String} (h : Writer.value? v = some s) :
    ReadsLine ((key name).toList ++ ' ' :: '=' :: ' ' :: s.toList) (.entry name (some v)) where
  read := by
    have hskip := (readsAs_of_value? h).skipSpace []
    rw [List.append_nil] at hskip
    exact line?_key hskip (value?_of_value? h)
  oneLine := (oneLine_key name).append (.cons (by decide) (.cons (by decide) (.cons (by decide)
    (readsAs_of_value? h).oneLine)))
  unmarked := by
    obtain ⟨c, ds, hcs, hc⟩ := exists_key_cons name
    rw [hcs]
    rintro ⟨⟩
    exact absurd hc (by decide)

/-! ## All lines of a text -/

open Text

theorem lines_cons {cs : List Char} (h : OneLine cs) (rest : List Char) :
    lines '\n' '\r' (cs ++ '\n' :: rest) = cs :: lines '\n' '\r' rest := by
  have hfeed : '\n' ∉ cs := fun hmem => (h _ hmem).1 rfl
  have hreturn : cs.getLast? ≠ some '\r' := fun hlast => (h _ (List.mem_of_getLast? hlast)).2 rfl
  exact lines_ended hfeed hreturn rest

/-- The text consists of lines for `ls`, each of them ended. -/
inductive Written : List Char → List Line → Prop
  | nil : Written [] []
  | cons {cs rest : List Char} {l : Line} {ls : List Line} :
    ReadsLine cs l → Written rest ls → Written (cs ++ '\n' :: rest) (l :: ls)

namespace Written

variable {text text' : List Char} {ls ls' : List Line}

theorem append (h : Written text ls) (h' : Written text' ls') : Written (text ++ text') (ls ++ ls') := by
  induction h with
  | nil => exact h'
  | cons hline _ ih =>
    rw [List.append_assoc, List.cons_append, List.cons_append]
    exact .cons hline ih

theorem single {cs : List Char} {l : Line} (h : ReadsLine cs l) : Written (cs ++ ['\n']) [l] :=
  .cons h .nil

theorem read (h : Written text ls) : (lines '\n' '\r' text).mapM line? = some (ls ++ [.blank]) := by
  induction h with
  | nil => rfl
  | cons hline _ ih =>
    rw [lines_cons hline.oneLine, List.mapM_cons, hline.read, ih]
    rfl

theorem unmarked (h : Written text ls) : text.head? ≠ some '\ufeff' := by
  cases h with
  | nil => decide
  | @cons cs rest l ls hline _ =>
    cases cs with
    | nil => simp
    | cons c cs => exact hline.unmarked

end Written

end DiceNotation.Toml
