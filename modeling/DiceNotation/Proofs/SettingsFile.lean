import DiceNotation.Config.File
import DiceNotation.Proofs.Completion
import DiceNotation.Proofs.Toml.DateTables
import DiceNotation.Proofs.Toml.Writable

/-!
# Loading a settings file

A load writes the completed document if this has a written form, and leaves the path alone otherwise (`load_of_written`,
`load_of_unwritten`), in whatever format documents are written. **A second load changes nothing** (`load_load`),
whatever the first one found, as long as the document it wrote is read as it was written.

Line by line, the completed document of a file is written exactly if its values come before its tables, so **a file is
completed or not depending on the names of its tables** (`load_file`): a table `dice` comes before the key `max_depth`,
and such a file stays incomplete (`diceTable_not_completed`). What is written is read as it was, as long as no table in
it stands for a date or time (`isUndone_iff`).
-/

namespace DiceNotation.Settings

open Toml

/-! ## Bytes -/

def bytes (text : String) : List UInt8 :=
  text.toUTF8.data.toList

variable {format : Format} {path : Entry}

theorem document?_bytes (text : String) : document? (bytes text) format = format.read? text := by
  have htext : String.fromUTF8? ⟨(bytes text).toArray⟩ = some text := dif_pos text.isValidUTF8
  rw [document?, htext]
  rfl

theorem document_file {content : List UInt8} {d : Document} (h : document? content format = some d) :
    (Entry.file content).document format = d := by
  rw [Entry.document, h]
  rfl

/-! ## One load -/

theorem load_of_written {text : String} (h : format.write? (complete (path.document format)).2 = some text) :
    load path format = ((complete (path.document format)).1, path.write (bytes text)) := by
  unfold load
  generalize complete (path.document format) = completed at h ⊢
  obtain ⟨settings, d⟩ := completed
  dsimp only at h ⊢
  rw [h]
  rfl

theorem load_of_unwritten (h : format.write? (complete (path.document format)).2 = none) :
    load path format = ((complete (path.document format)).1, path) := by
  unfold load
  generalize complete (path.document format) = completed at h ⊢
  obtain ⟨settings, d⟩ := completed
  dsimp only at h ⊢
  rw [h]

theorem load_settings (format : Format) (path : Entry) :
    (load path format).1 = (complete (path.document format)).1 := by
  cases hwritten : format.write? (complete (path.document format)).2 with
  | none => rw [load_of_unwritten hwritten]
  | some text => rw [load_of_written hwritten]

/-! ## Completed documents -/

theorem isWritable_complete {d : Document} (h : IsWritable d) : IsWritable (complete d).2 := by
  rw [complete_document]
  exact fillAll_induction (fun _ k h => h.insert k.name ⟨_, rfl⟩) keys h

theorem isPlain_complete {d : Document} (h : IsPlain d) : IsPlain (complete d).2 := by
  rw [complete_document]
  refine fillAll_induction (fun d k h name t ht => ?_) keys h
  by_cases hname : name = k.name
  · subst hname
    rw [Table.get?_insert_self] at ht
    cases ht
  · rw [Table.get?_insert_of_ne _ _ hname] at ht
    exact h name t ht

/-- The reader undoes the writer on the document. -/
def IsUndone (d : Document) (format : Format := .lines) : Prop :=
  ∀ text, format.write? d = some text → format.read? text = some d

theorem isUndone_of_isPlain {d : Document} (h : IsPlain d) : IsUndone d :=
  fun _ hwritten => document?_of_document? h hwritten

theorem isUndone_iff {d : Document} {text : String} (h : Writer.document? d = some text) : IsUndone d ↔ IsPlain d :=
  ⟨fun hundo => (document?_eq_some_iff h).1 (hundo text h), isUndone_of_isPlain⟩

/-- `d'` is `d` with the integers from which the settings are made: the integers of `d` where it gives one for the key,
and otherwise new ones. -/
structure IsCompletion (d d' : Document) (s : Settings) : Prop where
  filled : ∀ f ∈ fields, ∃ i, d'.get? f.key.name = some (.value (.integer i)) ∧ f.key.Accepts i ∧
    (f.get s : Int) = f.unit * i.toInt
  given : ∀ k ∈ keys, k.IsGiven d → d'.get? k.name = d.get? k.name
  kept : ∀ name ∉ keys.map Key.name, d'.get? name = d.get? name

theorem isCompletion_complete (d : Document) : IsCompletion d (complete d).2 (complete d).1 where
  filled f hf := by
    obtain ⟨i, hi, haccepts, hnumber⟩ := exists_get?_complete (key_mem_keys f hf) d
    refine ⟨i, hi, haccepts, ?_⟩
    rw [get_complete d f hf, hnumber, Int.natCast_mul]
  given k hk hgiven := by
    obtain ⟨i, hi, haccepts⟩ := hgiven
    rw [hi, get?_complete_of_accepts hk hi haccepts]
  kept name h := get?_complete_of_notMem h d

/-- Every table comes after the last one of the keys, and after all other values. -/
def HasTablesLast (d : Document) : Prop :=
  ∀ name t, d.get? name = some (.table t) → name ∉ keys.map Key.name →
    timeoutKey.name < name ∧ ∀ key v, d.get? key = some (.value v) → key < name

theorem isOrdered_complete_iff (d : Document) : IsOrdered (complete d).2 ↔ HasTablesLast d := by
  have hkey : ∀ name ∈ keys.map Key.name, ∃ i, (complete d).2.get? name = some (.value (.integer i)) := by
    intro name hname
    obtain ⟨k, hk, rfl⟩ := List.mem_map.1 hname
    obtain ⟨i, hi, -⟩ := isGiven_complete d k hk
    exact ⟨i, hi⟩
  have hother : ∀ name ∉ keys.map Key.name, (complete d).2.get? name = d.get? name :=
    fun name hname => get?_complete_of_notMem hname d
  have hlast : ∀ name ∈ keys.map Key.name, name = timeoutKey.name ∨ name < timeoutKey.name := by decide
  constructor
  · intro h name t ht hname
    rw [← hother name hname] at ht
    refine ⟨?_, fun key v hv => ?_⟩
    · obtain ⟨i, hi⟩ := hkey timeoutKey.name (by decide)
      exact h _ _ name t hi ht
    · by_cases hmem : key ∈ keys.map Key.name
      · obtain ⟨i, hi⟩ := hkey key hmem
        exact h _ _ name t hi ht
      · rw [← hother key hmem] at hv
        exact h key v name t hv ht
  · intro h key v name t hv ht
    -- The entry of a key is an integer, so the table has another name.
    have hname : name ∉ keys.map Key.name := by
      intro hmem
      obtain ⟨i, hi⟩ := hkey name hmem
      rw [hi] at ht
      cases ht
    rw [hother name hname] at ht
    obtain ⟨hafter, hvalues⟩ := h name t ht hname
    by_cases hmem : key ∈ keys.map Key.name
    · rcases hlast key hmem with rfl | hlt
      · exact hafter
      · exact String.lt_trans hlt hafter
    · rw [hother key hmem] at hv
      exact hvalues key v hv

theorem exists_written_iff {content : List UInt8} {d : Document} (hread : document? content = some d) :
    (∃ text, Writer.document? (complete d).2 = some text) ↔ HasTablesLast d := by
  obtain ⟨text, -, htext⟩ := Option.bind_eq_some_iff.1 hread
  rw [exists_document?_iff (isWritable_complete (isWritable_of_document? htext)), isOrdered_complete_iff]

/-! ## Files -/

theorem load_of_hasTablesLast {content : List UInt8} {d : Document} (hread : document? content = some d)
    (hplain : IsPlain d) (hlast : HasTablesLast d) :
    ∃ content', (load (.file content)).2 = .file content' ∧ document? content' = some (complete d).2 := by
  obtain ⟨text, htext⟩ := (exists_written_iff hread).2 hlast
  refine ⟨bytes text, ?_, ?_⟩
  · rw [load_of_written (by rw [document_file hread]; exact htext)]
    rfl
  · rw [document?_bytes]
    exact isUndone_of_isPlain (isPlain_complete hplain) text htext

theorem load_of_not_hasTablesLast {content : List UInt8} {d : Document} (hread : document? content = some d)
    (hlast : ¬ HasTablesLast d) : (load (.file content)).2 = .file content := by
  have hunwritten : Writer.document? (complete d).2 = none := by
    rw [Option.eq_none_iff_forall_ne_some]
    exact fun text htext => hlast ((exists_written_iff hread).1 ⟨text, htext⟩)
  rw [load_of_unwritten (by rw [document_file hread]; exact hunwritten)]

/-- **A file is completed if its tables come last, and stays as it is otherwise.** The settings are those of the
completed document in either case. -/
theorem load_file {content : List UInt8} {d : Document} (hread : document? content = some d) (hplain : IsPlain d) :
    IsCompletion d (complete d).2 (load (.file content)).1 ∧
      (HasTablesLast d → ∃ content', (load (.file content)).2 = .file content' ∧
        document? content' = some (complete d).2) ∧
      (¬ HasTablesLast d → (load (.file content)).2 = .file content) := by
  refine ⟨?_, load_of_hasTablesLast hread hplain, load_of_not_hasTablesLast hread⟩
  rw [load_settings, document_file hread]
  exact isCompletion_complete d

/-- A document with one table, which has one entry. -/
def singleTable (name : String) : Document :=
  Table.empty.insert name (.table (Table.empty.insert "sides" (.integer 6)))

theorem get?_singleTable {name key : String} {item : Item} (h : (singleTable name).get? key = some item) :
    key = name ∧ item = .table (Table.empty.insert "sides" (.integer 6)) := by
  by_cases hkey : key = name
  · subst hkey
    rw [singleTable, Table.get?_insert_self] at h
    exact ⟨rfl, (Option.some.inj h).symm⟩
  · rw [singleTable, Table.get?_insert_of_ne _ _ hkey] at h
    cases h

theorem isPlain_singleTable (name : String) : IsPlain (singleTable name) := by
  intro name' t ht
  cases (get?_singleTable ht).2
  rintro e ⟨⟩
  decide

/-- A table `zones` comes after all keys. -/
theorem zonesTable_completed :
    document? (bytes "[zones]\nsides = 6\n") = some (singleTable "zones") ∧ IsPlain (singleTable "zones") ∧
      HasTablesLast (singleTable "zones") ∧
      IsCompletion (singleTable "zones") (complete (singleTable "zones")).2
        (load (.file (bytes "[zones]\nsides = 6\n"))).1 ∧
      ∃ content', (load (.file (bytes "[zones]\nsides = 6\n"))).2 = .file content' ∧
        document? content' = some (complete (singleTable "zones")).2 := by
  have hread : document? (bytes "[zones]\nsides = 6\n") = some (singleTable "zones") := by
    rw [document?_bytes, Format.read?_lines]
    exact document?_of_document? (isPlain_singleTable "zones") rfl
  have hlast : HasTablesLast (singleTable "zones") := by
    intro name t ht _
    obtain ⟨rfl, -⟩ := get?_singleTable ht
    refine ⟨by decide, fun key v hv => ?_⟩
    cases (get?_singleTable hv).2
  obtain ⟨hcompletion, hwritten, -⟩ := load_file hread (isPlain_singleTable "zones")
  exact ⟨hread, isPlain_singleTable "zones", hlast, hcompletion, hwritten hlast⟩

/-- A table `dice` comes before the keys, and its file is not completed. -/
theorem diceTable_not_completed :
    document? (bytes "[dice]\nsides = 6\n") = some (singleTable "dice") ∧
      (load (.file (bytes "[dice]\nsides = 6\n"))).2 = .file (bytes "[dice]\nsides = 6\n") ∧
      ¬ ∃ content' d', (load (.file (bytes "[dice]\nsides = 6\n"))).2 = .file content' ∧
        document? content' = some d' ∧
        IsCompletion (singleTable "dice") d' (load (.file (bytes "[dice]\nsides = 6\n"))).1 := by
  have hread : document? (bytes "[dice]\nsides = 6\n") = some (singleTable "dice") := by
    rw [document?_bytes, Format.read?_lines]
    exact document?_of_document? (isPlain_singleTable "dice") rfl
  have hload : (load (.file (bytes "[dice]\nsides = 6\n"))).2 = .file (bytes "[dice]\nsides = 6\n") := by
    refine load_of_not_hasTablesLast hread fun hlast => ?_
    have htable := Table.get?_insert_self .empty "dice" (Item.table (Table.empty.insert "sides" (.integer 6)))
    exact absurd (hlast "dice" _ htable (by decide)).1 (by decide)
  refine ⟨hread, hload, ?_⟩
  rintro ⟨content', d', hcontent, hread', hcompletion⟩
  rw [hload] at hcontent
  cases hcontent
  rw [hread] at hread'
  cases hread'
  obtain ⟨i, hi, -⟩ := hcompletion.filled ⟨maxDepthKey, 1, maxDepth⟩ (by simp [fields])
  cases (get?_singleTable hi).2

/-! ## Two loads -/

theorem Entry.write_write (content : List UInt8) : (path.write content).write content = path.write content := by
  cases path <;> rfl

/-- Nothing can be written to a directory; elsewhere it is read again. -/
theorem Entry.document_write (format : Format) (content : List UInt8) : path.write content = path ∨
    (path.write content).document format = (document? content format).getD .empty := by
  cases path with
  | directory => exact .inl rfl
  | missing => exact .inr rfl
  | file _ => exact .inr rfl

/-- **A second load changes nothing** and gives the same settings, whatever is at the path and in whatever format, as
long as the reader undoes the writer on the completed document. The first load writes this document, and one without a
written form leaves the path as it is. -/
theorem load_load (format : Format) (path : Entry) (hundo : IsUndone (complete (path.document format)).2 format) :
    load (load path format).2 format = load path format ∧
      (format.write? (complete (path.document format)).2 = none → (load path format).2 = path) ∧
      ∀ text, format.write? (complete (path.document format)).2 = some text →
        (load path format).2 = path.write (bytes text) := by
  refine ⟨?_, ?_, ?_⟩
  · cases hwritten : format.write? (complete (path.document format)).2 with
    | none => rw [load_of_unwritten hwritten, load_of_unwritten hwritten]
    | some text =>
      rw [load_of_written hwritten]
      rcases path.document_write format (bytes text) with hsame | hdocument
      · rw [hsame, load_of_written hwritten, hsame]
      · rw [document?_bytes, hundo text hwritten, Option.getD_some] at hdocument
        have hcomplete : complete ((path.write (bytes text)).document format) = complete (path.document format) := by
          rw [hdocument, complete_complete]
        have hwritten' : format.write? (complete ((path.write (bytes text)).document format)).2 = some text := by
          rw [hcomplete, hwritten]
        rw [load_of_written hwritten', hcomplete, Entry.write_write]
  · intro hunwritten
    rw [load_of_unwritten hunwritten]
  · intro text hwritten
    rw [load_of_written hwritten]

theorem zonesTable_load_load :
    IsUndone (complete (Entry.file (bytes "[zones]\nsides = 6\n")).document).2 ∧
      load (load (.file (bytes "[zones]\nsides = 6\n"))).2 = load (.file (bytes "[zones]\nsides = 6\n")) ∧
      (load (.file (bytes "[zones]\nsides = 6\n"))).2 =
        .file (bytes ("max_depth = 64\nmax_dice = 10000\nrng_reseed_s = 300\nrng_workers = 4\n" ++
          "roll_timeout_ms = 2000\n\n[zones]\nsides = 6\n")) := by
  have hdocument : (Entry.file (bytes "[zones]\nsides = 6\n")).document = singleTable "zones" := by
    refine document_file ?_
    rw [document?_bytes, Format.read?_lines]
    exact document?_of_document? (isPlain_singleTable "zones") rfl
  have hundo : IsUndone (complete (Entry.file (bytes "[zones]\nsides = 6\n")).document).2 := by
    rw [hdocument]
    exact isUndone_of_isPlain (isPlain_complete (isPlain_singleTable "zones"))
  obtain ⟨hload, -, hwrite⟩ := load_load .lines _ hundo
  refine ⟨hundo, hload, hwrite _ ?_⟩
  rw [hdocument, Format.write?_lines]
  rfl

end DiceNotation.Settings
