import DiceNotation.Proofs.Toml.Additions
import DiceNotation.Proofs.Toml.Lines

/-!
# Written documents

A document is written as the lines `itemLines`, each of which is read again (`written_items`). Reading them adds the
items one behind the other (`Holds`): a value or a header comes after all keys so far, and an entry goes to the table
that was opened last.

**A written document is read as it was** (`document?_of_document?`), unless a table in it begins with the key that makes
a date or time of its table.
-/

namespace DiceNotation.Toml

open Reader Writer

/-! ## Entries in order -/

namespace Table

variable {α : Type} {key : String} {entries : List (String × α)}

theorem ext {t t' : Table α} (h : t.entries = t'.entries) : t = t' := by
  cases t
  cases t'
  cases h
  rfl

theorem insertEntry_append (h : ∀ e ∈ entries, e.1 < key) (a : α) (more : List (String × α)) :
    insertEntry key a (entries ++ more) = entries ++ insertEntry key a more := by
  induction entries with
  | nil => rfl
  | cons e entries ih =>
    obtain ⟨he, hentries⟩ := List.forall_mem_cons.1 h
    have hne : key ≠ e.1 := fun heq => String.lt_irrefl _ (heq ▸ he)
    rw [List.cons_append, insertEntry, if_neg (String.lt_asymm he), if_neg hne, ih hentries, List.cons_append]

theorem lookup_append (h : ∀ e ∈ entries, e.1 < key) (more : List (String × α)) :
    (entries ++ more).lookup key = more.lookup key := by
  induction entries with
  | nil => rfl
  | cons e entries ih =>
    obtain ⟨he, hentries⟩ := List.forall_mem_cons.1 h
    have hne : key ≠ e.1 := fun heq => String.lt_irrefl _ (heq ▸ he)
    rw [List.cons_append, List.lookup_cons, beq_false_of_ne hne, ih hentries]

theorem mem_entries_iff {t : Table α} {a : α} : (key, a) ∈ t.entries ↔ t.get? key = some a := by
  constructor
  · intro h
    obtain ⟨before, after, hentries⟩ := List.append_of_mem h
    have hsorted := t.ascending
    rw [hentries] at hsorted
    have hlt : ∀ e ∈ before, e.1 < key := fun e he => (List.pairwise_append.1 hsorted).2.2 e he _ List.mem_cons_self
    rw [get?, hentries, lookup_append hlt, List.lookup_cons_self]
  · intro h
    obtain ⟨before, after, hentries, -⟩ := List.lookup_eq_some_iff.1 h
    rw [hentries]
    exact List.mem_append_right _ List.mem_cons_self

end Table

/-! ## The lines of a document -/

def entryLine (e : String × Value) : Line :=
  .entry e.1 (some e.2)

def itemLines (first : Bool) : List (String × Item) → List Line
  | [] => []
  | (name, .value v) :: rest => entryLine (name, v) :: itemLines false rest
  | (name, .table t) :: rest =>
    (if first then [] else [.blank]) ++ (.header name :: t.entries.map entryLine) ++ itemLines false rest

theorem written_entry {name text : String} {v : Value} (h : entry? name v = some text) :
    Written text.toList [entryLine (name, v)] := by
  obtain ⟨s, hs, htext⟩ := Option.bind_eq_some_iff.1 h
  obtain rfl := Option.some.inj htext
  have := Written.single (readsLine_entry name hs)
  simpa [entryLine] using this

theorem written_entries {entries : List (String × Value)} {texts : List String}
    (h : entries.mapM (fun (k, v) => entry? k v) = some texts) :
    Written (String.join texts).toList (entries.map entryLine) := by
  induction entries generalizing texts with
  | nil =>
    obtain rfl : [] = texts := Option.some.inj h
    exact .nil
  | cons e entries ih =>
    rw [List.mapM_cons] at h
    obtain ⟨text, htext, h⟩ := Option.bind_eq_some_iff.1 h
    obtain ⟨texts, htexts, h⟩ := Option.bind_eq_some_iff.1 h
    obtain rfl := Option.some.inj h
    have := (written_entry htext).append (ih htexts)
    simpa using this

theorem written_table {name text : String} {t : Table Value} (h : table? name t = some text) :
    Written text.toList (.header name :: t.entries.map entryLine) := by
  obtain ⟨texts, htexts, htext⟩ := Option.bind_eq_some_iff.1 h
  obtain rfl := Option.some.inj htext
  have := (Written.single (readsLine_header name)).append (written_entries htexts)
  simpa using this

theorem written_items {es : List (String × Item)} {first inTable : Bool} {text : String}
    (h : items? first inTable es = some text) : Written text.toList (itemLines first es) := by
  induction es generalizing first inTable text with
  | nil =>
    obtain rfl := Option.some.inj h
    exact .nil
  | cons e es ih =>
    obtain ⟨name, v | t⟩ := e
    · rw [items?] at h
      split at h
      · cases h
      · obtain ⟨line, hline, h⟩ := Option.bind_eq_some_iff.1 h
        obtain ⟨rest, hrest, h⟩ := Option.bind_eq_some_iff.1 h
        obtain rfl := Option.some.inj h
        have := (written_entry hline).append (ih hrest)
        simpa [itemLines] using this
    · rw [items?] at h
      obtain ⟨table, htable, h⟩ := Option.bind_eq_some_iff.1 h
      obtain ⟨rest, hrest, h⟩ := Option.bind_eq_some_iff.1 h
      obtain rfl := Option.some.inj h
      have hwritten := (written_table htable).append (ih hrest)
      cases first with
      | true => simpa [itemLines] using hwritten
      | false =>
        have := (Written.single readsLine_blank).append hwritten
        simpa [itemLines] using this

/-! ## Reading the lines -/

/-- The lines so far define the items `es`. -/
structure Holds (es : List (String × Item)) (s : State) : Prop where
  entries : s.document.entries = es
  opening : ∀ name ∈ s.opening, ∃ e ∈ es, e.1 = name

namespace Holds

variable {es : List (String × Item)} {s : State} {name : String}

theorem get?_eq_none (h : Holds es s) (hname : ∀ e ∈ es, e.1 < name) : s.document.get? name = none := by
  have := Table.lookup_append hname []
  rwa [List.append_nil, ← h.entries] at this

/-- A new key comes last. -/
theorem entries_insert (h : Holds es s) (hname : ∀ e ∈ es, e.1 < name) (item : Item) :
    (s.document.insert name item).entries = es ++ [(name, item)] := by
  have hinsert := Table.insertEntry_append hname item []
  rw [List.append_nil, ← h.entries] at hinsert
  rw [← h.entries]
  exact hinsert

/-- The last item is replaced by another one. -/
theorem entries_replace {item : Item} (h : Holds (es ++ [(name, item)]) s) (hname : ∀ e ∈ es, e.1 < name)
    (item' : Item) : (s.document.insert name item').entries = es ++ [(name, item')] := by
  have hinsert := Table.insertEntry_append hname item' [(name, item)]
  rw [← h.entries, Table.insertEntry, if_neg (String.lt_irrefl name), if_pos rfl] at hinsert
  exact hinsert

theorem get?_last {item : Item} (h : Holds (es ++ [(name, item)]) s) (hname : ∀ e ∈ es, e.1 < name) :
    s.document.get? name = some item := by
  rw [Table.get?, h.entries, Table.lookup_append hname, List.lookup_cons_self]

theorem add_value (h : Holds es s) (htable : s.table = none) (hname : ∀ e ∈ es, e.1 < name) (v : Value) :
    ∃ s', s.add? (entryLine (name, v)) = some s' ∧ Holds (es ++ [(name, .value v)]) s' ∧ s'.table = none := by
  refine ⟨_, (Adds.value htable).add?, ⟨h.entries_insert hname _, ?_⟩, htable⟩
  intro name' hname'
  obtain ⟨e, he, heq⟩ := h.opening name' hname'
  exact ⟨e, List.mem_append_left _ he, heq⟩

theorem add_header (h : Holds es s) (hname : ∀ e ∈ es, e.1 < name) :
    ∃ s', s.add? (.header name) = some s' ∧ Holds (es ++ [(name, .table .empty)]) s' ∧ s'.table = some name := by
  have hopening : s.opening ≠ some name := by
    intro heq
    obtain ⟨e, he, hlt⟩ := h.opening name heq
    exact String.lt_irrefl _ (hlt ▸ hname e he)
  have hfree : ∀ t, s.document.get? name ≠ some (.table t) := by
    intro t ht
    rw [h.get?_eq_none hname] at ht
    cases ht
  refine ⟨_, (Adds.header hfree hopening).add?, ⟨h.entries_insert hname _, ?_⟩, rfl⟩
  intro name' hname'
  dsimp only at hname'
  split at hname'
  · obtain rfl := Option.some.inj hname'
    exact ⟨_, List.mem_append_right _ List.mem_cons_self, rfl⟩
  · obtain ⟨e, he, heq⟩ := h.opening name' hname'
    exact ⟨e, List.mem_append_left _ he, heq⟩

/-- An entry goes to the open table, behind those that are there. -/
theorem add_entry {t : Table Value} (h : Holds (es ++ [(name, .table t)]) s) (htable : s.table = some name)
    (hname : ∀ e ∈ es, e.1 < name) {k : String} (v : Value) (hk : ∀ e ∈ t.entries, e.1 < k)
    (hplain : t.entries = [] → k ≠ dateTimeKey) :
    ∃ s', s.add? (entryLine (k, v)) = some s' ∧ Holds (es ++ [(name, .table (t.insert k v))]) s' ∧
      s'.table = some name := by
  have hnew : t.get? k = none := by
    have := Table.lookup_append hk []
    rwa [List.append_nil] at this
  have hentry : addEntry? t k v = some (.table (t.insert k v)) := by
    unfold addEntry?
    rw [if_neg (by simpa using hplain), hnew]
  refine ⟨_, (Adds.entry htable (h.get?_last hname) hentry).add?, ⟨h.entries_replace hname _, ?_⟩, htable⟩
  intro name' hname'
  obtain ⟨e, he, heq⟩ := h.opening name' hname'
  rcases List.mem_append.1 he with he | he
  · exact ⟨e, List.mem_append_left _ he, heq⟩
  · obtain rfl := List.mem_singleton.1 he
    exact ⟨_, List.mem_append_right _ List.mem_cons_self, heq⟩

end Holds

/-- The table does not begin like one that stands for a date or time. -/
def IsPlainTable (t : Table Value) : Prop :=
  ∀ e ∈ t.entries.head?, e.1 ≠ dateTimeKey

theorem Holds.add_entries {es : List (String × Item)} {name : String} (hname : ∀ e ∈ es, e.1 < name)
    {t' : Table Value} (hplain : IsPlainTable t') {more : List (String × Value)} {t : Table Value} {s : State}
    (ht' : t'.entries = t.entries ++ more) (h : Holds (es ++ [(name, .table t)]) s) (htable : s.table = some name) :
    ∃ s', (more.map entryLine).foldlM State.add? s = some s' ∧ Holds (es ++ [(name, .table t')]) s' ∧
      s'.table = some name := by
  induction more generalizing t s with
  | nil =>
    rw [List.append_nil] at ht'
    obtain rfl := Table.ext ht'
    exact ⟨s, rfl, h, htable⟩
  | cons e more ih =>
    obtain ⟨k, v⟩ := e
    have hk : ∀ e ∈ t.entries, e.1 < k := by
      have hsorted := t'.ascending
      rw [ht'] at hsorted
      exact fun e he => (List.pairwise_append.1 hsorted).2.2 e he _ List.mem_cons_self
    have hfirst : t.entries = [] → k ≠ dateTimeKey := by
      intro hnil
      rw [hnil] at ht'
      exact hplain (k, v) (by rw [ht']; rfl)
    obtain ⟨s', hadd, h', htable'⟩ := h.add_entry htable hname v hk hfirst
    have hinsert : (t.insert k v).entries = t.entries ++ [(k, v)] := by
      have := Table.insertEntry_append hk v []
      rwa [List.append_nil] at this
    obtain ⟨s'', hrun, h'', htable''⟩ := ih (by rw [ht', hinsert, List.append_assoc]; rfl) h' htable'
    refine ⟨s'', ?_, h'', htable''⟩
    rw [List.map_cons, List.foldlM_cons, hadd]
    exact hrun

theorem Holds.add_table {es : List (String × Item)} {s : State} {name : String} {t : Table Value} (h : Holds es s)
    (hname : ∀ e ∈ es, e.1 < name) (hplain : IsPlainTable t) :
    ∃ s', (Line.header name :: t.entries.map entryLine).foldlM State.add? s = some s' ∧
      Holds (es ++ [(name, .table t)]) s' := by
  obtain ⟨s₁, hadd, h₁, htable₁⟩ := h.add_header hname
  obtain ⟨s₂, hrun, h₂, -⟩ := h₁.add_entries hname hplain (List.nil_append _).symm htable₁
  refine ⟨s₂, ?_, h₂⟩
  rw [List.foldlM_cons, hadd]
  exact hrun

/-- No table of the document begins like one that stands for a date or time. -/
def IsPlain (d : Document) : Prop :=
  ∀ name t, d.get? name = some (.table t) → IsPlainTable t

/-- The last table stays open, so `items?` stops at a value behind it. -/
theorem Holds.add_items {more es : List (String × Item)} {s : State} {first inTable : Bool} {text : String}
    (hsorted : (es ++ more).Pairwise (·.1 < ·.1)) (hplain : ∀ name t, (name, .table t) ∈ more → IsPlainTable t)
    (hwritten : items? first inTable more = some text) (h : Holds es s) (htable : inTable = false → s.table = none) :
    ∃ s', (itemLines first more).foldlM State.add? s = some s' ∧ s'.document.entries = es ++ more := by
  induction more generalizing es s first inTable text with
  | nil => exact ⟨s, rfl, by rw [h.entries, List.append_nil]⟩
  | cons e more ih =>
    have hname : ∀ e' ∈ es, e'.1 < e.1 := fun e' he' => (List.pairwise_append.1 hsorted).2.2 e' he' _ List.mem_cons_self
    have hsorted' : (es ++ [e] ++ more).Pairwise (·.1 < ·.1) := by rwa [List.append_assoc, List.singleton_append]
    have hplain' : ∀ name t, (name, .table t) ∈ more → IsPlainTable t :=
      fun name t ht => hplain name t (List.mem_cons_of_mem _ ht)
    obtain ⟨name, v | t⟩ := e
    · rw [items?] at hwritten
      split at hwritten
      · cases hwritten
      · next hclosed =>
        obtain ⟨line, -, hwritten⟩ := Option.bind_eq_some_iff.1 hwritten
        obtain ⟨rest, hrest, -⟩ := Option.bind_eq_some_iff.1 hwritten
        obtain ⟨s', hadd, h', htable'⟩ := h.add_value (htable (by simpa using hclosed)) hname v
        obtain ⟨s'', hrun, hentries⟩ := ih hsorted' hplain' hrest h' (fun _ => htable')
        refine ⟨s'', ?_, by rw [hentries, List.append_assoc]; rfl⟩
        rw [itemLines, List.foldlM_cons, hadd]
        exact hrun
    · rw [items?] at hwritten
      obtain ⟨table, -, hwritten⟩ := Option.bind_eq_some_iff.1 hwritten
      obtain ⟨rest, hrest, -⟩ := Option.bind_eq_some_iff.1 hwritten
      obtain ⟨s', hrun, h'⟩ := h.add_table hname (hplain name t List.mem_cons_self)
      obtain ⟨s'', hrest', hentries⟩ := ih hsorted' hplain' hrest h' (fun hclosed => by cases hclosed)
      refine ⟨s'', ?_, by rw [hentries, List.append_assoc]; rfl⟩
      have hblank : (if first then [] else [Line.blank]).foldlM State.add? s = some s := by
        cases first <;> rfl
      have htable : ((if first then [] else [Line.blank]) ++
          (Line.header name :: t.entries.map entryLine)).foldlM State.add? s = some s' := by
        rw [List.foldlM_append, hblank]
        exact hrun
      rw [itemLines, List.foldlM_append, htable]
      exact hrest'

/-- The empty line behind the last line adds nothing. -/
theorem document?_of_written {text : String} {ls : List Line} (h : Written text.toList ls) :
    Reader.document? text = (ls.foldlM State.add? ({} : State)).map State.document := by
  have hblank : (ls ++ [Line.blank]).foldlM State.add? ({} : State) = ls.foldlM State.add? {} := by
    rw [List.foldlM_append]
    cases ls.foldlM State.add? ({} : State) <;> rfl
  unfold Reader.document?
  dsimp only
  split
  · next heq =>
    refine absurd ?_ h.unmarked
    rw [heq]
    rfl
  · rw [h.read]
    show ((ls ++ [Line.blank]).foldlM State.add? ({} : State) >>= fun s => _) = _
    rw [hblank]
    cases ls.foldlM State.add? ({} : State) <;> rfl

/-- **What is written is read.** -/
theorem document?_of_document? {d : Document} {text : String} (hplain : IsPlain d)
    (h : Writer.document? d = some text) : Reader.document? text = some d := by
  have hstart : Holds [] ({} : State) := ⟨rfl, by simp⟩
  obtain ⟨s, hrun, hentries⟩ := hstart.add_items (by simpa using d.ascending)
    (fun name t ht => hplain name t (Table.mem_entries_iff.1 ht)) h (fun _ => rfl)
  have hdocument : s.document = d := Table.ext hentries
  rw [document?_of_written (written_items h), hrun, Option.map_some, hdocument]

end DiceNotation.Toml
