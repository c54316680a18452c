import DiceNotation.Proofs.Toml.Documents

/-!
# Which documents are written

No value is read that could not be written (`readsWritable`), so all that a read document holds has a written form
(`isWritable_of_document?`). **Such a document is written as a whole exactly if its values come before its tables**
(`exists_document?_iff`).
-/

namespace DiceNotation.Toml

open Reader Writer

/-! ## Values -/

/-- The value has a written form. -/
def Value.IsWritable (v : Value) : Prop :=
  ∃ s, Writer.value? v = some s

theorem isWritable_of_word? {word : List Char} {v : Value} (h : word? word = some v) : v.IsWritable := by
  unfold word? at h
  split at h
  · cases h
    exact ⟨_, rfl⟩
  · split at h
    · cases h
      exact ⟨_, rfl⟩
    · obtain ⟨n, -, rfl⟩ := Option.map_eq_some_iff.1 h
      exact ⟨_, rfl⟩

/-- The values that are read with some fuel have written forms. -/
def ReadsWritable (fuel : Nat) : Prop :=
  ∀ {cs rest v}, valueWithin? fuel cs = some (some v, rest) → v.IsWritable

/-- The arrays that are read with some fuel have written forms. -/
def ReadsWritableItems (fuel : Nat) : Prop :=
  ∀ {cs rest vs}, itemsWithin? fuel cs = some (some vs, rest) → ∃ texts, Writer.values? vs = some texts

theorem readsWritable_succ {fuel : Nat} (hitems : ReadsWritableItems fuel) : ReadsWritable (fuel + 1) := by
  intro cs rest v h
  unfold valueWithin? at h
  split at h
  · cases h
  · obtain ⟨read, -, h⟩ := Option.bind_eq_some_iff.1 h
    cases h
    exact ⟨_, rfl⟩
  · obtain ⟨read, -, h⟩ := Option.bind_eq_some_iff.1 h
    cases h
    exact ⟨_, rfl⟩
  · next heq =>
    obtain rfl := Nat.succ.inj heq
    obtain ⟨⟨items, rest'⟩, hread, h⟩ := Option.bind_eq_some_iff.1 h
    obtain ⟨vs, rfl, rfl⟩ := Option.map_eq_some_iff.1 (congrArg Prod.fst (Option.some.inj h))
    obtain ⟨texts, htexts⟩ := hitems hread
    exact ⟨_, by rw [Writer.value?, htexts]; rfl⟩
  · obtain ⟨n, -, h⟩ := Option.bind_eq_some_iff.1 h
    cases h
    exact ⟨_, rfl⟩
  · dsimp only at h
    split at h
    · obtain ⟨rest', -, h⟩ := Option.bind_eq_some_iff.1 h
      obtain ⟨d, -, rfl⟩ := Option.map_eq_some_iff.1 (congrArg Prod.fst (Option.some.inj h))
      exact ⟨_, rfl⟩
    · obtain ⟨v', hword, h⟩ := Option.bind_eq_some_iff.1 h
      cases h
      exact isWritable_of_word? hword

theorem readsWritableItems_succ {fuel : Nat} (hvalue : ReadsWritable fuel) (hitems : ReadsWritableItems fuel) :
    ReadsWritableItems (fuel + 1) := by
  intro cs rest vs h
  unfold itemsWithin? at h
  split at h
  · cases h
  · cases h
    exact ⟨_, rfl⟩
  · next heq _ =>
    obtain rfl := Nat.succ.inj heq
    obtain ⟨⟨v, rest'⟩, hread, h⟩ := Option.bind_eq_some_iff.1 h
    dsimp only at h
    split at h
    · obtain ⟨⟨vs', rest''⟩, hread', h⟩ := Option.bind_eq_some_iff.1 h
      have h := congrArg Prod.fst (Option.some.inj h)
      obtain ⟨v, rfl, h⟩ := Option.bind_eq_some_iff.1 h
      obtain ⟨vs', rfl, h⟩ := Option.bind_eq_some_iff.1 h
      cases h
      obtain ⟨text, htext⟩ := hvalue hread
      obtain ⟨texts, htexts⟩ := hitems hread'
      exact ⟨text :: texts, by rw [Writer.values?, htext, htexts]; rfl⟩
    · obtain ⟨v, rfl, rfl⟩ := Option.map_eq_some_iff.1 (congrArg Prod.fst (Option.some.inj h))
      obtain ⟨text, htext⟩ := hvalue hread
      exact ⟨[text], by rw [Writer.values?, htext]; rfl⟩
    · cases h

theorem readsWritable (fuel : Nat) : ReadsWritable fuel ∧ ReadsWritableItems fuel := by
  induction fuel with
  | zero =>
    constructor
    · intro cs rest v h
      cases h
    · intro cs rest vs h
      cases h
  | succ fuel ih => exact ⟨readsWritable_succ ih.2, readsWritableItems_succ ih.1 ih.2⟩

theorem isWritable_of_value? {cs rest : List Char} {v : Value} (h : Reader.value? cs = some (some v, rest)) :
    v.IsWritable :=
  (readsWritable _).1 h

/-! ## Documents -/

def Item.IsWritable : Item → Prop
  | .value v => v.IsWritable
  | .table t => ∀ e ∈ t.entries, e.2.IsWritable

/-- All that the document holds has a written form. -/
def IsWritable (d : Document) : Prop :=
  ∀ e ∈ d.entries, e.2.IsWritable

theorem IsWritable.insert {d : Document} (hd : IsWritable d) (name : String) {item : Item} (hitem : item.IsWritable) :
    IsWritable (d.insert name item) := by
  intro e he
  rcases Table.mem_insertEntry he with rfl | he
  · exact hitem
  · exact hd e he

def Reader.Line.IsWritable : Line → Prop
  | .entry _ (some v) => v.IsWritable
  | _ => True

theorem isWritable_of_line? {cs : List Char} {l : Line} (h : line? cs = some l) : l.IsWritable := by
  unfold line? at h
  split at h
  · cases h
    trivial
  · split at h <;> cases h
    trivial
  · obtain ⟨⟨name, rest⟩, -, h⟩ := Option.bind_eq_some_iff.1 h
    dsimp only at h
    split at h
    · split at h <;> cases h
      trivial
    · cases h
  · obtain ⟨⟨name, rest⟩, -, h⟩ := Option.bind_eq_some_iff.1 h
    dsimp only at h
    split at h
    · obtain ⟨⟨v, rest'⟩, hread, h⟩ := Option.bind_eq_some_iff.1 h
      dsimp only at h
      split at h
      · obtain rfl := Option.some.inj h
        cases v with
        | none => trivial
        | some v => exact isWritable_of_value? hread
      · cases h
    · cases h

theorem isWritable_of_added {t : Table Value} {key : String} {v : Value} {item : Item}
    (h : addEntry? t key v = some item) (ht : (Item.table t).IsWritable) (hv : v.IsWritable) : item.IsWritable := by
  unfold addEntry? at h
  split at h
  · split at h
    · obtain ⟨d, -, rfl⟩ := Option.map_eq_some_iff.1 h
      exact ⟨_, rfl⟩
    · cases h
  · split at h
    · cases h
    · obtain rfl := Option.some.inj h
      intro e he
      rcases Table.mem_insertEntry he with rfl | he
      · exact hv
      · exact ht e he

theorem isWritable_of_add? {s s' : State} {l : Line} (h : s.add? l = some s') (hs : IsWritable s.document)
    (hl : l.IsWritable) : IsWritable s'.document := by
  cases add?_eq_some_iff.1 h with
  | blank => exact hs
  | @header name _ _ =>
    have hempty : (Item.table .empty).IsWritable := by rintro _ ⟨⟩
    exact hs.insert name hempty
  | @value key v _ => exact hs.insert key hl
  | @entry key name v t item _ ht hitem =>
    have htable : (Item.table t).IsWritable := hs _ (Table.mem_entries_iff.2 ht)
    exact hs.insert name (isWritable_of_added hitem htable hl)
  | ignored => exact hs

theorem isWritable_of_foldlM {ls : List Line} {s s' : State} (h : ls.foldlM State.add? s = some s')
    (hs : IsWritable s.document) (hls : ∀ l ∈ ls, l.IsWritable) : IsWritable s'.document := by
  induction ls generalizing s with
  | nil =>
    obtain rfl := Option.some.inj h
    exact hs
  | cons l ls ih =>
    obtain ⟨hl, hls⟩ := List.forall_mem_cons.1 hls
    rw [List.foldlM_cons] at h
    obtain ⟨s₁, hadd, h⟩ := Option.bind_eq_some_iff.1 h
    exact ih h (isWritable_of_add? hadd hs hl) hls

theorem isWritable_of_mapM {css : List (List Char)} {ls : List Line} (h : css.mapM line? = some ls) :
    ∀ l ∈ ls, l.IsWritable := by
  induction css generalizing ls with
  | nil =>
    obtain rfl : [] = ls := Option.some.inj h
    rintro _ ⟨⟩
  | cons cs css ih =>
    rw [List.mapM_cons] at h
    obtain ⟨l, hl, h⟩ := Option.bind_eq_some_iff.1 h
    obtain ⟨ls, hls, h⟩ := Option.bind_eq_some_iff.1 h
    obtain rfl := Option.some.inj h
    exact List.forall_mem_cons.2 ⟨isWritable_of_line? hl, ih hls⟩

theorem isWritable_of_document? {text : String} {d : Document} (h : Reader.document? text = some d) :
    IsWritable d := by
  obtain ⟨ls, hls, h⟩ := Option.bind_eq_some_iff.1 h
  obtain ⟨s, hs, h⟩ := Option.bind_eq_some_iff.1 h
  obtain rfl := Option.some.inj h
  refine isWritable_of_foldlM hs ?_ (isWritable_of_mapM hls)
  rintro _ ⟨⟩

/-! ## The order of items -/

/-- The values come before all tables, including one that is open already. -/
def ValuesFirst (inTable : Bool) (es : List (String × Item)) : Prop :=
  ∀ key v, (key, .value v) ∈ es → inTable = false ∧ ∀ name t, (name, .table t) ∈ es → key < name

section Items

variable {es : List (String × Item)} {name : String} {first inTable : Bool}

theorem valuesFirst_value (hlt : ∀ e ∈ es, name < e.1) (v : Value) :
    ValuesFirst inTable ((name, .value v) :: es) ↔ inTable = false ∧ ValuesFirst false es := by
  constructor
  · intro h
    refine ⟨(h name v List.mem_cons_self).1, fun key v' hkey => ⟨rfl, fun name' t ht => ?_⟩⟩
    exact (h key v' (List.mem_cons_of_mem _ hkey)).2 name' t (List.mem_cons_of_mem _ ht)
  · rintro ⟨hclosed, h⟩ key v' hkey
    refine ⟨hclosed, fun name' t ht => ?_⟩
    rcases List.mem_cons.1 ht with ht | ht
    · cases ht
    · rcases List.mem_cons.1 hkey with hkey | hkey
      · cases hkey
        exact hlt _ ht
      · exact (h key v' hkey).2 name' t ht

theorem valuesFirst_table (hlt : ∀ e ∈ es, name < e.1) (t : Table Value) :
    ValuesFirst inTable ((name, .table t) :: es) ↔ ValuesFirst true es := by
  constructor
  · intro h key v hkey
    have hbefore := (h key v (List.mem_cons_of_mem _ hkey)).2 name t List.mem_cons_self
    exact absurd hbefore (String.lt_asymm (hlt _ hkey))
  · intro h key v hkey
    rcases List.mem_cons.1 hkey with hkey | hkey
    · cases hkey
    · cases (h key v hkey).1

theorem exists_line {v : Value} (hv : v.IsWritable) (name : String) : ∃ line, entry? name v = some line := by
  obtain ⟨s, hs⟩ := hv
  refine ⟨key name ++ " = " ++ s ++ "\n", ?_⟩
  unfold entry?
  rw [hs]
  rfl

theorem exists_items?_value {v : Value} (hv : v.IsWritable) :
    (∃ text, items? first inTable ((name, .value v) :: es) = some text) ↔
      inTable = false ∧ ∃ text, items? false false es = some text := by
  obtain ⟨line, hline⟩ := exists_line hv name
  cases inTable with
  | true => simp [items?]
  | false =>
    simp only [items?, hline]
    cases items? false false es <;> simp

theorem exists_entries {entries : List (String × Value)} (h : ∀ e ∈ entries, e.2.IsWritable) :
    ∃ texts, entries.mapM (fun (k, v) => entry? k v) = some texts := by
  induction entries with
  | nil => exact ⟨[], rfl⟩
  | cons e entries ih =>
    obtain ⟨name, v⟩ := e
    obtain ⟨hv, hentries⟩ := List.forall_mem_cons.1 h
    obtain ⟨line, hline⟩ := exists_line hv name
    obtain ⟨texts, htexts⟩ := ih hentries
    refine ⟨line :: texts, ?_⟩
    rw [List.mapM_cons, htexts]
    dsimp only
    rw [hline]
    rfl

theorem exists_items?_table {t : Table Value} (ht : (Item.table t).IsWritable) :
    (∃ text, items? first inTable ((name, .table t) :: es) = some text) ↔
      ∃ text, items? false true es = some text := by
  obtain ⟨texts, htexts⟩ := exists_entries ht
  simp only [items?, table?, htexts]
  cases items? false true es <;> simp

theorem exists_items?_iff (hsorted : es.Pairwise (·.1 < ·.1)) (hwritable : ∀ e ∈ es, e.2.IsWritable) :
    (∃ text, items? first inTable es = some text) ↔ ValuesFirst inTable es := by
  induction es generalizing first inTable with
  | nil =>
    constructor
    · rintro - key v ⟨⟩
    · intro _
      exact ⟨_, rfl⟩
  | cons e es ih =>
    obtain ⟨hlt, hes⟩ := List.pairwise_cons.1 hsorted
    obtain ⟨hitem, hitems⟩ := List.forall_mem_cons.1 hwritable
    obtain ⟨name, v | t⟩ := e
    · rw [exists_items?_value hitem, ih hes hitems, valuesFirst_value hlt]
    · rw [exists_items?_table hitem, ih hes hitems, valuesFirst_table hlt]

end Items

/-- The keys of all values come before the names of all tables. -/
def IsOrdered (d : Document) : Prop :=
  ∀ key v name t, d.get? key = some (.value v) → d.get? name = some (.table t) → key < name

/-- **A document is written exactly if its values come before its tables.** -/
theorem exists_document?_iff {d : Document} (hd : IsWritable d) :
    (∃ text, Writer.document? d = some text) ↔ IsOrdered d := by
  rw [show Writer.document? d = items? true false d.entries from rfl, exists_items?_iff d.ascending hd]
  constructor
  · intro h key v name t hv ht
    exact (h key v (Table.mem_entries_iff.2 hv)).2 name t (Table.mem_entries_iff.2 ht)
  · intro h key v hv
    exact ⟨rfl, fun name t ht => h key v name t (Table.mem_entries_iff.1 hv) (Table.mem_entries_iff.1 ht)⟩

end DiceNotation.Toml
