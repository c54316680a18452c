import DiceNotation.Proofs.Toml.Documents

/-!
# Tables that stand for dates and times

The key `dateTimeKey` at the beginning of a table makes a date or time of it, and this stays so through all lines up to
another header of the same name (`StaysValue`). A table whose entries begin with this key in their written order is
therefore not read as it was: **of the written documents, those without such a table are read as they were**
(`document?_eq_some_iff`).
-/

namespace DiceNotation.Toml

open Reader Writer

/-! ## Names of values -/

/-- The name of a value is no name of a table that entries could go to. -/
structure StaysValue (name : String) (s : State) : Prop where
  isValue : ∃ v, s.document.get? name = some (.value v)
  inTable : s.table ≠ none

theorem StaysValue.add {name : String} {s s' : State} {l : Line} (h : StaysValue name s) (hadd : s.add? l = some s')
    (hl : l ≠ .header name) : StaysValue name s' := by
  obtain ⟨⟨v, hv⟩, htable⟩ := h
  cases add?_eq_some_iff.1 hadd with
  | blank => exact ⟨⟨v, hv⟩, htable⟩
  | @header name' _ _ =>
    have hname : name ≠ name' := by
      rintro rfl
      exact hl rfl
    exact ⟨⟨v, (Table.get?_insert_of_ne _ _ hname).trans hv⟩, Option.some_ne_none _⟩
  | value hclosed => exact absurd hclosed htable
  | @entry key name' v' t item _ ht _ =>
    have hname : name ≠ name' := by
      rintro rfl
      rw [hv] at ht
      cases ht
    exact ⟨⟨v, (Table.get?_insert_of_ne _ _ hname).trans hv⟩, htable⟩
  | ignored => exact ⟨⟨v, hv⟩, htable⟩

theorem StaysValue.run {name : String} {ls : List Line} {s s' : State} (h : StaysValue name s)
    (hrun : ls.foldlM State.add? s = some s') (hls : Line.header name ∉ ls) : StaysValue name s' := by
  induction ls generalizing s with
  | nil =>
    obtain rfl := Option.some.inj hrun
    exact h
  | cons l ls ih =>
    simp only [List.mem_cons, not_or] at hls
    rw [List.foldlM_cons] at hrun
    obtain ⟨s₁, hadd, hrun⟩ := Option.bind_eq_some_iff.1 hrun
    exact ih (h.add hadd (Ne.symm hls.1)) hrun hls.2

/-- The first entry makes a date or time of a table that was just opened, or is an error. -/
theorem staysValue_of_header {name : String} {s s' : State} {v : Value}
    (h : [Line.header name, entryLine (dateTimeKey, v)].foldlM State.add? s = some s') : StaysValue name s' := by
  obtain ⟨s₁, hheader, h⟩ := Option.bind_eq_some_iff.1 h
  obtain ⟨s₂, hentry, h⟩ := Option.bind_eq_some_iff.1 h
  obtain rfl := Option.some.inj h
  have hopened : s₁.document.get? name = some (.table .empty) ∧ s₁.table = some name := by
    cases add?_eq_some_iff.1 hheader with
    | header => exact ⟨Table.get?_insert_self _ _ _, rfl⟩
  cases add?_eq_some_iff.1 hentry with
  | value hclosed =>
    rw [hopened.2] at hclosed
    cases hclosed
  | ignored htable hfree =>
    obtain rfl := Option.some.inj (hopened.2.symm.trans htable)
    exact absurd hopened.1 (hfree _)
  | @entry _ _ _ t item htable ht hitem =>
    obtain rfl := Option.some.inj (hopened.2.symm.trans htable)
    obtain rfl : Table.empty = t := by simpa [hopened.1] using ht
    have hvalue : ∃ v', item = .value v' := by
      cases v with
      | text text =>
        obtain ⟨d, -, rfl⟩ := Option.map_eq_some_iff.1 hitem
        exact ⟨_, rfl⟩
      | _ => cases hitem
    obtain ⟨v', rfl⟩ := hvalue
    exact ⟨⟨v', Table.get?_insert_self _ _ _⟩, by simp [htable]⟩

theorem exists_value_of_run {start rest : List Line} {name : String} {v : Value} {s s' : State}
    (hrun : (start ++ ([.header name, entryLine (dateTimeKey, v)] ++ rest)).foldlM State.add? s = some s')
    (hrest : Line.header name ∉ rest) : ∃ v', s'.document.get? name = some (.value v') := by
  rw [List.foldlM_append] at hrun
  obtain ⟨s₁, -, hrun⟩ := Option.bind_eq_some_iff.1 hrun
  rw [List.foldlM_append] at hrun
  obtain ⟨s₂, hopened, hrun⟩ := Option.bind_eq_some_iff.1 hrun
  exact ((staysValue_of_header hopened).run hrun hrest).isValue

/-! ## Written tables -/

theorem header_notMem_itemLines {es : List (String × Item)} {first : Bool} {name : String}
    (h : ∀ e ∈ es, e.1 ≠ name) : Line.header name ∉ itemLines first es := by
  induction es generalizing first with
  | nil => simp [itemLines]
  | cons e es ih =>
    obtain ⟨he, hes⟩ := List.forall_mem_cons.1 h
    obtain ⟨name', v | t⟩ := e
    · simp [itemLines, entryLine, ih hes]
    · cases first <;> simp [itemLines, entryLine, ih hes, Ne.symm he]

theorem itemLines_append (before after : List (String × Item)) (first : Bool) :
    itemLines first (before ++ after) = itemLines first before ++ itemLines (first && before.isEmpty) after := by
  induction before generalizing first with
  | nil => simp [itemLines]
  | cons e before ih =>
    obtain ⟨name, v | t⟩ := e <;> simp [itemLines, ih]

/-- A table that begins with the key is read as a value, if at all. -/
theorem isPlain_of_document? {d : Document} {text : String} (h : Writer.document? d = some text)
    (hread : Reader.document? text = some d) : IsPlain d := by
  rintro name t ht ⟨key, v⟩ he rfl
  obtain ⟨before, after, hentries⟩ := List.append_of_mem (Table.mem_entries_iff.2 ht)
  obtain ⟨more, hmore⟩ := List.head?_eq_some_iff.1 he
  have hlines : ∃ start, itemLines true d.entries =
      start ++ ([.header name, entryLine (dateTimeKey, v)] ++ (more.map entryLine ++ itemLines false after)) := by
    refine ⟨itemLines true before ++ if true && before.isEmpty then [] else [.blank], ?_⟩
    rw [hentries, itemLines_append, itemLines, hmore]
    simp only [List.map_cons, List.cons_append, List.nil_append, List.append_assoc]
  obtain ⟨start, hlines⟩ := hlines
  rw [document?_of_written (written_items h), hlines] at hread
  obtain ⟨s, hrun, rfl⟩ := Option.map_eq_some_iff.1 hread
  have hafter : ∀ e ∈ after, e.1 ≠ name := by
    have hsorted := s.document.ascending
    rw [hentries] at hsorted
    have hlt := (List.pairwise_cons.1 (List.pairwise_append.1 hsorted).2.1).1
    exact fun e he heq => String.lt_irrefl name (heq ▸ hlt e he)
  have hrest : Line.header name ∉ more.map entryLine ++ itemLines false after := by
    simp [entryLine, header_notMem_itemLines hafter]
  obtain ⟨v', hv'⟩ := exists_value_of_run hrun hrest
  rw [hv'] at ht
  cases ht

/-- **Of the written documents, those are read as they were in which no table stands for a date or time.** -/
theorem document?_eq_some_iff {d : Document} {text : String} (h : Writer.document? d = some text) :
    Reader.document? text = some d ↔ IsPlain d :=
  ⟨isPlain_of_document? h, fun hplain => document?_of_document? hplain h⟩

end DiceNotation.Toml
