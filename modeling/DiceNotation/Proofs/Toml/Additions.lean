import DiceNotation.Toml.Reader

/-!
# What a line adds

The reader takes one line after the other. A header opens an empty table, an entry outside of tables is a value of the
document, and an entry behind a header goes to the table that this has opened, unless it is no table any more (`Adds`).
**The reader goes on exactly if the line adds something in one of these ways** (`add?_eq_some_iff`).
-/

namespace DiceNotation.Toml

open Reader

/-- What a line makes of the state, unless it is an error. -/
inductive Adds (s : State) : Line → State → Prop
  | blank : Adds s .blank s
  | header {name : String} : (∀ t, s.document.get? name ≠ some (.table t)) → s.opening ≠ some name →
    Adds s (.header name)
      { document := s.document.insert name (.table .empty)
        table := some name
        opening := if s.document.entries.isEmpty then some name else s.opening }
  | value {key : String} {v : Value} : s.table = none →
    Adds s (.entry key (some v)) { s with document := s.document.insert key (.value v) }
  | entry {key name : String} {v : Value} {t : Table Value} {item : Item} : s.table = some name →
    s.document.get? name = some (.table t) → addEntry? t key v = some item →
    Adds s (.entry key (some v)) { s with document := s.document.insert name item }
  | ignored {key name : String} {v : Option Value} : s.table = some name →
    (∀ t, s.document.get? name ≠ some (.table t)) → Adds s (.entry key v) s

theorem adds_of_add? {s s' : State} {l : Line} (h : s.add? l = some s') : Adds s l s' := by
  cases l with
  | blank =>
    obtain rfl := Option.some.inj h
    exact .blank
  | header name =>
    simp only [State.add?, State.addHeader?] at h
    split at h
    · cases h
    · next hfree =>
      split at h
      · cases h
      · next hopening =>
        obtain rfl := Option.some.inj h
        exact .header hfree hopening
  | entry key v =>
    simp only [State.add?] at h
    split at h
    · next htable =>
      obtain ⟨v, rfl, rfl⟩ := Option.map_eq_some_iff.1 h
      exact .value htable
    · next name htable =>
      split at h
      · next t ht =>
        obtain ⟨v, rfl, h'⟩ := Option.bind_eq_some_iff.1 h
        obtain ⟨item, hitem, h'⟩ := Option.bind_eq_some_iff.1 h'
        obtain rfl := Option.some.inj h'
        exact .entry htable ht hitem
      · next hfree =>
        obtain rfl := Option.some.inj h
        exact .ignored htable hfree

theorem Adds.add? {s s' : State} {l : Line} (h : Adds s l s') : s.add? l = some s' := by
  cases h with
  | blank => rfl
  | @header name hfree hopening =>
    rw [State.add?, State.addHeader?]
    split
    · next t ht => exact absurd ht (hfree t)
    · exact if_neg hopening
  | value htable =>
    rw [State.add?, htable]
    rfl
  | entry htable ht hitem =>
    rw [State.add?, htable]
    dsimp only
    rw [ht]
    simp only [Option.bind_eq_bind, Option.bind_some, hitem]
    rfl
  | @ignored key name v htable hfree =>
    rw [State.add?, htable]
    dsimp only
    split
    · next t ht => exact absurd ht (hfree t)
    · rfl

theorem add?_eq_some_iff {s s' : State} {l : Line} : s.add? l = some s' ↔ Adds s l s' :=
  ⟨adds_of_add?, Adds.add?⟩

end DiceNotation.Toml
