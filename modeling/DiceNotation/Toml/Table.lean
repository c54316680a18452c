/-!
# Tables

A table maps keys to values and keeps its entries in the order of their keys, so two tables with the same entries are
equal.
-/

namespace DiceNotation.Toml

/-- Entries in strictly ascending order of their keys, by code points. -/
structure Table (α : Type) where
  entries : List (String × α) := []
  ascending : entries.Pairwise (·.1 < ·.1) := by exact .nil

namespace Table

variable {α : Type}

def empty : Table α :=
  {}

def get? (t : Table α) (key : String) : Option α :=
  t.entries.lookup key

/-- Puts an entry in its place, instead of one with the same key. -/
def insertEntry (key : String) (a : α) : List (String × α) → List (String × α)
  | [] => [(key, a)]
  | (k, b) :: rest =>
    if key < k then (key, a) :: (k, b) :: rest
    else if key = k then (key, a) :: rest
    else (k, b) :: insertEntry key a rest

theorem mem_insertEntry {key : String} {a : α} {x : String × α} :
    ∀ {entries : List (String × α)}, x ∈ insertEntry key a entries → x = (key, a) ∨ x ∈ entries
  | [], h => by simpa [insertEntry] using h
  | (k, b) :: rest, h => by
    unfold insertEntry at h
    split at h
    · simpa using h
    · split at h
      · rcases List.mem_cons.1 h with h | h
        · exact .inl h
        · exact .inr (List.mem_cons_of_mem _ h)
      · rcases List.mem_cons.1 h with h | h
        · exact .inr (h ▸ List.mem_cons_self)
        · exact (mem_insertEntry h).imp id (List.mem_cons_of_mem _)

theorem ascending_insertEntry {key : String} {a : α} :
    ∀ {entries : List (String × α)}, entries.Pairwise (·.1 < ·.1) →
      (insertEntry key a entries).Pairwise (·.1 < ·.1)
  | [], _ => by simp [insertEntry]
  | (k, b) :: rest, h => by
    obtain ⟨hk, hrest⟩ := List.pairwise_cons.1 h
    unfold insertEntry
    split
    · next hlt =>
      refine List.pairwise_cons.2 ⟨fun x hx => ?_, h⟩
      rcases List.mem_cons.1 hx with rfl | hx
      · exact hlt
      · exact String.lt_trans hlt (hk x hx)
    · next hlt =>
      split
      · next heq => exact List.pairwise_cons.2 ⟨fun x hx => heq ▸ hk x hx, hrest⟩
      · next hne =>
        have hgt : k < key := Std.lt_of_le_of_ne (String.not_lt.1 hlt) (fun h => hne h.symm)
        refine List.pairwise_cons.2 ⟨fun x hx => ?_, ascending_insertEntry hrest⟩
        rcases mem_insertEntry hx with rfl | hx
        · exact hgt
        · exact hk x hx

def insert (t : Table α) (key : String) (a : α) : Table α :=
  ⟨insertEntry key a t.entries, ascending_insertEntry t.ascending⟩

def erase (t : Table α) (key : String) : Table α :=
  ⟨t.entries.filter (·.1 ≠ key), t.ascending.filter _⟩

theorem lookup_insertEntry_self (key : String) (a : α) :
    ∀ entries : List (String × α), (insertEntry key a entries).lookup key = some a
  | [] => by simp [insertEntry]
  | (k, b) :: rest => by
    unfold insertEntry
    split
    · simp
    · split
      · simp
      · next hne => simp [List.lookup_cons, beq_false_of_ne hne, lookup_insertEntry_self key a rest]

theorem lookup_insertEntry_of_ne {key key' : String} (a : α) (h : key' ≠ key) :
    ∀ entries : List (String × α), (insertEntry key a entries).lookup key' = entries.lookup key'
  | [] => by simp [insertEntry, List.lookup_cons, beq_false_of_ne h]
  | (k, b) :: rest => by
    unfold insertEntry
    split
    · simp [List.lookup_cons, beq_false_of_ne h]
    · split
      · next heq => simp [List.lookup_cons, ← heq, beq_false_of_ne h]
      · simp [List.lookup_cons, lookup_insertEntry_of_ne a h rest]

@[simp]
theorem get?_insert_self (t : Table α) (key : String) (a : α) : (t.insert key a).get? key = some a :=
  lookup_insertEntry_self key a t.entries

theorem get?_insert_of_ne (t : Table α) {key key' : String} (a : α) (h : key' ≠ key) :
    (t.insert key a).get? key' = t.get? key' :=
  lookup_insertEntry_of_ne a h t.entries

/-- Later entries replace earlier ones with the same key. -/
def ofList (entries : List (String × α)) : Table α :=
  entries.foldl (fun t (key, a) => t.insert key a) empty

end Table

end DiceNotation.Toml
