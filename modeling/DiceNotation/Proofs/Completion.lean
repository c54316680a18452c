import DiceNotation.Config.Settings

/-!
# Completed documents

Each key reads its own entry of a document, and completes the document by at most that entry (`Key.complete_of_accepts`,
`Key.complete_of_not_given`). So the keys do not disturb each other: in the document that all of them complete
(`fillAll`), every key finds the integer that it read, and all other entries are as before.

**The settings are those that the completed document gives** (`complete_exact`), and it is complete: completed once more
it stays as it is and gives the same settings.
-/

namespace DiceNotation.Settings

open Toml

/-! ## One key -/

namespace Key

variable {k : Key} {d d' : Document} {i : Int64}

/-- The key takes the integer as it is. -/
def Accepts (k : Key) (i : Int64) : Prop :=
  (k.minimum : Int) ≤ i.toInt ∧ i.toInt ≤ 0xffffffff

/-- The document has an integer for the key that the key takes. -/
def IsGiven (k : Key) (d : Document) : Prop :=
  ∃ i, d.get? k.name = some (.value (.integer i)) ∧ k.Accepts i

/-- The integer that is read for the key. -/
def number (k : Key) (d : Document) : Nat :=
  (k.complete d).1

/-- The document with that integer. -/
def fill (k : Key) (d : Document) : Document :=
  (k.complete d).2

def defaultItem (k : Key) : Item :=
  .value (.integer (Int64.ofNat k.default.toNat))

theorem complete_of_accepts (hi : d.get? k.name = some (.value (.integer i))) (h : k.Accepts i) :
    k.complete d = (i.toInt.toNat, d) := by
  have hread : k.read? d = some i.toInt.toNat := by
    obtain ⟨hmin, hmax⟩ := h
    simp only [read?, hi]
    rw [if_pos ⟨hmin, by omega⟩]
  rw [complete, hread]

theorem complete_of_not_given (h : ¬ k.IsGiven d) :
    k.complete d = (k.default.toNat, d.insert k.name k.defaultItem) := by
  have hread : k.read? d = none := by
    unfold read?
    split
    · next i hi =>
      refine if_neg ?_
      rintro ⟨hmin, hmax⟩
      exact h ⟨i, hi, hmin, by omega⟩
    · rfl
  rw [complete, hread]
  rfl

theorem fill_of_isGiven (h : k.IsGiven d) : k.fill d = d := by
  obtain ⟨i, hi, h⟩ := h
  rw [fill, complete_of_accepts hi h]

/-- What a key reads depends on its own entry only. -/
theorem number_congr (h : d.get? k.name = d'.get? k.name) : k.number d = k.number d' := by
  have hread : k.read? d = k.read? d' := by rw [read?, h]; rfl
  unfold number complete
  rw [hread]
  cases k.read? d' <;> rfl

theorem get?_fill_of_ne {name : String} (h : name ≠ k.name) (d : Document) : (k.fill d).get? name = d.get? name := by
  by_cases hgiven : k.IsGiven d
  · rw [fill_of_isGiven hgiven]
  · rw [fill, complete_of_not_given hgiven]
    exact Table.get?_insert_of_ne d _ h

/-- The default passes the key's own check. -/
def IsSound (k : Key) : Prop :=
  k.minimum ≤ k.default.toNat

theorem toInt_default (k : Key) : (Int64.ofNat k.default.toNat).toInt = k.default.toNat := by
  have := k.default.toNat_lt
  exact Int64.toInt_ofNat_of_lt (by omega)

/-- A key finds the integer that it read in the document it has completed. -/
theorem exists_get?_fill (hk : k.IsSound) (d : Document) :
    ∃ i, (k.fill d).get? k.name = some (.value (.integer i)) ∧ k.Accepts i ∧ i.toInt = k.number d := by
  by_cases hgiven : k.IsGiven d
  · rw [fill_of_isGiven hgiven]
    obtain ⟨i, hi, hmin, hmax⟩ := hgiven
    refine ⟨i, hi, ⟨hmin, hmax⟩, ?_⟩
    rw [number, complete_of_accepts hi ⟨hmin, hmax⟩]
    show i.toInt = (i.toInt.toNat : Int)
    omega
  · refine ⟨Int64.ofNat k.default.toNat, ?_, ?_, ?_⟩
    · rw [fill, complete_of_not_given hgiven]
      exact Table.get?_insert_self d k.name _
    · have hlt := k.default.toNat_lt
      have hmin : k.minimum ≤ k.default.toNat := hk
      rw [Accepts, toInt_default]
      omega
    · rw [number, complete_of_not_given hgiven, toInt_default]

end Key

/-! ## All keys -/

/-- The document completed by keys in turn. -/
def fillAll (ks : List Key) (d : Document) : Document :=
  ks.foldl (fun d k => k.fill d) d

theorem get?_fillAll_of_notMem {ks : List Key} {name : String} (h : name ∉ ks.map Key.name) (d : Document) :
    (fillAll ks d).get? name = d.get? name := by
  induction ks generalizing d with
  | nil => rfl
  | cons k ks ih =>
    simp only [List.map_cons, List.mem_cons, not_or] at h
    show (fillAll ks (k.fill d)).get? name = _
    rw [ih h.2, Key.get?_fill_of_ne h.1]

theorem number_fillAll (ks : List Key) {k : Key} (h : k.name ∉ ks.map Key.name) (d : Document) :
    k.number (fillAll ks d) = k.number d :=
  Key.number_congr (get?_fillAll_of_notMem h d)

/-- In the document that all keys have completed each of them finds the integer that it reads from the first one. -/
theorem exists_get?_fillAll {ks : List Key} (hks : (ks.map Key.name).Nodup) (hsound : ∀ k ∈ ks, k.IsSound) {k : Key}
    (hk : k ∈ ks) (d : Document) :
    ∃ i, (fillAll ks d).get? k.name = some (.value (.integer i)) ∧ k.Accepts i ∧ i.toInt = k.number d := by
  induction ks generalizing d with
  | nil => cases hk
  | cons k' ks ih =>
    obtain ⟨hk', hks⟩ := List.nodup_cons.1 hks
    obtain ⟨hsound', hsound⟩ := List.forall_mem_cons.1 hsound
    show ∃ i, (fillAll ks (k'.fill d)).get? k.name = _ ∧ _
    rcases List.mem_cons.1 hk with rfl | hk
    · rw [get?_fillAll_of_notMem hk']
      exact Key.exists_get?_fill hsound' d
    · have hne : k.name ≠ k'.name := fun h => hk' (h ▸ List.mem_map_of_mem hk)
      rw [← Key.number_congr (Key.get?_fill_of_ne hne d)]
      exact ih hks hsound hk (k'.fill d)

theorem fillAll_of_isGiven {ks : List Key} {d : Document} (h : ∀ k ∈ ks, k.IsGiven d) : fillAll ks d = d := by
  induction ks with
  | nil => rfl
  | cons k ks ih =>
    obtain ⟨hk, hks⟩ := List.forall_mem_cons.1 h
    show fillAll ks (k.fill d) = d
    rw [Key.fill_of_isGiven hk, ih hks]

/-- What the defaults leave true of a document holds of the completed document. -/
theorem fillAll_induction {P : Document → Prop}
    (hinsert : ∀ (d : Document) (k : Key), P d → P (d.insert k.name k.defaultItem)) (ks : List Key) {d : Document}
    (h : P d) : P (fillAll ks d) := by
  induction ks generalizing d with
  | nil => exact h
  | cons k ks ih =>
    show P (fillAll ks (k.fill d))
    by_cases hgiven : k.IsGiven d
    · rw [Key.fill_of_isGiven hgiven]
      exact ih h
    · rw [Key.fill, Key.complete_of_not_given hgiven]
      exact ih (hinsert d k h)

/-! ## The settings -/

/-- What a key sets: a field that counts `unit` for each one of the key. -/
structure Field where
  key : Key
  unit : Nat
  get : Settings → Nat

def fields : List Field :=
  [⟨maxDepthKey, 1, maxDepth⟩, ⟨maxDiceKey, 1, maxDice⟩, ⟨timeoutKey, 1, timeoutMs⟩, ⟨reseedKey, 1000, reseedMs⟩,
    ⟨workersKey, 1, workers⟩]

theorem nodup_keys : (keys.map Key.name).Nodup := by decide

theorem isSound_of_mem_keys : ∀ k ∈ keys, k.IsSound := by simp [keys, Key.IsSound]; decide

theorem key_mem_keys : ∀ f ∈ fields, f.key ∈ keys := by simp [fields, keys]

/-- The defaults of the keys are those of the settings. -/
theorem get_default : ∀ f ∈ fields, f.get {} = f.unit * f.key.default.toNat := by decide

theorem complete_document (d : Document) : (complete d).2 = fillAll keys d :=
  rfl

theorem get?_complete_of_notMem {name : String} (h : name ∉ keys.map Key.name) (d : Document) :
    (complete d).2.get? name = d.get? name := by
  rw [complete_document]
  exact get?_fillAll_of_notMem h d

theorem exists_get?_complete {k : Key} (hk : k ∈ keys) (d : Document) :
    ∃ i, (complete d).2.get? k.name = some (.value (.integer i)) ∧ k.Accepts i ∧ i.toInt = k.number d := by
  rw [complete_document]
  exact exists_get?_fillAll nodup_keys isSound_of_mem_keys hk d

theorem get_complete (d : Document) : ∀ f ∈ fields, f.get (complete d).1 = f.unit * f.key.number d := by
  have hdice : (complete d).1.maxDice = maxDiceKey.number d :=
    number_fillAll [maxDepthKey] (by decide) d
  have htimeout : (complete d).1.timeoutMs = timeoutKey.number d :=
    number_fillAll [maxDepthKey, maxDiceKey] (by decide) d
  have hreseed : (complete d).1.reseedMs = 1000 * reseedKey.number d :=
    congrArg (1000 * ·) (number_fillAll [maxDepthKey, maxDiceKey, timeoutKey] (by decide) d)
  have hworkers : (complete d).1.workers = workersKey.number d :=
    number_fillAll [maxDepthKey, maxDiceKey, timeoutKey, reseedKey] (by decide) d
  simp only [fields, List.forall_mem_cons, List.not_mem_nil, false_implies, implies_true, and_true, Nat.one_mul]
  exact ⟨rfl, hdice, htimeout, hreseed, hworkers⟩

/-- A setting is positive if its key takes no zero. -/
theorem one_le_get_complete (d : Document) :
    ∀ f ∈ fields, 1 ≤ f.key.minimum → 1 ≤ f.unit → 1 ≤ f.get (complete d).1 := by
  intro f hf hmin hunit
  obtain ⟨i, -, haccepts, hnumber⟩ := exists_get?_complete (key_mem_keys f hf) d
  have hle := haccepts.1
  rw [get_complete d f hf]
  exact Nat.mul_pos hunit (by omega)

/-- A key finds its entry as it was, if it takes the integer there. -/
theorem get?_complete_of_accepts {d : Document} {k : Key} (hk : k ∈ keys) {i : Int64}
    (hi : d.get? k.name = some (.value (.integer i))) (h : k.Accepts i) :
    (complete d).2.get? k.name = some (.value (.integer i)) := by
  obtain ⟨j, hj, -, hnumber⟩ := exists_get?_complete hk d
  have hij : j.toInt = i.toInt := by
    rw [hnumber, Key.number, Key.complete_of_accepts hi h]
    have := h.1
    show (i.toInt.toNat : Int) = i.toInt
    omega
  rw [← Int64.toInt_inj.1 hij]
  exact hj

theorem isGiven_complete (d : Document) : ∀ k ∈ keys, k.IsGiven (complete d).2 := by
  intro k hk
  obtain ⟨i, hi, haccepts, -⟩ := exists_get?_complete hk d
  exact ⟨i, hi, haccepts⟩

theorem complete_document_complete (d : Document) : (complete (complete d).2).2 = (complete d).2 := by
  rw [complete_document (complete d).2, fillAll_of_isGiven (isGiven_complete d)]

/-- The fields are all there is to settings. -/
theorem eq_of_fields {s s' : Settings} (h : ∀ f ∈ fields, f.get s = f.get s') : s = s' := by
  simp only [fields, List.forall_mem_cons] at h
  obtain ⟨hdepth, hdice, htimeout, hreseed, hworkers, -⟩ := h
  cases s
  cases s'
  simp_all

theorem number_complete (d : Document) {k : Key} (hk : k ∈ keys) : k.number (complete d).2 = k.number d := by
  obtain ⟨i, hi, -, hnumber⟩ := exists_get?_complete hk d
  obtain ⟨j, hj, -, hnumber'⟩ := exists_get?_complete hk (complete d).2
  rw [complete_document_complete, hi] at hj
  obtain rfl : i = j := by simpa using hj
  exact Int.ofNat.inj (hnumber'.symm.trans hnumber)

/-- A completed document is complete. -/
theorem complete_complete (d : Document) : complete (complete d).2 = complete d := by
  refine Prod.ext (eq_of_fields ?_) (complete_document_complete d)
  intro f hf
  rw [get_complete _ f hf, get_complete _ f hf, number_complete d (key_mem_keys f hf)]

/-- **Completion is exact.** A key whose integer is in its range sets its field and keeps its entry; any other key sets
the default, and its entry becomes that integer. All other entries stay. The completed document has an integer in range
for every key, from which the settings can be told; completed again, it stays and gives the same settings. All settings
but the depth are positive. -/
theorem complete_exact (d : Document) :
    (∀ f ∈ fields,
      (∀ i, d.get? f.key.name = some (.value (.integer i)) → f.key.Accepts i →
        (f.get (complete d).1 : Int) = f.unit * i.toInt ∧
          (complete d).2.get? f.key.name = some (.value (.integer i))) ∧
      (¬ f.key.IsGiven d → f.get (complete d).1 = f.get {}) ∧
      ∃ i, (complete d).2.get? f.key.name = some (.value (.integer i)) ∧ f.key.Accepts i ∧
        (f.get (complete d).1 : Int) = f.unit * i.toInt) ∧
    (∀ name ∉ keys.map Key.name, (complete d).2.get? name = d.get? name) ∧
    complete (complete d).2 = complete d ∧
    1 ≤ (complete d).1.maxDice ∧ 1 ≤ (complete d).1.timeoutMs ∧ 1 ≤ (complete d).1.reseedMs ∧
      1 ≤ (complete d).1.workers := by
  refine ⟨?_, fun name h => get?_complete_of_notMem h d, complete_complete d, ?_⟩
  · intro f hf
    obtain ⟨i, hi, haccepts, hnumber⟩ := exists_get?_complete (key_mem_keys f hf) d
    have hget : (f.get (complete d).1 : Int) = f.unit * i.toInt := by
      rw [get_complete d f hf, hnumber, Int.natCast_mul]
    refine ⟨?_, ?_, i, hi, haccepts, hget⟩
    · intro j hj hj'
      have hkept := get?_complete_of_accepts (key_mem_keys f hf) hj hj'
      rw [hkept] at hi
      cases hi
      exact ⟨hget, hkept⟩
    · intro hgiven
      rw [get_complete d f hf, get_default f hf, Key.number, Key.complete_of_not_given hgiven]
  · have hpos := one_le_get_complete d
    exact ⟨hpos ⟨maxDiceKey, 1, maxDice⟩ (by simp [fields]) (by decide) (by decide),
      hpos ⟨timeoutKey, 1, timeoutMs⟩ (by simp [fields]) (by decide) (by decide),
      hpos ⟨reseedKey, 1000, reseedMs⟩ (by simp [fields]) (by decide) (by decide),
      hpos ⟨workersKey, 1, workers⟩ (by simp [fields]) (by decide) (by decide)⟩

end DiceNotation.Settings
