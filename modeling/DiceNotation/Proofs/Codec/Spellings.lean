import DiceNotation.Codec.Datum

/-!
# Spellings

How data spell names, records and numbers is said here by rules, which know two styles. Canonical data give a name as a
text, and a record as an object of its fields in order. Free data may also give a name as the only field of an object,
and a record with unknown fields or as an array. Every reader of data takes exactly the free spellings
(`name?_eq_some_iff`, `record?_eq_some_iff`, `value?_eq_some_iff`, `count?_eq_some_iff`).

`Faithful` collects what is asked of a type with its data. It follows from the rules of that type
(`Faithful.of_rules`).
-/

namespace DiceNotation

namespace Datum

inductive Style where
  | canonical
  | free

def SpellsName (style : Style) (name : String) (d : Datum) : Prop :=
  d = .text name ∨ style = .free ∧ d = .object [(name, .null)]

/-- An object with these fields. If it is canonical, it has no others, and these in order. -/
def SpellsFields (style : Style) (names : List String) (parts : List Datum) (d : Datum) : Prop :=
  ∃ fields, d = .object fields ∧ names.map (fields.lookup ·) = parts.map some ∧
    (style = .canonical → fields.map Prod.fst = names)

def SpellsRecord (style : Style) (names : List String) (parts : List Datum) (d : Datum) : Prop :=
  SpellsFields style names parts d ∨ style = .free ∧ d = .array parts ∧ parts.length = names.length

/-- A type with its data. `exact` forgets the sizes of the numbers in a value, `Fits` are the contents that come from
a value, and `Spelled` are their spellings. -/
structure Faithful {α ω : Type} (encode : α → Datum) (decode? : Datum → Option α) (exact : α → ω) (Fits : ω → Prop)
    (Spelled : Style → ω → Datum → Prop) : Prop where
  decode?_encode (x : α) : decode? (encode x) = some x
  decode?_eq_some_iff (d : Datum) (x : α) : decode? d = some x ↔ Spelled .free (exact x) d
  /-- Data are read and written again as the canonical spelling of the same value, and there is only one. -/
  recode_eq_some_iff (d c : Datum) :
    (decode? d).map encode = some c ↔ ∃ x, Spelled .free (exact x) d ∧ Spelled .canonical (exact x) c
  canonical_iff (c : Datum) (x : α) : Spelled .canonical (exact x) c ↔ c = encode x
  unique {d : Datum} {w w' : ω} : Spelled .free w d → Spelled .free w' d → w = w'
  /-- What spells too large a number is not read. -/
  decode?_eq_none_iff {d : Datum} {w : ω} : Spelled .free w d → (decode? d = none ↔ ¬ Fits w)
  fits_iff (w : ω) : Fits w ↔ ∃ x, exact x = w

section

variable {α ω : Type} {encode : α → Datum} {decode? : Datum → Option α} {exact : α → ω} {Fits : ω → Prop}
  {Spelled : Style → ω → Datum → Prop}

theorem Faithful.of_rules (hread : ∀ d x, decode? d = some x ↔ Spelled .free (exact x) d)
    (hwrite : ∀ c x, Spelled .canonical (exact x) c ↔ c = encode x)
    (hfree : ∀ {d w}, Spelled .canonical w d → Spelled .free w d)
    (hunique : ∀ {d w w'}, Spelled .free w d → Spelled .free w' d → w = w')
    (hfits : ∀ w, Fits w ↔ ∃ x, exact x = w) : Faithful encode decode? exact Fits Spelled where
  decode?_encode x := (hread _ _).2 (hfree ((hwrite _ _).2 rfl))
  decode?_eq_some_iff := hread
  recode_eq_some_iff d c := by
    rw [Option.map_eq_some_iff]
    refine exists_congr fun x => ?_
    rw [hread, hwrite, eq_comm]
  canonical_iff := hwrite
  unique := hunique
  decode?_eq_none_iff {d w} hspelled := by
    rw [hfits, Option.eq_none_iff_forall_ne_some]
    constructor
    · rintro hnone ⟨x, rfl⟩
      exact hnone x ((hread d x).2 hspelled)
    · exact fun hmisfit x hx => hmisfit ⟨x, hunique ((hread d x).1 hx) hspelled⟩
  fits_iff := hfits

/-- Without numbers there is nothing that does not fit. -/
theorem Faithful.of_exact {Spelled : Style → α → Datum → Prop}
    (hread : ∀ d x, decode? d = some x ↔ Spelled .free x d) (hwrite : ∀ c x, Spelled .canonical x c ↔ c = encode x)
    (hfree : ∀ {d x}, Spelled .canonical x d → Spelled .free x d) :
    Faithful encode decode? id (fun _ => True) Spelled :=
  .of_rules hread hwrite hfree
    (fun h h' => Option.some.inj (((hread _ _).2 h).symm.trans ((hread _ _).2 h')))
    fun x => iff_of_true trivial ⟨x, rfl⟩

end

/-! ## Names and records -/

variable {style : Style} {name a b : String} {names : List String} {parts parts' : List Datum} {d x y : Datum}

theorem SpellsName.free (h : SpellsName .canonical name d) : SpellsName .free name d :=
  h.imp_right fun h => ⟨rfl, h.2⟩

theorem SpellsFields.free (h : SpellsFields .canonical names parts d) : SpellsFields .free names parts d := by
  obtain ⟨fields, rfl, hlookup, -⟩ := h
  exact ⟨fields, rfl, hlookup, nofun⟩

theorem SpellsRecord.free (h : SpellsRecord .canonical names parts d) : SpellsRecord .free names parts d :=
  h.imp SpellsFields.free fun h => ⟨rfl, h.2⟩

theorem spellsName_canonical_iff : SpellsName .canonical name d ↔ d = .text name := by
  simp [SpellsName]

theorem spellsFields_canonical_iff (hne : a ≠ b) :
    SpellsFields .canonical [a, b] [x, y] d ↔ d = .object [(a, x), (b, y)] := by
  constructor
  · rintro ⟨fields, rfl, hlookup, hnames⟩
    obtain ⟨⟨a', x'⟩, tail, rfl, rfl, htail⟩ := List.map_eq_cons_iff.1 (hnames rfl)
    obtain ⟨⟨b', y'⟩, rest, rfl, rfl, hrest⟩ := List.map_eq_cons_iff.1 htail
    obtain rfl := List.map_eq_nil_iff.1 hrest
    simp_all [List.lookup_cons, beq_eq_false_iff_ne.2 hne.symm]
  · rintro rfl
    exact ⟨_, rfl, by simp [List.lookup_cons, beq_eq_false_iff_ne.2 hne.symm], fun _ => rfl⟩

theorem spellsRecord_canonical_iff (hne : a ≠ b) :
    SpellsRecord .canonical [a, b] [x, y] d ↔ d = .object [(a, x), (b, y)] := by
  simp [SpellsRecord, spellsFields_canonical_iff hne]

theorem name?_eq_some_iff : d.name? = some name ↔ SpellsName .free name d := by
  unfold name?
  split
  · simp [SpellsName, eq_comm]
  · simp [SpellsName, eq_comm]
  · next htext hobject =>
    simp only [reduceCtorEq, SpellsName, true_and, false_iff, not_or]
    exact ⟨fun h => htext name h, fun h => hobject name h⟩

theorem mapM_lookup_eq_some_iff {fields : List (String × Datum)} :
    names.mapM (fun name => fields.lookup name) = some parts ↔ names.map (fields.lookup ·) = parts.map some := by
  induction names generalizing parts with
  | nil => cases parts <;> simp
  | cons name names ih =>
    rw [List.mapM_cons]
    cases hlookup : fields.lookup name with
    | none => cases parts <;> simp [hlookup]
    | some x =>
      cases parts with
      | nil => cases names.mapM (fun name => fields.lookup name) <;> simp
      | cons y parts =>
        rw [List.map_cons, List.map_cons, List.cons.injEq, ← ih, hlookup]
        cases names.mapM (fun name => fields.lookup name) <;> simp

theorem fields?_eq_some_iff : d.fields? names = some parts ↔ SpellsFields .free names parts d := by
  cases d with
  | object fields => simp [fields?, SpellsFields, mapM_lookup_eq_some_iff]
  | _ => simp [fields?, SpellsFields]

theorem record?_eq_some_iff : d.record? names = some parts ↔ SpellsRecord .free names parts d := by
  unfold record?
  split
  · next items =>
    rw [Option.ite_none_right_eq_some]
    simp only [SpellsRecord, SpellsFields, reduceCtorEq, false_and, exists_const, Datum.array.injEq, true_and, false_or,
      Option.some.injEq]
    constructor
    · rintro ⟨hlength, rfl⟩
      exact ⟨rfl, hlength⟩
    · rintro ⟨rfl, hlength⟩
      exact ⟨hlength, rfl⟩
  · next harray =>
    rw [fields?_eq_some_iff, SpellsRecord, or_iff_left]
    exact fun h => harray _ h.2.1

theorem SpellsFields.unique (h : SpellsFields .free names parts d) (h' : SpellsFields .free names parts' d) :
    parts = parts' :=
  Option.some.inj ((fields?_eq_some_iff.2 h).symm.trans (fields?_eq_some_iff.2 h'))

theorem SpellsRecord.unique (h : SpellsRecord .free names parts d) (h' : SpellsRecord .free names parts' d) :
    parts = parts' :=
  Option.some.inj ((record?_eq_some_iff.2 h).symm.trans (record?_eq_some_iff.2 h'))

/-! ## Texts and numbers -/

theorem text?_eq_some_iff {s : String} : d.text? = some s ↔ d = .text s := by
  cases d <;> simp [text?]

theorem value?_eq_some_iff {v : Value} : d.value? = some v ↔ d = .int v.toInt := by
  cases d with
  | int n => rw [value?, Value.ofInt?_eq_some_iff, Datum.int.injEq, eq_comm]
  | _ => simp [value?]

/-- The integers that count dice or sides. -/
def FitsCount (n : Int) : Prop :=
  0 ≤ n ∧ n < 0x100000000

theorem toNat_toUInt32_toNat {n : Int} (h : FitsCount n) : (n.toNat.toUInt32.toNat : Int) = n := by
  obtain ⟨hpos, hlt⟩ := h
  rw [Nat.toUInt32_eq, UInt32.toNat_ofNat_of_lt' (by rw [UInt32.size]; omega), Int.toNat_of_nonneg hpos]

theorem fitsCount_toNat (c : UInt32) : FitsCount c.toNat := by
  have := c.toNat_lt
  exact ⟨by omega, by omega⟩

theorem count?_eq_some_iff {c : UInt32} : d.count? = some c ↔ d = .int c.toNat := by
  cases d with
  | int n =>
    rw [count?, Option.ite_none_right_eq_some, Option.some.injEq, Datum.int.injEq]
    constructor
    · rintro ⟨hfits, rfl⟩
      exact (toNat_toUInt32_toNat hfits).symm
    · rintro rfl
      exact ⟨fitsCount_toNat c, by simp⟩
  | _ => simp [count?]

end Datum

end DiceNotation
