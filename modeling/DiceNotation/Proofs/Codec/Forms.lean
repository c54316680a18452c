import DiceNotation.Codec.Forms
import DiceNotation.Proofs.Codec.Spellings
import Mathlib.Data.List.Nodup

/-!
# Forms

The spellings of kinds, operators, tokens, evaluations and expressions, each at any depth of a tree. Numbers of any size
can be spelled: an expression is spelled as an `Outline`, and the outlines that fit are those of expressions
(`Outline.fits_iff`).

For every type **the reader takes the free spellings of its values and nothing else, and what is written is the only
canonical spelling** (`Datum.forms_faithful`). So no number is cut to its size, and data that cannot be read make all
data around them unreadable (`Expr.decode?_eq_none_of_within`).
-/

namespace DiceNotation

open Datum

/-! ## Kinds and operators -/

namespace Datum.Names

variable {α : Type} {names : Names α} {d : Datum} {x : α} {name : String}

def Spelled (names : Names α) (style : Style) (x : α) (d : Datum) : Prop :=
  SpellsName style (names.name x) d

theorem find?_eq_some_iff : names.all.find? (names.name · = name) = some x ↔ name = names.name x := by
  constructor
  · intro h
    have hname := List.find?_some h
    exact (of_decide_eq_true hname).symm
  · rintro rfl
    cases hfind : names.all.find? (names.name · = names.name x) with
    | none => exact absurd (decide_eq_true rfl) (List.find?_eq_none.1 hfind x (names.mem_all x))
    | some y =>
      have hname := List.find?_some hfind
      rw [List.inj_on_of_nodup_map names.nodup (names.mem_all y) (names.mem_all x) (of_decide_eq_true hname)]

theorem decode?_eq_some_iff : names.decode? d = some x ↔ names.Spelled .free x d := by
  simp only [decode?, Option.bind_eq_some_iff, name?_eq_some_iff, find?_eq_some_iff, exists_eq_right, Spelled]

theorem faithful (names : Names α) : Faithful names.encode names.decode? id (fun _ => True) names.Spelled :=
  .of_exact (fun _ _ => decode?_eq_some_iff) (fun _ _ => spellsName_canonical_iff) SpellsName.free

end Datum.Names

def Token.Kind.Spelled : Style → Kind → Datum → Prop :=
  names.Spelled

def Operator.Spelled : Style → Operator → Datum → Prop :=
  names.Spelled

theorem Token.Kind.faithful : Faithful encode decode? id (fun _ => True) Spelled :=
  names.faithful

theorem Operator.faithful : Faithful encode decode? id (fun _ => True) Spelled :=
  names.faithful

/-! ## Tokens and evaluations -/

def Token.Spelled (style : Style) (t : Token) (d : Datum) : Prop :=
  ∃ kind, SpellsRecord style ["kind", "text"] [kind, .text t.text] d ∧ t.kind.Spelled style kind

/-- The value of an evaluation as any integer, and its trace. -/
def Evaluation.content (e : Evaluation) : Int × String :=
  (e.value.toInt, e.trace)

def Evaluation.Spelled (style : Style) (w : Int × String) (d : Datum) : Prop :=
  SpellsRecord style ["value", "trace"] [.int w.1, .text w.2] d

theorem Token.decode?_eq_some_iff {d : Datum} {t : Token} : decode? d = some t ↔ t.Spelled .free d := by
  constructor
  · intro h
    unfold decode? at h
    split at h
    · next kind text hrecord =>
      obtain ⟨k, hkind, h⟩ := Option.bind_eq_some_iff.1 h
      obtain ⟨s, htext, h⟩ := Option.bind_eq_some_iff.1 h
      cases h
      obtain rfl := text?_eq_some_iff.1 htext
      exact ⟨kind, record?_eq_some_iff.1 hrecord, (Kind.faithful.decode?_eq_some_iff kind k).1 hkind⟩
    · cases h
  · rintro ⟨kind, hrecord, hkind⟩
    simp [decode?, record?_eq_some_iff.2 hrecord, (Kind.faithful.decode?_eq_some_iff kind t.kind).2 hkind, text?]

theorem Evaluation.decode?_eq_some_iff {d : Datum} {e : Evaluation} :
    decode? d = some e ↔ Spelled .free e.content d := by
  constructor
  · intro h
    unfold decode? at h
    split at h
    · next value trace hrecord =>
      obtain ⟨v, hvalue, h⟩ := Option.bind_eq_some_iff.1 h
      obtain ⟨s, htrace, h⟩ := Option.bind_eq_some_iff.1 h
      cases h
      obtain rfl := value?_eq_some_iff.1 hvalue
      obtain rfl := text?_eq_some_iff.1 htrace
      exact record?_eq_some_iff.1 hrecord
    · cases h
  · intro hrecord
    have hvalue : (int e.value.toInt).value? = some e.value := value?_eq_some_iff.2 rfl
    simp [decode?, record?_eq_some_iff.2 hrecord, content, hvalue, text?]

theorem Token.Spelled.free {d : Datum} {t : Token} (h : t.Spelled .canonical d) : t.Spelled .free d := by
  obtain ⟨kind, hrecord, hkind⟩ := h
  exact ⟨kind, hrecord.free, SpellsName.free hkind⟩

theorem Token.spelled_canonical_iff {d : Datum} {t : Token} : t.Spelled .canonical d ↔ d = t.encode := by
  have hkind (kind : Datum) : t.kind.Spelled .canonical kind ↔ kind = t.kind.encode :=
    Kind.faithful.canonical_iff kind t.kind
  simp only [Spelled, hkind, exists_eq_right, encode]
  exact spellsRecord_canonical_iff (by decide)

theorem Token.faithful : Faithful encode decode? id (fun _ => True) Spelled :=
  .of_exact (fun _ _ => decode?_eq_some_iff) (fun _ _ => spelled_canonical_iff) Spelled.free

theorem Evaluation.fits_content_iff {w : Int × String} : Value.Fits w.1 ↔ ∃ e : Evaluation, e.content = w := by
  constructor
  · intro hfits
    exact ⟨⟨Int64.ofInt w.1, w.2⟩, Prod.ext (Value.toInt_ofInt_of_fits hfits) rfl⟩
  · rintro ⟨e, rfl⟩
    exact Value.fits_toInt e.value

theorem Evaluation.faithful : Faithful encode decode? content (fun w => Value.Fits w.1) Spelled := by
  refine .of_rules (fun _ _ => decode?_eq_some_iff) (fun _ _ => spellsRecord_canonical_iff (by decide))
    SpellsRecord.free (fun h h' => ?_) fun _ => fits_content_iff
  have hparts := h.unique h'
  simp only [List.cons.injEq, Datum.int.injEq, Datum.text.injEq, and_true] at hparts
  exact Prod.ext hparts.1 hparts.2

/-! ## Expressions -/

namespace Expr

/-- An expression whose numbers can be any integers. -/
inductive Outline where
  | const (value : Int)
  | dice (count sides : Int)
  | binary (op : Operator) (left right : Outline)

def outline : Expr → Outline
  | const value => .const value.toInt
  | dice count sides => .dice count.toNat sides.toNat
  | binary op l r => .binary op l.outline r.outline

def Outline.Fits : Outline → Prop
  | const value => Value.Fits value
  | dice count sides => FitsCount count ∧ FitsCount sides
  | binary _ l r => l.Fits ∧ r.Fits

/-- The data of an operation with the data of its operands and operator. -/
def operation (l op r : Datum) : Datum :=
  .object [("BinaryOp", .array [l, op, r])]

def Outline.Spelled (style : Style) : Outline → Datum → Prop
  | const value, d => d = .object [("Constant", .int value)]
  | dice count sides, d =>
    ∃ f, SpellsFields style ["count", "sides"] [.int count, .int sides] f ∧ d = .object [("DiceRoll", f)]
  | binary op a b, d => ∃ l o r, a.Spelled style l ∧ op.Spelled style o ∧ b.Spelled style r ∧ d = operation l o r

/-- The data of an operand at some depth of other data. -/
inductive Within (d : Datum) : Datum → Prop
  | self : Within d d
  | left {l op r : Datum} : Within d l → Within d (operation l op r)
  | right {l op r : Datum} : Within d r → Within d (operation l op r)

variable {d l o r : Datum} {e : Expr} {w w' : Outline}

theorem Outline.fits_iff : w.Fits ↔ ∃ e, outline e = w := by
  constructor
  · intro hfits
    induction w with
    | const n => exact ⟨.const (Int64.ofInt n), by rw [outline, Value.toInt_ofInt_of_fits hfits]⟩
    | dice count sides =>
      exact ⟨.dice count.toNat.toUInt32 sides.toNat.toUInt32,
        by rw [outline, toNat_toUInt32_toNat hfits.1, toNat_toUInt32_toNat hfits.2]⟩
    | binary op l r ihl ihr =>
      obtain ⟨a, rfl⟩ := ihl hfits.1
      obtain ⟨b, rfl⟩ := ihr hfits.2
      exact ⟨.binary op a b, rfl⟩
  · rintro ⟨e, rfl⟩
    induction e with
    | const v => exact Value.fits_toInt v
    | dice count sides => exact ⟨fitsCount_toNat count, fitsCount_toNat sides⟩
    | binary op l r ihl ihr => exact ⟨ihl, ihr⟩

theorem decodeDice?_eq_some_iff :
    decodeDice? d = some e ↔
      ∃ count sides, SpellsFields .free ["count", "sides"] [.int count.toNat, .int sides.toNat] d ∧
        e = .dice count sides := by
  constructor
  · intro h
    unfold decodeDice? at h
    split at h
    · next count sides hfields =>
      obtain ⟨n, hcount, h⟩ := Option.bind_eq_some_iff.1 h
      obtain ⟨m, hsides, h⟩ := Option.bind_eq_some_iff.1 h
      cases h
      obtain rfl := count?_eq_some_iff.1 hcount
      obtain rfl := count?_eq_some_iff.1 hsides
      exact ⟨n, m, fields?_eq_some_iff.1 hfields, rfl⟩
    · cases h
  · rintro ⟨n, m, hfields, rfl⟩
    have hcount (c : UInt32) : (int c.toNat).count? = some c := count?_eq_some_iff.2 rfl
    simp [decodeDice?, fields?_eq_some_iff.2 hfields, hcount]

theorem decode?_operation_eq_some_iff :
    decode? (operation l o r) = some e ↔
      ∃ op a b, op.Spelled .free o ∧ decode? l = some a ∧ decode? r = some b ∧ e = .binary op a b := by
  simp only [operation, decode?, Option.bind_eq_bind, Option.bind_eq_some_iff, Option.pure_def, Option.some.injEq,
    Operator.faithful.decode?_eq_some_iff, id_eq]
  constructor
  · rintro ⟨op, hop, a, ha, b, hb, rfl⟩
    exact ⟨op, a, b, hop, ha, hb, rfl⟩
  · rintro ⟨op, a, b, hop, ha, hb, rfl⟩
    exact ⟨op, hop, a, ha, b, hb, rfl⟩

theorem spelled_of_decode? (h : decode? d = some e) : e.outline.Spelled .free d := by
  fun_induction decode? d generalizing e with
  | case1 d =>
    obtain ⟨v, hv, rfl⟩ := Option.map_eq_some_iff.1 h
    obtain rfl := value?_eq_some_iff.1 hv
    rfl
  | case2 d =>
    obtain ⟨count, sides, hfields, rfl⟩ := decodeDice?_eq_some_iff.1 h
    exact ⟨d, hfields, rfl⟩
  | case3 l o r ihl ihr =>
    obtain ⟨op, a, b, hop, ha, hb, rfl⟩ := decode?_operation_eq_some_iff.1 h
    exact ⟨l, o, r, ihl ha, hop, ihr hb, rfl⟩
  | case4 => cases h

theorem decode?_eq_some_iff : decode? d = some e ↔ e.outline.Spelled .free d := by
  refine ⟨spelled_of_decode?, fun h => ?_⟩
  induction e generalizing d with
  | const v =>
    obtain rfl := h
    simp [decode?, value?_eq_some_iff.2 rfl]
  | dice count sides =>
    obtain ⟨f, hfields, rfl⟩ := h
    exact decodeDice?_eq_some_iff.2 ⟨count, sides, hfields, rfl⟩
  | binary op a b ihl ihr =>
    obtain ⟨l, o, r, hl, ho, hr, rfl⟩ := h
    exact decode?_operation_eq_some_iff.2 ⟨op, a, b, ho, ihl hl, ihr hr, rfl⟩

theorem Outline.Spelled.free (h : w.Spelled .canonical d) : w.Spelled .free d := by
  induction w generalizing d with
  | const n => exact h
  | dice count sides =>
    obtain ⟨f, hfields, rfl⟩ := h
    exact ⟨f, hfields.free, rfl⟩
  | binary op a b ihl ihr =>
    obtain ⟨l, o, r, hl, ho, hr, rfl⟩ := h
    exact ⟨l, o, r, ihl hl, SpellsName.free ho, ihr hr, rfl⟩

theorem Outline.Spelled.unique (h : w.Spelled .free d) (h' : w'.Spelled .free d) : w = w' := by
  induction w generalizing d w' with
  | const n =>
    obtain rfl := h
    cases w' <;> simp_all [Outline.Spelled, operation]
  | dice count sides =>
    obtain ⟨f, hfields, rfl⟩ := h
    cases w' with
    | dice count' sides' =>
      obtain ⟨f', hfields', hd⟩ := h'
      obtain rfl : f = f' := by simpa using hd
      simpa using hfields.unique hfields'
    | _ => simp [Outline.Spelled, operation] at h'
  | binary op a b ihl ihr =>
    obtain ⟨l, o, r, hl, ho, hr, rfl⟩ := h
    cases w' with
    | binary op' a' b' =>
      obtain ⟨l', o', r', hl', ho', hr', hd⟩ := h'
      obtain ⟨rfl, rfl, rfl⟩ : l = l' ∧ o = o' ∧ r = r' := by simpa [operation] using hd
      rw [ihl hl hl', Operator.faithful.unique ho ho', ihr hr hr']
    | _ => simp [Outline.Spelled, operation] at h'

theorem spelled_canonical_iff : e.outline.Spelled .canonical d ↔ d = e.encode := by
  induction e generalizing d with
  | const v => exact Iff.rfl
  | dice count sides => simp [outline, Outline.Spelled, spellsFields_canonical_iff, encode]
  | binary op a b ihl ihr =>
    have hop (o : Datum) : op.Spelled .canonical o ↔ o = op.encode := Operator.faithful.canonical_iff o op
    simp [outline, Outline.Spelled, ihl, ihr, hop, encode, operation]

theorem faithful : Faithful encode decode? outline Outline.Fits Outline.Spelled :=
  .of_rules (fun _ _ => decode?_eq_some_iff) (fun _ _ => spelled_canonical_iff) Outline.Spelled.free
    Outline.Spelled.unique fun _ => Outline.fits_iff

/-! ## Data that cannot be read -/

/-- An operation with an operand that cannot be read cannot be read. -/
theorem decode?_eq_none_of_within {part : Datum} (h : Within part d) (hpart : decode? part = none) :
    decode? d = none := by
  induction h with
  | self => exact hpart
  | left _ ih =>
    refine Option.eq_none_iff_forall_ne_some.2 fun e he => ?_
    obtain ⟨op, a, b, -, ha, -, -⟩ := decode?_operation_eq_some_iff.1 he
    cases ih.symm.trans ha
  | right _ ih =>
    refine Option.eq_none_iff_forall_ne_some.2 fun e he => ?_
    obtain ⟨op, a, b, -, -, hb, -⟩ := decode?_operation_eq_some_iff.1 he
    cases ih.symm.trans hb

theorem decode?_eq_none_of_operator (ho : Operator.decode? o = none) : decode? (operation l o r) = none := by
  refine Option.eq_none_iff_forall_ne_some.2 fun e he => ?_
  obtain ⟨op, a, b, hop, -⟩ := decode?_operation_eq_some_iff.1 he
  cases ho.symm.trans ((Operator.faithful.decode?_eq_some_iff o op).2 hop)

/-- A constant, or a number of dice or sides, that is too small or too large. -/
inductive OutOfRange : Datum → Prop
  | const {n : Int} : ¬ Value.Fits n → OutOfRange (.object [("Constant", .int n)])
  | dice {fields : List (String × Datum)} {name : String} {n : Int} : name ∈ ["count", "sides"] →
      fields.lookup name = some (.int n) → ¬ FitsCount n → OutOfRange (.object [("DiceRoll", .object fields)])

theorem decode?_eq_none_of_outOfRange (h : OutOfRange d) : decode? d = none := by
  cases h with
  | @const n hmisfit => exact (faithful.decode?_eq_none_iff (w := .const n) rfl).2 hmisfit
  | @dice fields name n hname hlookup hmisfit =>
    refine Option.eq_none_iff_forall_ne_some.2 fun e he => hmisfit ?_
    obtain ⟨count, sides, ⟨_, ⟨⟩, hfields, -⟩, -⟩ := decodeDice?_eq_some_iff.1 he
    simp only [List.map_cons, List.map_nil, List.cons.injEq, and_true] at hfields
    simp only [List.mem_cons, List.not_mem_nil, or_false] at hname
    obtain rfl | rfl := hname
    · obtain rfl : (count.toNat : Int) = n := by simpa [hfields.1] using hlookup
      exact fitsCount_toNat count
    · obtain rfl : (sides.toNat : Int) = n := by simpa [hfields.2] using hlookup
      exact fitsCount_toNat sides

end Expr

theorem Token.decode?_eq_none_of_part {d kind text : Datum} (h : SpellsRecord .free ["kind", "text"] [kind, text] d)
    (hpart : Kind.decode? kind = none ∨ text.text? = none) : decode? d = none := by
  rw [decode?, record?_eq_some_iff.2 h]
  obtain hkind | htext := hpart
  · simp [hkind]
  · simp [htext]

theorem Evaluation.decode?_eq_none_of_part {d value trace : Datum}
    (h : SpellsRecord .free ["value", "trace"] [value, trace] d)
    (hpart : value.value? = none ∨ trace.text? = none) : decode? d = none := by
  rw [decode?, record?_eq_some_iff.2 h]
  obtain hvalue | htrace := hpart
  · simp [hvalue]
  · simp [htrace]

/-- **Data survive the trip.** Kinds, operators, tokens, expressions and evaluations are read back as they were written,
from every free spelling, and are written in the only canonical one. Numbers that do not fit are not read, and neither
is anything that has a part that is not read. -/
theorem Datum.forms_faithful :
    Faithful Token.Kind.encode Token.Kind.decode? id (fun _ => True) Token.Kind.Spelled ∧
    Faithful Operator.encode Operator.decode? id (fun _ => True) Operator.Spelled ∧
    Faithful Token.encode Token.decode? id (fun _ => True) Token.Spelled ∧
    Faithful Evaluation.encode Evaluation.decode? Evaluation.content (fun w => Value.Fits w.1) Evaluation.Spelled ∧
    Faithful Expr.encode Expr.decode? Expr.outline Expr.Outline.Fits Expr.Outline.Spelled ∧
    (∀ kind text d, SpellsRecord .free ["kind", "text"] [kind, text] d →
      Token.Kind.decode? kind = none ∨ text.text? = none → Token.decode? d = none) ∧
    (∀ value trace d, SpellsRecord .free ["value", "trace"] [value, trace] d →
      value.value? = none ∨ trace.text? = none → Evaluation.decode? d = none) ∧
    (∀ l o r, Operator.decode? o = none → Expr.decode? (Expr.operation l o r) = none) ∧
    (∀ part d, Expr.Within part d → Expr.decode? part = none → Expr.decode? d = none) ∧
    ∀ part, Expr.OutOfRange part → Expr.decode? part = none :=
  ⟨Token.Kind.faithful, Operator.faithful, Token.faithful, Evaluation.faithful, Expr.faithful,
    fun _ _ _ => Token.decode?_eq_none_of_part, fun _ _ _ => Evaluation.decode?_eq_none_of_part,
    fun _ _ _ => Expr.decode?_eq_none_of_operator, fun _ _ => Expr.decode?_eq_none_of_within,
    fun _ => Expr.decode?_eq_none_of_outOfRange⟩

/-- The data of `1 - x * 2` for the data `x`. -/
def Datum.inProduct (x : Datum) : Datum :=
  Expr.operation (Expr.const 1).encode Operator.sub.encode (Expr.operation x Operator.mul.encode (Expr.const 2).encode)

/-- One die too many for the word that counts them, with an unknown field before it. -/
theorem Datum.inProduct_overflow :
    Expr.decode? (inProduct (.object [("DiceRoll",
      .object [("more", .null), ("count", .int 0x100000000), ("sides", .int 6)])])) = none := by
  obtain ⟨-, -, -, -, -, -, -, -, hwithin, hrange⟩ := Datum.forms_faithful
  refine hwithin _ _ (.right (.left .self)) (hrange _ (@Expr.OutOfRange.dice _ "count" _ ?_ rfl ?_))
  · exact List.mem_cons_self
  · simp [FitsCount]

/-- Fields in any order with an unknown one among them, and an operator as a field. -/
example :
    Expr.decode? (.object [("BinaryOp", .array
      [.object [("DiceRoll", .object [("sides", .int 6), ("more", .array [.null]), ("count", .int 3)])],
        .object [("Add", .null)], .object [("Constant", .int (-2))]])]) =
      some (.binary .add (.dice 3 6) (.const (-2))) := by
  decide +kernel

end DiceNotation
