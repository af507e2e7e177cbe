import SquealDb.Table.RowReading

/-!
# What `encode_row` stores

A row whose values are all of their columns' types is packed; any other is stored with each
value tagged.  Either way, and in the fixed-width form of earlier builds, its bytes are a
`Form` of its values, up to the capacity reserved for a string or blob.

A packed row says where a column ends in at most four bytes, and a tagged one how long a
string or blob is: rows of `2 ^ 32` bytes before the last column, and strings as long as that,
are past what either can say.
-/

namespace SquealDb.Table

open Codec Codec.KeyCode Lib Sql

/-- Two rows are equal value by value, as `ValueItem`s are: reserved capacities aside. -/
def SameRow (vs ws : List ValueItem) : Prop := List.Forall₂ (fun v w => v.eq w = true) vs ws

theorem SameRow.refl (vs : List ValueItem) : SameRow vs vs :=
  List.forall₂_same.mpr fun v _ => v.eq_refl

theorem SameRow.length_eq {vs ws : List ValueItem} (h : SameRow vs ws) : vs.length = ws.length :=
  List.Forall₂.length_eq h

variable {v : ValueItem} {types : List DataType} {row : List ValueItem} {out : List UInt8}
  {fields : SchemaVersion}

theorem SameRow.eq_of_getElem? {vs ws : List ValueItem} (h : SameRow vs ws) {i : Nat}
    {w : ValueItem} (hv : vs[i]? = some v) (hw : ws[i]? = some w) : v.eq w = true := by
  induction h generalizing i with
  | nil => exact nomatch hv
  | cons hhead _ ih =>
    cases i with
    | zero =>
      obtain rfl := Option.some.inj hv
      obtain rfl := Option.some.inj hw
      exact hhead
    | succ i => exact ih hv hw

/-- Every value is `NULL` or of its column's type and within its capacity. -/
def OfTypes (types : List DataType) (row : List ValueItem) : Prop :=
  ∀ c ∈ row.zip types, (packedBytes c.1 c.2).isSome

/-- The columns' bytes in a packed row. -/
def packedParts (types : List DataType) (row : List ValueItem) : List (List UInt8) :=
  (row.zip types).map fun c => (packedBytes c.1 c.2).getD []

/-- The row is within what its stored form can say: packed, all columns but the last take less
than `2 ^ 32` bytes; tagged, each string or blob does. -/
structure Sayable (types : List DataType) (row : List ValueItem) : Prop where
  packed : OfTypes types row → Packed.EndsFit (packedParts types row)
  tagged : ¬ OfTypes types row → ∀ v ∈ row, v.Short

/-- The row as a packed row reads back. -/
def recapped (types : List DataType) (row : List ValueItem) : List ValueItem :=
  (row.zip types).map fun c => recap c.2 c.1

/-- The row as a fixed-width row reads back. -/
def cappedRow (types : List DataType) (row : List ValueItem) : List ValueItem :=
  (row.zip types).map fun c => RowLayout.capped c.1 c.2

/-! ## Capacities -/

theorem eq_recap (t : DataType) (v : ValueItem) : v.eq (recap t v) = true := by
  cases t <;> cases v <;> simp [recap, ValueItem.eq]

theorem eq_capped (v : ValueItem) (t : DataType) : v.eq (RowLayout.capped v t) = true := by
  unfold RowLayout.capped
  split
  · split <;> simp [ValueItem.eq]
  · split <;> simp [ValueItem.eq]
  · exact v.eq_refl

private theorem not_lt_of_toNat_le {len : Nat} {cap : UInt32} (h : len ≤ cap.toNat) :
    ¬ UInt32.ofNat len > cap := by
  have hlt := cap.toNat_lt
  rw [gt_iff_lt, UInt32.lt_iff_toNat_lt, UInt32.toNat_ofNat', Nat.mod_eq_of_lt (by omega)]
  omega

/-- A value in its column's bytes is within the column's capacity. -/
theorem validate_recap {t : DataType} (h : (packedBytes v t).isSome) :
    (recap t v).validate = .ok () := by
  cases v with
  | str s cap =>
    cases t <;> simp only [packedBytes, Option.isSome_none, Bool.false_eq_true] at h
    split at h
    · next hle => exact if_neg (not_lt_of_toNat_le hle)
    · exact absurd h Bool.false_ne_true
  | blob b cap =>
    cases t <;> simp only [packedBytes, Option.isSome_none, Bool.false_eq_true] at h
    split at h
    · next hle => exact if_neg (not_lt_of_toNat_le hle)
    · exact absurd h Bool.false_ne_true
  | null => cases t <;> rfl
  | integer i => cases t <;> rfl
  | double bits => cases t <;> rfl
  | datetime d => cases t <;> rfl
  | boolean b => cases t <;> rfl

theorem validate_capped (t : DataType) (h : v.validate = .ok ()) :
    (RowLayout.capped v t).validate = .ok () := by
  unfold RowLayout.capped
  split
  · split
    · next hle => exact if_neg (not_lt_of_toNat_le hle)
    · exact h
  · split
    · next hle => exact if_neg (not_lt_of_toNat_le hle)
    · exact h
  · exact h

section

variable {types : List DataType} {row : List ValueItem}

/-- Mapping a row's columns to equal values gives an equal row. -/
theorem sameRow_map (hlen : row.length = types.length) {f : ValueItem × DataType → ValueItem}
    (hf : ∀ c : ValueItem × DataType, c.1.eq (f c) = true) : SameRow row
    ((row.zip types).map f) := by
  induction row generalizing types with
  | nil => exact .nil
  | cons v row ih =>
    cases types with
    | nil => exact nomatch hlen
    | cons t types => exact .cons (hf (v, t)) (ih (Nat.succ.inj hlen))

end

/-! ## The packed form -/

theorem Packing.fill_isSome {pos : Nat} {columns : List (ValueItem × DataType)} {p : Packing}
    (h : ∀ c ∈ columns, (packedBytes c.1 c.2).isSome) : (Packing.fill pos columns p).isSome := by
  induction columns generalizing pos p with
  | nil => rfl
  | cons c columns ih =>
    obtain ⟨bytes, hbytes⟩ := Option.isSome_iff_exists.mp (h c List.mem_cons_self)
    simp only [Packing.fill, Packing.push, hbytes, Option.bind_eq_bind, Option.bind_some,
      Option.pure_def]
    exact ih fun d hd => h d (List.mem_cons_of_mem c hd)

theorem encode_ofTypes (h : Packed.encode types row = some out) : OfTypes types row := by
  obtain ⟨p, parts, -, hwritten⟩ := Packed.parse_encode h
  intro c hc
  obtain ⟨pos, hpos⟩ := List.mem_iff_getElem?.mp hc
  obtain ⟨bytes, -, hbytes⟩ := hwritten.getElem?_parts hpos
  rw [hbytes]
  rfl

theorem encode_isSome (hlen : row.length = types.length) (hne : types.length ≠ 0)
    (h : OfTypes types row) :
    (Packed.encode types row).isSome := by
  have hcond : ¬ (row.length ≠ types.length ∨ types.length = 0) := by omega
  rw [Packed.encode, if_neg hcond]
  have hfill : (Packing.fill 0 (row.zip types)
      ⟨[], [], List.replicate ((types.length + 7) / 8) 0, false⟩).isSome := Packing.fill_isSome h
  obtain ⟨q, hq⟩ := Option.isSome_iff_exists.mp hfill
  simp only [hq, Option.bind_eq_bind, Option.bind_some]
  rfl

/-- The parts a packed row was made of are its columns' bytes. -/
theorem Packed.Written.parts_packed {p : Packed} {parts : List (List UInt8)}
    (h : p.Written (row.zip types) parts) :
    parts = packedParts types row := by
  have hmap : ∀ {columns : List (ValueItem × DataType)} {parts : List (List UInt8)},
      List.Forall₂ (fun c bytes => packedBytes c.1 c.2 = some bytes) columns parts →
        parts = columns.map fun c => (packedBytes c.1 c.2).getD [] := by
    intro columns parts hall
    induction hall with
    | nil => rfl
    | cons hhead _ ih => rw [List.map_cons, hhead, ← ih, Option.getD_some]
  exact hmap h.parts_eq

/-- A packed row is a form of the row with its columns' capacities. -/
theorem form_packed (h : Packed.encode (SqlTable.types fields) row = some out)
    (hfit : Packed.EndsFit (packedParts (SqlTable.types fields) row)) :
    Form fields (recapped (SqlTable.types fields) row) out := by
  obtain ⟨p, parts, hparse, hwritten⟩ := Packed.parse_encode h
  rw [SqlTable.types, List.length_map] at hparse
  rw [← hwritten.parts_packed] at hfit
  refine .packed p hparse ?_
  intro i f v hf hv
  rw [recapped, List.getElem?_map, Option.map_eq_some_iff] at hv
  obtain ⟨⟨w, t⟩, hc, rfl⟩ := hv
  have ht := (List.getElem?_zip_eq_some.mp hc).2
  rw [SqlTable.types, List.getElem?_map, hf, Option.map_some] at ht
  obtain rfl : f.datatype = t := Option.some.inj ht
  exact hwritten.value_eq hfit hc

theorem parse_toBytes (hlen : row.length = fields.length) :
    Packed.parse (IndexKey.toBytes row) fields.length = none :=
  parse_counted (by rw [hlen]) _

/-- A row with each value tagged is a form of itself. -/
theorem form_tagged (hlen : row.length = fields.length) (hcount : row.length < 2 ^ 63)
    (hshort : ∀ v ∈ row, v.Short) : Form fields row (IndexKey.toBytes row) :=
  .tagged (parse_toBytes hlen) (fixedCount_tagged hcount _) rfl hshort

/-- What `encode_row` stores is a form of the row, reserved capacities aside. -/
theorem form_rowBytes {t : SqlTable} {row : IndexKey} (hlen : row.length = t.fields.length)
    (hcount : row.length < 2 ^ 63) (hvalid : ∀ v ∈ row, v.validate = .ok ())
    (hsay : Sayable (SqlTable.types t.fields) row) :
    ∃ vs, Form t.fields vs (t.rowBytes row) ∧ SameRow row vs ∧ ∀ v ∈ vs, v.validate = .ok () := by
  have htypes : row.length = (SqlTable.types t.fields).length := by
    rw [SqlTable.types, List.length_map, hlen]
  rw [SqlTable.rowBytes]
  cases hencode : Packed.encode (SqlTable.types t.fields) row with
  | some out =>
    have htyped := encode_ofTypes hencode
    refine ⟨_, form_packed hencode (hsay.packed htyped),
      sameRow_map htypes fun c => eq_recap c.2 c.1, ?_⟩
    intro v hv
    obtain ⟨c, hc, rfl⟩ := List.mem_map.mp hv
    exact validate_recap (htyped c hc)
  | none =>
    refine ⟨row, form_tagged hlen hcount ?_, .refl row, hvalid⟩
    by_cases hzero : (SqlTable.types t.fields).length = 0
    · intro v hv
      rw [List.length_eq_zero_iff.mp (htypes.trans hzero)] at hv
      exact absurd hv List.not_mem_nil
    · refine hsay.tagged fun htyped => ?_
      have hsome := encode_isSome htypes hzero htyped
      rw [hencode] at hsome
      exact absurd hsome Bool.false_ne_true

/-- What earlier builds stored is a form of the row, reserved capacities aside. -/
theorem form_fixed {l : RowLayout} (hl : SqlTable.layout fields = some l)
    (hcount : row.length < 2 ^ 63) (h : l.encode (SqlTable.types fields) row = some out) :
    Form fields (cappedRow (SqlTable.types fields) row) out ∧ row.length = fields.length := by
  obtain ⟨hlen, hcolumns, houtlen, segments, hall, hout, hcolumn⟩ := RowLayout.encode_holds hl h
  have hfields : row.length = fields.length := by
    rw [hlen, SqlTable.types, List.length_map]
  have hparse : Packed.parse out fields.length = none := by
    rw [hout]
    exact parse_counted (by rw [or_fixedRow_mod hcount, hfields]) _
  have hfixed : RowLayout.fixedCount out = some (UInt64.ofNat row.length) := by
    rw [hout]
    exact fixedCount_fixed hcount _
  refine ⟨.fixed l _ hparse hfixed hl ?_ ?_ houtlen.symm ?_, hfields⟩
  · rw [hcolumns, ← hlen, UInt64.toNat_ofNat', Nat.mod_eq_of_lt (by omega)]
  · rw [hcolumns, ← hlen, hfields]
  · intro i v hv
    rw [cappedRow, List.getElem?_map, Option.map_eq_some_iff] at hv
    obtain ⟨c, hc, rfl⟩ := hv
    obtain ⟨hlt, hget⟩ := List.getElem?_eq_some_iff.mp hc
    have hlt' : i < segments.length := by rw [← hall.length_eq]; exact hlt
    have hholds := (List.forall₂_iff_get.mp hall).2 i hlt hlt'
    rw [List.get_eq_getElem, List.get_eq_getElem, hget] at hholds
    obtain ⟨n, hdecode⟩ := hholds.decode
    exact ⟨n, by rw [hcolumn i _ (List.getElem?_eq_getElem hlt'), hdecode]⟩

end SquealDb.Table
