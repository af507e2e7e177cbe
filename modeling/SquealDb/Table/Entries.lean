import SquealDb.Lib.Overlay
import SquealDb.Table.RowForms
import SquealDb.Table.Statements

/-!
# A row and its entries

Where a stored row belongs, and the entries that `row_tuples` makes of it: a row that an INSERT
or an UPDATE stores reads back as it was, so that its partition, its key and its entries can be
told from the tuple alone.
-/

namespace SquealDb.Table

open Codec Lib Sql

/-! ## Rows read back -/

namespace Packed

theorem body_data_le {header : UInt8} {rest : List UInt8} {columns : Nat} {p : Packed}
    (h : body header rest columns = some p) : p.data.length ≤ rest.length := by
  have hsplit : ∀ {bytes : List UInt8} {n : Nat} {r : List UInt8 × List UInt8},
      splitAtChecked bytes n = some r → r.2.length ≤ bytes.length := by
    intro bytes n r hr
    unfold splitAtChecked at hr
    split at hr
    · obtain rfl := Option.some.inj hr
      rw [List.length_drop]
      exact Nat.sub_le _ _
    · cases hr
  unfold body at h
  simp only [Option.bind_eq_bind, Option.bind_eq_some_iff] at h
  obtain ⟨width, -, ⟨nulls, after⟩, hnulls, ⟨ends, data⟩, hends, hp⟩ := h
  obtain rfl := Option.some.inj hp
  have hafter : after.length ≤ rest.length := by
    unfold nullsOf at hnulls
    split at hnulls
    · obtain ⟨r, hr, heq⟩ := Option.map_eq_some_iff.mp hnulls
      cases heq
      exact hsplit hr
    · cases hnulls
      exact Nat.le_refl _
  exact Nat.le_trans (hsplit hends) hafter

theorem parse_data_le {row : List UInt8} {columns : Nat} {p : Packed}
    (h : parse row columns = some p) : p.data.length ≤ row.length := by
  unfold parse at h
  split at h
  · cases h
  · split at h
    · split at h
      · cases h
      · have hle := body_data_le h
        simp only [List.length_cons]
        omega
    · cases h

/-- The ends of a packed row of less than `2 ^ 32` bytes fit theirs. -/
theorem endsFit_of_length {types : List DataType} {row : List ValueItem} {out : List UInt8}
    (h : encode types row = some out) (hlen : out.length < 2 ^ 32) :
    EndsFit (packedParts types row) := by
  obtain ⟨p, parts, hparse, hwritten⟩ := parse_encode h
  rw [← hwritten.parts_packed]
  have hdata := parse_data_le hparse
  rw [hwritten.data_eq] at hdata
  have hreach := reach_le parts (parts.length - 1)
  unfold EndsFit
  omega

end Packed

/-- A row as an INSERT or UPDATE writes it: a value for each column, each as its column's type
has it. -/
structure TypedRow (types : List DataType) (row : List ValueItem) : Prop where
  length_eq : row.length = types.length
  recap_eq : ∀ c ∈ row.zip types, recap c.2 c.1 = c.1

theorem TypedRow.recapped_eq {types : List DataType} {row : List ValueItem}
    (h : TypedRow types row) : recapped types row = row := by
  have hmap : (row.zip types).map (fun c => recap c.2 c.1) = (row.zip types).map Prod.fst :=
    List.map_congr_left h.recap_eq
  rw [recapped, hmap, List.map_fst_zip (Nat.le_of_eq h.length_eq)]

theorem write_length_le {row : IndexKey} {v : ValueItem} (hv : v ∈ row) :
    v.write.length ≤ (IndexKey.toBytes row).length := by
  obtain ⟨before, after, rfl⟩ := List.append_of_mem hv
  simp only [IndexKey.toBytes, List.flatMap_append, List.flatMap_cons, List.length_append]
  omega

/-- A row reads back as it was stored. -/
theorem decodeRow_encodeRow {t : SqlTable} {row : List ValueItem}
    (hversions : t.versions.length ≤ 2 ^ 32) (hcolumns : t.fields.length < 2 ^ 63)
    (htyped : TypedRow (SqlTable.types t.fields) row) (hvalid : newRow row = .ok row)
    (hshort : (t.encodeRow row).length < 2 ^ 32) : t.decodeRow (t.encodeRow row) none =
    .ok row := by
  have hlen : row.length = t.fields.length := by
    rw [htyped.length_eq, SqlTable.types, List.length_map]
  have hall : ∀ v ∈ row, v.validate = .ok () := by
    rw [newRow] at hvalid
    cases hnew : IndexKey.newFromOwned row with
    | error e =>
      rw [hnew] at hvalid
      cases hvalid
    | ok key =>
      rw [hnew] at hvalid
      obtain rfl := Except.ok.inj hvalid
      exact IndexKey.newFromOwned_iff.mp hnew
  have hbytes : (t.rowBytes row).length < 2 ^ 32 := by
    refine Nat.lt_of_le_of_lt ?_ hshort
    simp only [SqlTable.encodeRow, StoredRow.toBytes, Postcard.bytes, List.length_append]
    omega
  have hform : Form t.fields row (t.rowBytes row) := by
    unfold SqlTable.rowBytes at hbytes ⊢
    cases hencode : Packed.encode (SqlTable.types t.fields) row with
    | some out =>
      rw [hencode] at hbytes
      have hpacked := form_packed hencode (Packed.endsFit_of_length hencode hbytes)
      rw [htyped.recapped_eq] at hpacked
      exact hpacked
    | none =>
      rw [hencode] at hbytes
      refine form_tagged hlen (by omega) fun v hv => RowLayout.short_of_length ?_
      have hle := write_length_le hv
      rw [Option.getD_none] at hbytes
      omega
  unfold SqlTable.decodeRow SqlTable.encodeRow
  rw [StoredRow.fromBytes_toBytes (Nat.lt_trans hbytes (by decide))]
  show t.decodeStoredRow ⟨t.version, t.rowBytes row⟩ none = .ok row
  rw [decodeStoredRow_form hform (SqlTable.fieldsAt_version hversions) (fun _ => rfl) hlen
    (by omega) hall none, if_pos rfl]
  exact congrArg Except.ok (masked_false 0 row)

/-! ## Keys and identities -/

theorem newRow_eq {values : List ValueItem} {key : IndexKey} (h : newRow values = .ok key) :
    key = values := by
  rw [newRow] at h
  cases hnew : values.forM ValueItem.validate with
  | error e =>
    rw [IndexKey.newFromOwned, hnew] at h
    cases h
  | ok u =>
    rw [IndexKey.newFromOwned, hnew] at h
    exact (Except.ok.inj h).symm

theorem putField_tight (out : List UInt8) (v : ValueItem) :
    KeyCode.putField out v.tight = KeyCode.putField out v := by
  cases v <;> rfl

/-- A key's bytes do not depend on the capacities of its strings and blobs. -/
theorem encodeRecord_congr {key other : IndexKey} (h : IndexKey.tight key = IndexKey.tight other)
    (out : List UInt8) : KeyCode.encodeRecord key out = KeyCode.encodeRecord other out := by
  have htight : ∀ (k : IndexKey) (out : List UInt8),
      (IndexKey.tight k).foldl KeyCode.putField out = k.foldl KeyCode.putField out := by
    intro k
    induction k with
    | nil => exact fun _ => rfl
    | cons v k ih =>
      intro out
      rw [IndexKey.tight, List.map_cons, List.foldl_cons, List.foldl_cons, putField_tight]
      exact ih _
  unfold KeyCode.encodeRecord
  rw [← htight key, h, htight other]

theorem tight_tight (key : IndexKey) :
    IndexKey.tight (IndexKey.tight key) = IndexKey.tight key := by
  rw [IndexKey.tight, IndexKey.tight, List.map_map]
  exact List.map_congr_left fun v _ => v.tight_tight

theorem tight_append (key other : IndexKey) :
    IndexKey.tight (key ++ other) = IndexKey.tight key ++ IndexKey.tight other := List.map_append

theorem identityOf_tight (id : DBIdType) :
    IndexKey.tight (identityOf id.tight) = IndexKey.tight (identityOf id) := by
  cases id with
  | int n => rfl
  | record key => exact tight_tight key

/-- The serialized keys of less than `2 ^ 64` bytes are told apart. -/
theorem postcardKey_injective {key other : IndexKey} (h : Postcard.key key = Postcard.key other)
    (hlen : (Postcard.key key).length < 2 ^ 64) : key = other := by
  have hreads : ∀ {k : IndexKey}, (Postcard.key k).length < 2 ^ 64 →
      Reads (Postcard.takeU64 >>= fun n => Postcard.takeValues n.toNat) (Postcard.key k) k := by
    intro k hk
    have hvalues : (k.flatMap Postcard.value).length < 2 ^ 64 := by
      refine Nat.lt_of_le_of_lt ?_ hk
      rw [Postcard.key, List.length_append]
      exact Nat.le_add_left _ _
    have hcount : k.length ≤ (k.flatMap Postcard.value).length := by
      clear hk hvalues
      induction k with
      | nil => exact Nat.le_refl _
      | cons v k ih =>
        have hpos : 0 < (Postcard.value v).length := by cases v <;> exact Nat.succ_pos _
        rw [List.flatMap_cons, List.length_append, List.length_cons]
        omega
    have hfits : ∀ v ∈ k, Reader.Fits v := by
      intro v hv
      obtain ⟨before, after, rfl⟩ := List.append_of_mem hv
      refine Reader.fits_of_length (Nat.lt_of_le_of_lt ?_ hvalues)
      simp only [List.flatMap_append, List.flatMap_cons, List.length_append]
      omega
    refine (Postcard.reads_takeU64 _).bind ?_
    rw [UInt64.toNat_ofNat', Nat.mod_eq_of_lt (by omega)]
    exact Postcard.reads_takeValues hfits
  have hkey := hreads hlen [] []
  have hother := hreads (h ▸ hlen) [] []
  rw [← h, hkey] at hother
  exact (Prod.mk.inj (Option.some.inj hother)).1

/-! ## The trees of a schema -/

/-- What a tree is for: a table's partition's rows, or its entries of an index. -/
structure Slot where
  table : String
  part : Nat
  index : Option Nat
  deriving DecidableEq, Repr

/-- The tree of a slot. -/
def Catalog.treeAt (c : Catalog) (s : Slot) : Option UInt64 := do
  let t ← c.tables s.table
  let p ← t.partitions[s.part]?
  match s.index with
  | none => some p.rows
  | some i => do
    let index ← t.table.indices[i]?
    if index.hasTree then some (p.index i) else none

/-- A schema as CREATE TABLE leaves it: no two of its trees are one, a table's columns have names
of their own, a column's default is as its type has it, and a table has as many versions and
columns as their numbers can tell. -/
structure Schema extends Catalog where
  distinct : ∀ s s' tree, toCatalog.treeAt s = some tree → toCatalog.treeAt s' = some tree → s = s'
  versions_le : ∀ name t, tables name = some t → t.table.versions.length ≤ 2 ^ 32
  fields_lt : ∀ name t, tables name = some t → t.table.fields.length < 2 ^ 63
  names_distinct : ∀ name t, tables name = some t → (t.table.fields.map (·.name)).Nodup
  default_typed : ∀ name t, tables name = some t → ∀ f ∈ t.table.fields, ∀ v,
    f.default = some v → recap f.datatype v = v

namespace StoredTable

/-- A stored row's key: its primary key's values, or else its number. -/
def keyAt (t : StoredTable) (id : List UInt8) (row : List ValueItem) : Option DBIdType :=
  match t.table.primaryKey with
  | some pk => (newRow (t.table.extractFieldValues pk.fields row)).toOption.map .record
  | none =>
    match KeyCode.decode id with
    | .ok (.int n) => some (.int n)
    | _ => none

/-- A stored row and its identity, where it belongs in the partition and under the key. -/
def placed (text : Text) (t : StoredTable) (p : Nat) (id data : List UInt8) :
    Option (IndexKey × IndexKey) := do
  let row ← (t.table.decodeRow data none).toOption
  let key ← t.keyAt id row
  if KeyCode.encode key [] = id ∧ t.partitionFor text row = .ok p then some (row, identityOf key)
  else none

/-- The key and the data of a stored row's entry in an index; a tree takes neither of a page's
length or more. -/
def entry (text : Text) (t : StoredTable) (p : Nat) (index : SqlIndex) (id data : List UInt8) :
    Option (List UInt8 × List UInt8) := do
  let (row, identity) ← t.placed text p id data
  let key ← (t.indexKey index row identity).toOption
  if (Postcard.key identity).length < 2 ^ 32 then
    some (KeyCode.encode key [], Postcard.key identity)
  else none

/-- The tuples that `row_tuples` makes of a stored row. -/
def tuplesAt (text : Text) (t : StoredTable) (id data : List UInt8) : Option RowTuples := do
  let row ← (t.table.decodeRow data none).toOption
  let key ← t.keyAt id row
  (t.tuplesOf text row key).toOption

/-- What belongs in a partition under a key: a row that may be stored, as its columns' types have
it, and the row's key. -/
structure IsPlaced (text : Text) (t : StoredTable) (p : Nat) (id data : List UInt8) (row : IndexKey)
    (key : DBIdType) : Prop where
  decode_eq : t.table.decodeRow data none = .ok row
  typed : TypedRow (SqlTable.types t.table.fields) row
  valid : newRow row = .ok row
  key_eq : t.keyAt id row = some key
  encode_eq : KeyCode.encode key [] = id
  partition_eq : t.partitionFor text row = .ok p

theorem toOption_eq_some {ε α : Type} {x : Except ε α} {a : α} :
    x.toOption = some a ↔ x = .ok a := by
  cases x with
  | error e => exact ⟨nofun, nofun⟩
  | ok b => exact ⟨fun h => congrArg _ (Option.some.inj h), fun h => congrArg _ (Except.ok.inj h)⟩

variable {text : Text} {t : StoredTable} {p : Nat} {id data : List UInt8}

variable {row : IndexKey} {key : DBIdType} {index : SqlIndex}

theorem IsPlaced.placed_eq (h : t.IsPlaced text p id data row key) :
    t.placed text p id data = some (row, identityOf key) := by
  simp only [placed, Option.bind_eq_bind, toOption_eq_some.mpr h.decode_eq, Option.bind_some,
    h.key_eq]
  exact if_pos ⟨h.encode_eq, h.partition_eq⟩

theorem placed_eq_some {identity : IndexKey} (h : t.placed text p id data = some (row, identity)) :
    t.table.decodeRow data none = .ok row ∧ t.partitionFor text row = .ok p ∧
      ∃ key, t.keyAt id row = some key ∧ KeyCode.encode key [] = id ∧ identity =
        identityOf key := by
  simp only [placed, Option.bind_eq_bind, Option.bind_eq_some_iff] at h
  obtain ⟨row', hrow, key, hkey, hif⟩ := h
  split at hif
  · next hcond =>
      obtain ⟨rfl, rfl⟩ := Prod.mk.inj (Option.some.inj hif)
      exact ⟨toOption_eq_some.mp hrow, hcond.2, key, hkey, hcond.1, rfl⟩
  · cases hif

/-- A key is its identity's, given what its table's keys are. -/
theorem keyAt_unique {id' : List UInt8} {row' : IndexKey} {key' : DBIdType}
    (h : t.keyAt id row = some key) (h' : t.keyAt id' row' = some key')
    (hid : identityOf key = identityOf key') : key = key' := by
  unfold keyAt at h h'
  split at h
  · next pk hpk =>
      rw [hpk] at h'
      obtain ⟨k, -, rfl⟩ := Option.map_eq_some_iff.mp h
      obtain ⟨k', -, rfl⟩ := Option.map_eq_some_iff.mp h'
      exact congrArg DBIdType.record hid
  · next hpk =>
      simp only [hpk] at h'
      split at h
      · next n hn =>
          split at h'
          · next n' hn' =>
              obtain rfl := Option.some.inj h
              obtain rfl := Option.some.inj h'
              have hcell := (List.cons.inj hid).1
              have hint : n.toInt64 = n'.toInt64 := ValueItem.integer.inj hcell
              have hnum : n = n' := congrArg Int64.toUInt64 hint
              rw [hnum]
          · cases h'
      · cases h

theorem entry_eq_some {e : List UInt8 × List UInt8} (h : t.entry text p index id data = some e) :
    ∃ row identity key, t.placed text p id data = some (row, identity) ∧
      t.indexKey index row identity = .ok key ∧ (Postcard.key identity).length < 2 ^ 32 ∧
      e = (KeyCode.encode key [], Postcard.key identity) := by
  simp only [entry, Option.bind_eq_bind, Option.bind_eq_some_iff] at h
  obtain ⟨⟨row, identity⟩, hplaced, key, hkey, hif⟩ := h
  split at hif
  · next hshort =>
      exact ⟨row, identity, key, hplaced, toOption_eq_some.mp hkey, hshort,
        (Option.some.inj hif).symm⟩
  · cases hif

theorem entry_eq {identity : IndexKey} (hplaced : t.placed text p id data = some (row, identity))
    (hkey : t.indexKey index row identity = .ok key)
    (hshort : (Postcard.key identity).length < 2 ^ 32) :
    t.entry text p index id data = some (KeyCode.encode key [], Postcard.key identity) := by
  simp only [entry, Option.bind_eq_bind, hplaced, Option.bind_some, toOption_eq_some.mpr hkey]
  exact if_pos hshort

/-- Rows of one partition with the same entry are the same row. -/
theorem entry_row_unique {id' data' : List UInt8} {e : List UInt8 × List UInt8}
    (h : t.entry text p index id data = some e) (h' : t.entry text p index id' data' = some e) :
    id' = id := by
  obtain ⟨row, identity, k, hplaced, -, hshort, rfl⟩ := entry_eq_some h
  obtain ⟨row', identity', k', hplaced', -, -, heq⟩ := entry_eq_some h'
  obtain ⟨-, hdata⟩ := Prod.mk.inj heq
  obtain ⟨-, -, key, hkey, rfl, rfl⟩ := placed_eq_some hplaced
  obtain ⟨-, -, key', hkey', rfl, rfl⟩ := placed_eq_some hplaced'
  have hid := postcardKey_injective hdata (Nat.lt_trans hshort (by decide))
  rw [keyAt_unique hkey hkey' hid]

/-- A table's rows and its entries of one index, partition by partition. -/
def indexing (text : Text) (t : StoredTable) (index : SqlIndex) (i : Nat) :
    Indexing TreeKey (List UInt8) (Fin t.partitions.length × List UInt8)
      (Fin t.partitions.length × List UInt8) where
  rowAt r := ⟨(t.partitions.get r.1).rows, r.2⟩
  entryAt e := ⟨(t.partitions.get e.1).index i, e.2⟩
  entryOf r data :=
    (t.entry text r.1 index r.2 data).map fun e => ((r.1, e.1), e.2)
  row_unique := by
    intro r r' x x' e d h h'
    obtain ⟨w, hw, hwe⟩ := Option.map_eq_some_iff.mp h
    obtain ⟨w', hw', hwe'⟩ := Option.map_eq_some_iff.mp h'
    have hpart : r.1 = r'.1 := by
      have heq := hwe.trans hwe'.symm
      exact (Prod.mk.inj (Prod.mk.inj heq).1).1
    have hentry : w' = w := by
      have heq := hwe'.trans hwe.symm
      obtain ⟨hkey, hdata⟩ := Prod.mk.inj heq
      exact Prod.ext (Prod.mk.inj hkey).2 hdata
    rw [← hpart, hentry] at hw'
    exact Prod.ext hpart.symm (entry_row_unique hw hw')

end StoredTable

end SquealDb.Table
