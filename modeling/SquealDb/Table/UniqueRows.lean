import SquealDb.Codec.KeyOrder
import SquealDb.Table.IndexAgreement

/-!
# Rows told apart

The rows of a partition that a run commits read back, each under its own key, and no two of them
have equal values in the columns of the primary key or of a unique index. `NULL`s are equal there.
-/

namespace SquealDb.Table

open Codec Lib Sql Store

/-- The partition has the row under the key. -/
def StoredTable.HasRow (c : Catalog) (t : StoredTable) (p : Nat) (part : StoredPartition)
    (m : TreeKey → Option (List UInt8)) (id : List UInt8) (row : IndexKey) : Prop :=
  ∃ data key, m ⟨part.rows, id⟩ = some data ∧ t.IsPlaced c.text p id data row key

/-- The index keeps its values apart: the primary key, or a unique index with a tree. -/
def StoredTable.Distinct (t : StoredTable) (index : SqlIndex) : Prop :=
  t.table.primaryKey = some index ∨ index.hasTree = true ∧ index.isUnique = true

theorem encode_record_congr {j k : IndexKey} (h : IndexKey.eq j k = true) :
    KeyCode.encode (.record j) [] = KeyCode.encode (.record k) [] := by
  rw [← Std.compare_eq_iff_eq (α := List UInt8), DBIdType.compare_encode, DBIdType.cmp_eq_iff]
  exact h

variable {c : Catalog} {m : TreeKey → Option (List UInt8)} {name : String} {t : StoredTable}
  {p i : Nat} {part : StoredPartition} {index : SqlIndex} {id id' : List UInt8}
  {row row' : IndexKey}

/-- Rows with the same primary key are one row. -/
theorem StoredTable.HasRow.primary_unique (h : t.HasRow c p part m id row)
    (h' : t.HasRow c p part m id' row') (hpk : t.table.primaryKey = some index)
    (heq : IndexKey.eq (t.table.extractFieldValues index.fields row)
      (t.table.extractFieldValues index.fields row') = true) : id = id' := by
  have hkey : ∀ {id row}, t.HasRow c p part m id row →
      id = KeyCode.encode (.record (t.table.extractFieldValues index.fields row)) [] := by
    rintro id row ⟨data, key, -, hplaced⟩
    have hat := hplaced.key_eq
    unfold StoredTable.keyAt at hat
    rw [hpk] at hat
    obtain ⟨values, hvalues, rfl⟩ := Option.map_eq_some_iff.mp hat
    rw [← newRow_eq (StoredTable.toOption_eq_some.mp hvalues)]
    exact hplaced.encode_eq.symm
  rw [hkey h, hkey h', encode_record_congr heq]

/-- Rows with the same entry in a unique index are one row. -/
theorem StoredTable.HasRow.index_unique (hc : Consistent c m) (ht : c.tables name = some t)
    (hp : t.partitions[p]? = some part) (hi : t.table.indices[i]? = some index)
    (htree : index.hasTree = true) (hunique : index.isUnique = true)
    (h : t.HasRow c p part m id row) (h' : t.HasRow c p part m id' row')
    (heq : IndexKey.eq (t.table.extractFieldValues index.fields row)
      (t.table.extractFieldValues index.fields row') = true) : id = id' := by
  obtain ⟨hlt, hget⟩ := List.getElem?_eq_some_iff.mp hp
  have hagrees := hc.entries name t ht i index hi htree
  have hentry : ∀ {id row}, t.HasRow c p part m id row → ∃ data d,
      m ((t.indexing c.text index i).entryAt (⟨p, hlt⟩, KeyCode.encode (.record
        (t.table.extractFieldValues index.fields row)) [])) = some d ∧
      (t.indexing c.text index i).entryOf (⟨p, hlt⟩, id) data = some ((⟨p, hlt⟩, KeyCode.encode
        (.record (t.table.extractFieldValues index.fields row)) []), d) := by
    rintro id row ⟨data, key, hdata, hplaced⟩
    obtain ⟨e, d, he, hd⟩ := hagrees.entry_of_row (⟨p, hlt⟩, id) data (by
      show m ⟨(t.partitions.get _).rows, id⟩ = some data
      rw [List.get_eq_getElem, hget]
      exact hdata)
    obtain ⟨w, hw, hwe⟩ := Option.map_eq_some_iff.mp he
    obtain ⟨row₀, identity, k, hplaced₀, hk, -, rfl⟩ := StoredTable.entry_eq_some hw
    obtain ⟨rfl, rfl⟩ := Prod.mk.inj (Option.some.inj (hplaced₀.symm.trans hplaced.placed_eq))
    -- a unique index's entry is under the row's values alone
    have hrecord : k = .record (t.table.extractFieldValues index.fields row₀) := by
      unfold StoredTable.indexKey at hk
      dsimp only at hk
      rw [if_pos hunique] at hk
      obtain ⟨values, hvalues, hk⟩ := bind_ok_iff.mp hk
      rw [← Except.ok.inj hk, newRow_eq hvalues]
    obtain ⟨rfl, rfl⟩ := Prod.mk.inj hwe
    rw [hrecord] at he hd
    exact ⟨data, _, hd, he⟩
  obtain ⟨data, d, hd, he⟩ := hentry h
  obtain ⟨data', d', hd', he'⟩ := hentry h'
  rw [encode_record_congr heq] at hd he
  obtain rfl := Option.some.inj (hd.symm.trans hd')
  exact (Prod.mk.inj ((t.indexing c.text index i).row_unique he' he)).2

/-- In every committed state of a run in which no transaction is committed that a statement failed
in once it had written, each tuple of a partition is a row of the table under its own key, and rows
with equal values in the primary key or in a unique index are one row. -/
theorem unique_rows (c : Schema) {db : Db TreeKey (List UInt8)} (hdb : Db.Reachable db)
    (hc : Consistent c.toCatalog db.committedRow) (sequences : String → Option UInt64)
    {s : Server TreeKey (List UInt8) String StatementError}
    (h : Lib.Reachable (Server.step (language c.toCatalog)) Server.CommitsWhole
      ⟨db, sequences, fun _ => none⟩ s) :
    ∀ (name : String) (t : StoredTable) (p : Nat) (part : StoredPartition),
      c.tables name = some t → t.partitions[p]? = some part →
      (∀ id, s.db.committedRow ⟨part.rows, id⟩ ≠ none →
        ∃ row, t.HasRow c.toCatalog p part s.db.committedRow id row) ∧
      ∀ index ∈ t.table.indices, t.Distinct index → ∀ id id' row row',
        t.HasRow c.toCatalog p part s.db.committedRow id row →
        t.HasRow c.toCatalog p part s.db.committedRow id' row' →
        IndexKey.eq (t.table.extractFieldValues index.fields row)
          (t.table.extractFieldValues index.fields row') = true → id = id' := by
  intro name t p part ht hp
  have hcommitted := Server.committed_keeps (language_keeps c) hdb hc h
  constructor
  · intro id hid
    obtain ⟨data, hdata⟩ := Option.ne_none_iff_exists'.mp hid
    obtain ⟨row, key, hplaced⟩ := hcommitted.rows name t ht p part hp id data hdata
    exact ⟨row, data, key, hdata, hplaced⟩
  · intro index hindex hdistinct id id' row row' hrow hrow' heq
    rcases hdistinct with hpk | ⟨htree, hunique⟩
    · exact hrow.primary_unique hrow' hpk heq
    · obtain ⟨i, hi⟩ := List.mem_iff_getElem?.mp hindex
      exact hrow.index_unique hcommitted ht hp hi htree hunique hrow' heq

/-- The two rows differ in their `b`, and the third is not there. -/
theorem unique_rows_two_pairs :
    let s : PairServer := run (Server.step (language pairCatalog)) noPairs pairsAndDuplicate
    s.db.committedRow refusedKey = none ∧ ∃ row row',
      pairTable.HasRow pairCatalog 0 ⟨⟨"p", .all⟩, 10, [0, 11]⟩ s.db.committedRow
        firstKey.id row ∧
      pairTable.HasRow pairCatalog 0 ⟨⟨"p", .all⟩, 10, [0, 11]⟩ s.db.committedRow
        secondKey.id row' ∧
      IndexKey.eq (pairTable.table.extractFieldValues [⟨1, "b", .integer, false, none⟩] row)
        (pairTable.table.extractFieldValues [⟨1, "b", .integer, false, none⟩] row') = false := by
  have hreach : Lib.Reachable (Server.step (language pairSchema.toCatalog)) Server.CommitsWhole
      noPairs (run (Server.step (language pairCatalog)) noPairs pairsAndDuplicate) :=
    reachable_run pairsAndDuplicate (by decide +kernel)
  have hempty : (Db.new : Db TreeKey (List UInt8)).committedRow = fun _ => none := rfl
  have hfacts := unique_rows pairSchema Lib.Reachable.init
    (hempty ▸ consistent_none pairSchema.toCatalog) _ hreach "t" pairTable 0
    ⟨⟨"p", .all⟩, 10, [0, 11]⟩ rfl rfl
  obtain ⟨row, hrow⟩ := hfacts.1 firstKey.id (by decide +kernel)
  obtain ⟨row', hrow'⟩ := hfacts.1 secondKey.id (by decide +kernel)
  refine ⟨by decide +kernel, row, row', hrow, hrow', eq_false_of_ne_true fun heq => ?_⟩
  have hsame := hfacts.2 ⟨none, false, true, [⟨1, "b", .integer, false, none⟩]⟩
    (by decide) (Or.inr (by decide)) _ _ _ _ hrow hrow' heq
  exact absurd hsame (by decide +kernel)

end SquealDb.Table
