import SquealDb.Lib.Fallible
import SquealDb.Table.Entries

/-!
# Rows that come and go with their entries

The rows of a schema are consistent when each belongs where it is, as its columns' types have it,
and each index has the entries of the rows and no others. A statement that writes rows and
succeeds keeps them so.
-/

namespace SquealDb.Table

open Codec Lib Sql

/-- Each row belongs where it is, and each index agrees with the rows. -/
structure Consistent (c : Catalog) (m : TreeKey → Option (List UInt8)) : Prop where
  rows : ∀ name t, c.tables name = some t → ∀ p part, t.partitions[p]? = some part →
    ∀ id data, m ⟨part.rows, id⟩ = some data → ∃ row key, t.IsPlaced c.text p id data row key
  entries : ∀ name t, c.tables name = some t → ∀ i index, t.table.indices[i]? = some index →
    index.hasTree = true → Agrees (t.indexing c.text index i) m

/-! ## Trees of their own -/

namespace Catalog

variable {c : Catalog} {name name' : String} {t t' : StoredTable} {p p' i i' : Nat}
  {part part' : StoredPartition}

theorem treeAt_rows (ht : c.tables name = some t) (hp : t.partitions[p]? = some part) :
    c.treeAt ⟨name, p, none⟩ = some part.rows := by
  simp [treeAt, ht, hp]

theorem treeAt_index {index : SqlIndex} (ht : c.tables name = some t)
    (hp : t.partitions[p]? = some part) (hi : t.table.indices[i]? = some index)
    (htree : index.hasTree = true) : c.treeAt ⟨name, p, some i⟩ = some (part.index i) := by
  simp [treeAt, ht, hp, hi, htree]

end Catalog

namespace Schema

variable {c : Schema} {name name' : String} {t t' : StoredTable} {p p' i i' : Nat}
  {part part' : StoredPartition}

theorem rows_inj (ht : c.tables name = some t) (hp : t.partitions[p]? = some part)
    (ht' : c.tables name' = some t') (hp' : t'.partitions[p']? = some part')
    (h : part.rows = part'.rows) : t = t' ∧ p = p' ∧ part = part' := by
  have hslot := c.distinct _ _ _ (Catalog.treeAt_rows ht hp) (h ▸ Catalog.treeAt_rows ht' hp')
  obtain ⟨rfl, rfl, -⟩ := Slot.mk.inj hslot
  obtain rfl := Option.some.inj (ht.symm.trans ht')
  exact ⟨rfl, rfl, Option.some.inj (hp.symm.trans hp')⟩

theorem rows_ne_index {index : SqlIndex} (ht : c.tables name = some t)
    (hp : t.partitions[p]? = some part) (ht' : c.tables name' = some t')
    (hp' : t'.partitions[p']? = some part') (hi : t'.table.indices[i]? = some index)
    (htree : index.hasTree = true) : part.rows ≠ part'.index i := by
  intro h
  have hslot := c.distinct _ _ _ (Catalog.treeAt_rows ht hp)
    (h ▸ Catalog.treeAt_index ht' hp' hi htree)
  cases (Slot.mk.inj hslot).2.2

theorem index_inj {index index' : SqlIndex} (ht : c.tables name = some t)
    (hp : t.partitions[p]? = some part) (hi : t.table.indices[i]? = some index)
    (htree : index.hasTree = true) (ht' : c.tables name' = some t')
    (hp' : t'.partitions[p']? = some part') (hi' : t'.table.indices[i']? = some index')
    (htree' : index'.hasTree = true) (h : part.index i = part'.index i') :
    t = t' ∧ p = p' ∧ part = part' ∧ i = i' ∧ index = index' := by
  have hslot := c.distinct _ _ _ (Catalog.treeAt_index ht hp hi htree)
    (h ▸ Catalog.treeAt_index ht' hp' hi' htree')
  obtain ⟨rfl, rfl, hsome⟩ := Slot.mk.inj hslot
  obtain rfl := Option.some.inj hsome
  obtain rfl := Option.some.inj (ht.symm.trans ht')
  exact ⟨rfl, rfl, Option.some.inj (hp.symm.trans hp'), rfl, Option.some.inj (hi.symm.trans hi')⟩

end Schema

/-! ## A row's tuples -/

/-- All the tuples of a row. -/
def RowTuples.tuples (b : RowTuples) : List (TreeKey × List UInt8) := (b.rows, b.row) :: b.entries

/-- What `row_tuples` makes of a row. -/
structure Built (c : Catalog) (t : StoredTable) (row : List ValueItem) (b : RowTuples) (p : Nat)
    (part : StoredPartition) (key : DBIdType) : Prop where
  key_eq : t.keyAt (KeyCode.encode key []) row = some key
  partition_eq : t.partitionFor c.text row = .ok p
  part_eq : t.partitions[p]? = some part
  valid : newRow row = .ok row
  keys : ∀ (i : Nat) index, t.table.indices[i]? = some index → index.hasTree = true →
    ∃ k, t.indexKey index row (identityOf key) = .ok k
  rows_eq : b.rows = ⟨part.rows, KeyCode.encode key []⟩
  row_eq : b.row = t.table.encodeRow row
  mem_entries : ∀ entry, entry ∈ b.entries ↔ ∃ (i : Nat) (index : SqlIndex) (k : DBIdType),
    t.table.indices[i]? = some index ∧ index.hasTree = true ∧
      t.indexKey index row (identityOf key) = .ok k ∧
      entry = (⟨part.index i, KeyCode.encode k []⟩, Postcard.key (identityOf key))

variable {t : StoredTable} {key : DBIdType}

theorem mem_indexesWithTree {index : SqlIndex} {i : Nat} :
    (index, i) ∈ t.indexesWithTree ↔ t.table.indices[i]? = some index ∧ index.hasTree = true := by
  rw [StoredTable.indexesWithTree, List.mem_filter, List.mem_zipIdx_iff_getElem?]

theorem built_of_tuplesOf {c : Catalog} {row : List ValueItem} {b : RowTuples}
    (hkey : t.keyAt (KeyCode.encode key []) row = some key)
    (h : t.tuplesOf c.text row key = .ok b) : ∃ p part, Built c t row b p part key := by
  unfold StoredTable.tuplesOf at h
  obtain ⟨p, hp, hafter⟩ := bind_ok_iff.mp h
  obtain ⟨part, hpart, hafter⟩ := bind_ok_iff.mp hafter
  obtain ⟨keys, hkeys, hafter⟩ := bind_ok_iff.mp hafter
  obtain ⟨row', hrow, hb⟩ := bind_ok_iff.mp hafter
  obtain rfl := newRow_eq hrow
  obtain rfl := Except.ok.inj hb
  have hmem : ∀ {i k}, (i, k) ∈ keys → ∃ index, t.table.indices[i]? = some index ∧
      index.hasTree = true ∧ t.indexKey index row' (identityOf key) = .ok k := by
    intro i k hik
    obtain ⟨⟨index, j⟩, hindex, hok⟩ := mem_of_forall₂ (forall₂_of_mapM hkeys) hik
    obtain ⟨k', hk', heq⟩ := bind_ok_iff.mp hok
    obtain ⟨rfl, rfl⟩ := Prod.mk.inj (Except.ok.inj heq)
    obtain ⟨hi, htree⟩ := mem_indexesWithTree.mp hindex
    exact ⟨index, hi, htree, hk'⟩
  have hall : ∀ {i index}, t.table.indices[i]? = some index → index.hasTree = true →
      ∃ k, (i, k) ∈ keys ∧ t.indexKey index row' (identityOf key) = .ok k := by
    intro i index hi htree
    obtain ⟨⟨j, k⟩, hjk, hok⟩ := mem_of_forall₂ (forall₂_of_mapM hkeys).flip
      (mem_indexesWithTree.mpr ⟨hi, htree⟩)
    obtain ⟨k', hk', heq⟩ := bind_ok_iff.mp hok
    obtain ⟨rfl, rfl⟩ := Prod.mk.inj (Except.ok.inj heq)
    exact ⟨k', hjk, hk'⟩
  refine ⟨p, part, hkey, hp, ?_, hrow, ?_, rfl, rfl, ?_⟩
  · unfold StoredTable.part at hpart
    split at hpart
    · next part' hpart' =>
        obtain rfl := Except.ok.inj hpart
        exact hpart'
    · cases hpart
  · intro i index hi htree
    obtain ⟨k, -, hk⟩ := hall hi htree
    exact ⟨k, hk⟩
  · intro entry
    rw [List.mem_map]
    constructor
    · rintro ⟨⟨i, k⟩, hik, rfl⟩
      obtain ⟨index, hi, htree, hk⟩ := hmem hik
      exact ⟨i, index, k, hi, htree, hk, rfl⟩
    · rintro ⟨i, index, k, hi, htree, hk, rfl⟩
      obtain ⟨k', hik, hk'⟩ := hall hi htree
      obtain rfl := Except.ok.inj (hk'.symm.trans hk)
      exact ⟨(i, k'), hik, rfl⟩

/-- A row's tuple reads back as the row, in its partition and under its key. -/
theorem Built.placed {c : Schema} {name : String} {row : List ValueItem} {b : RowTuples} {p : Nat}
    {part : StoredPartition} (ht : c.tables name = some t)
    (h : Built c.toCatalog t row b p part key)
    (htyped : TypedRow (SqlTable.types t.table.fields) row) (hshort : b.row.length < 2 ^ 32) :
    t.IsPlaced c.text p (KeyCode.encode key []) b.row row key := by
  rw [h.row_eq] at hshort ⊢
  exact ⟨decodeRow_encodeRow (c.versions_le name t ht) (c.fields_lt name t ht) htyped
    h.valid hshort,
    htyped, h.valid, h.key_eq, rfl, h.partition_eq⟩

/-! ## Rows that come -/

/-- Tuples come to the trees that take them. -/
structure Arrives (tuples : List (TreeKey × List UInt8)) (m m' : TreeKey → Option (List UInt8)) :
    Prop extends Joins tuples m m' where
  fits : ∀ tuple ∈ tuples, tuple.2.length < 2 ^ 32

namespace Arrives

variable {tuples more : List (TreeKey × List UInt8)} {m m' m'' : TreeKey → Option (List UInt8)}

theorem nil (m : TreeKey → Option (List UInt8)) : Arrives [] m m := ⟨Joins.nil m, nofun⟩

theorem append (h : Arrives tuples m m') (h' : Arrives more m' m'') :
    Arrives (tuples ++ more) m m'' := by
  refine ⟨h.toJoins.append h'.toJoins, ?_⟩
  intro tuple htuple
  rcases List.mem_append.mp htuple with htuple | htuple
  · exact h.fits tuple htuple
  · exact h'.fits tuple htuple

theorem perm (h : Arrives tuples m m') (hperm : more.Perm tuples) : Arrives more m m' :=
  ⟨h.toJoins.perm hperm, fun tuple htuple => h.fits tuple (hperm.mem_iff.mp htuple)⟩

end Arrives

/-- Tuples of rows of a table, each as its columns' types have it. -/
def TuplesOf (c : Catalog) (t : StoredTable) (builts : List RowTuples) : Prop :=
  ∀ b ∈ builts, ∃ row p part key,
    TypedRow (SqlTable.types t.table.fields) row ∧ Built c t row b p part key

section

variable {c : Schema} {name name' : String} {t t' : StoredTable} {builts : List RowTuples}
  {p i : Nat} {part : StoredPartition} {index : SqlIndex}

theorem TuplesOf.row_tuple (h : TuplesOf c.toCatalog t builts) (ht : c.tables name = some t)
    (ht' : c.tables name' = some t') (hp : t'.partitions[p]? = some part) {id data : List UInt8}
    (hmem : (⟨part.rows, id⟩, data) ∈ builts.flatMap RowTuples.tuples) :
    t = t' ∧ ∃ b ∈ builts, ∃ row key, TypedRow (SqlTable.types t.table.fields) row ∧
      Built c.toCatalog t row b p part key ∧ id = KeyCode.encode key [] ∧ data = b.row := by
  obtain ⟨b, hb, hmem⟩ := List.mem_flatMap.mp hmem
  obtain ⟨row, q, other, key, htyped, hbuilt⟩ := h b hb
  rcases List.mem_cons.mp hmem with heq | hentry
  · rw [hbuilt.rows_eq] at heq
    obtain ⟨hkey, hdata⟩ := Prod.mk.inj heq
    obtain ⟨htree, hid⟩ := TreeKey.mk.inj hkey
    obtain ⟨heqt, rfl, rfl⟩ := Schema.rows_inj ht' hp ht hbuilt.part_eq htree
    exact ⟨heqt.symm, b, hb, row, key, htyped, hbuilt, hid, hdata⟩
  · obtain ⟨j, index, k, hj, htree, -, heq⟩ := (hbuilt.mem_entries _).mp hentry
    have hsame := (TreeKey.mk.inj (Prod.mk.inj heq).1).1
    exact absurd hsame (Schema.rows_ne_index ht' hp ht hbuilt.part_eq hj htree)

theorem TuplesOf.entry_tuple (h : TuplesOf c.toCatalog t builts) (ht : c.tables name = some t)
    (ht' : c.tables name' = some t') (hp : t'.partitions[p]? = some part)
    (hi : t'.table.indices[i]? = some index) (htree : index.hasTree = true) {e d : List UInt8}
    (hmem : (⟨part.index i, e⟩, d) ∈ builts.flatMap RowTuples.tuples) :
    t = t' ∧ ∃ b ∈ builts, ∃ row key k, TypedRow (SqlTable.types t.table.fields) row ∧
      Built c.toCatalog t row b p part key ∧ t.indexKey index row (identityOf key) = .ok k ∧
      e = KeyCode.encode k [] ∧ d = Postcard.key (identityOf key) := by
  obtain ⟨b, hb, hmem⟩ := List.mem_flatMap.mp hmem
  obtain ⟨row, q, other, key, htyped, hbuilt⟩ := h b hb
  rcases List.mem_cons.mp hmem with heq | hentry
  · rw [hbuilt.rows_eq] at heq
    have hsame := (TreeKey.mk.inj (Prod.mk.inj heq).1).1
    exact absurd hsame.symm (Schema.rows_ne_index ht hbuilt.part_eq ht' hp hi htree)
  · obtain ⟨j, index', k, hj, htree', hk, heq⟩ := (hbuilt.mem_entries _).mp hentry
    obtain ⟨hkey, hdata⟩ := Prod.mk.inj heq
    obtain ⟨hsame, he⟩ := TreeKey.mk.inj hkey
    obtain ⟨heqt, rfl, rfl, rfl, rfl⟩ :=
      Schema.index_inj ht' hp hi htree ht hbuilt.part_eq hj htree' hsame
    exact ⟨heqt.symm, b, hb, row, key, k, htyped, hbuilt, hk, he, hdata⟩

/-- Rows come with their entries. -/
theorem Consistent.arrives {m m' : TreeKey → Option (List UInt8)}
    (hc : Consistent c.toCatalog m) (ht : c.tables name = some t)
    (hbuilts : TuplesOf c.toCatalog t builts)
    (hs : Arrives (builts.flatMap RowTuples.tuples) m m') : Consistent c.toCatalog m' := by
  have hrow : ∀ {b}, b ∈ builts → (b.rows, b.row) ∈ builts.flatMap RowTuples.tuples :=
    fun {b} hb => List.mem_flatMap.mpr ⟨b, hb, List.mem_cons_self⟩
  have hentry : ∀ {b entry}, b ∈ builts → entry ∈ b.entries →
      entry ∈ builts.flatMap RowTuples.tuples :=
    fun {b entry} hb he => List.mem_flatMap.mpr ⟨b, hb, List.mem_cons_of_mem _ he⟩
  constructor
  · intro name' t' ht' p part hp id data hdata
    by_cases hmem : (⟨part.rows, id⟩ : TreeKey) ∈ (builts.flatMap RowTuples.tuples).map Prod.fst
    · obtain ⟨⟨_, added⟩, htuple, rfl⟩ := List.mem_map.mp hmem
      have hadded := hs.added _ htuple
      rw [hdata] at hadded
      obtain rfl := Option.some.inj hadded
      obtain ⟨rfl, b, hb, row, key, htyped, hbuilt, rfl, rfl⟩ :=
        hbuilts.row_tuple ht ht' hp htuple
      exact ⟨row, key, hbuilt.placed ht htyped (hs.fits _ (hrow hb))⟩
    · rw [hs.kept _ hmem] at hdata
      exact hc.rows name' t' ht' p part hp id data hdata
  · intro name' t' ht' i index hi htree
    rw [hs.eq_joined]
    refine (hc.entries name' t' ht' i index hi htree).joined ?_ ?_
    · constructor
      · rintro ⟨p, id⟩ data hdata
        have hp : t'.partitions[p.1]? = some (t'.partitions.get p) := List.getElem?_eq_getElem p.2
        obtain ⟨rfl, b, hb, row, key, htyped, hbuilt, rfl, rfl⟩ :=
          hbuilts.row_tuple ht ht' hp (hs.restricted_eq.mp hdata)
        obtain ⟨k, hk⟩ := hbuilt.keys i index hi htree
        have hmem := hentry hb ((hbuilt.mem_entries _).mpr ⟨i, index, k, hi, htree, hk, rfl⟩)
        have hplaced := (hbuilt.placed ht htyped (hs.fits _ (hrow hb))).placed_eq
        refine ⟨(p, KeyCode.encode k []), Postcard.key (identityOf key), ?_, ?_⟩
        · show (t.entry c.text p index _ _).map _ = _
          rw [StoredTable.entry_eq hplaced hk (hs.fits _ hmem)]
          rfl
        · exact hs.restricted_eq.mpr hmem
      · rintro ⟨p, e⟩ d hd
        have hp : t'.partitions[p.1]? = some (t'.partitions.get p) := List.getElem?_eq_getElem p.2
        have hmem := hs.restricted_eq.mp hd
        obtain ⟨rfl, b, hb, row, key, k, htyped, hbuilt, hk, rfl, rfl⟩ :=
          hbuilts.entry_tuple ht ht' hp hi htree hmem
        have hplaced := (hbuilt.placed ht htyped (hs.fits _ (hrow hb))).placed_eq
        refine ⟨(p, KeyCode.encode key []), b.row, ?_, ?_⟩
        · have hthere := hrow hb
          rw [hbuilt.rows_eq] at hthere
          exact hs.restricted_eq.mpr hthere
        · show (t.entry c.text p index _ _).map _ = _
          rw [StoredTable.entry_eq hplaced hk (hs.fits _ hmem)]
          rfl
    · intro key hkey
      obtain ⟨data, hdata⟩ := Option.ne_none_iff_exists'.mp hkey
      exact hs.fresh _ (hs.restricted_eq.mp hdata)

end

/-! ## Rows that go -/

/-- The keys of a row and of its entries. -/
def KeysOf (t : StoredTable) (part : StoredPartition) (row : IndexKey) (key : DBIdType)
    (keys : List TreeKey) : Prop :=
  ∀ treeKey, treeKey ∈ keys ↔ treeKey = ⟨part.rows, KeyCode.encode key []⟩ ∨
    ∃ (i : Nat) (index : SqlIndex) (k : DBIdType), t.table.indices[i]? = some index ∧
      index.hasTree = true ∧ t.indexKey index row (identityOf key) = .ok k ∧
      treeKey = ⟨part.index i, KeyCode.encode k []⟩

/-- A row goes with its entries. -/
theorem Consistent.leaves {c : Schema} {m m' : TreeKey → Option (List UInt8)} {name : String}
    {p : Nat} {part : StoredPartition} {id data : List UInt8} {row : IndexKey}
    {keys : List TreeKey} (hc : Consistent c.toCatalog m) (ht : c.tables name = some t)
    (hp : t.partitions[p]? = some part) (hdata : m ⟨part.rows, id⟩ = some data)
    (hplaced : t.IsPlaced c.text p id data row key) (hkeys : KeysOf t part row key keys)
    (hl : Leaves keys m m') : Consistent c.toCatalog m' := by
  obtain rfl := hplaced.encode_eq
  have hrowkey : (⟨part.rows, KeyCode.encode key []⟩ : TreeKey) ∈ keys :=
    (hkeys _).mpr (Or.inl rfl)
  constructor
  · intro name' t' ht' p' part' hp' id' data' hdata'
    refine hc.rows name' t' ht' p' part' hp' id' data' ?_
    rw [← hl.kept _ ?_, hdata']
    intro hmem
    rw [hl.gone _ hmem] at hdata'
    cases hdata'
  · intro name' t' ht' i index hi htree
    have hagrees := hc.entries name' t' ht' i index hi htree
    rw [hl.eq_without]
    refine hagrees.without ?_ fun hg => (restricted_eq_some hg).2
    constructor
    · rintro ⟨q, id'⟩ data' hdata'
      obtain ⟨hmem, hthere⟩ := restricted_eq_some hdata'
      have hq : t'.partitions[q.1]? = some (t'.partitions.get q) := List.getElem?_eq_getElem q.2
      obtain ⟨e, d, he, hd⟩ := hagrees.entry_of_row _ _ hthere
      refine ⟨e, d, he, ?_⟩
      rw [restricted, if_pos ?_, hd]
      rcases (hkeys _).mp hmem with heq | ⟨j, index', k, hj, htree', -, heq⟩
      · obtain ⟨hsame, rfl⟩ := TreeKey.mk.inj heq
        obtain ⟨rfl, rfl, rfl⟩ := Schema.rows_inj ht' hq ht hp hsame
        obtain rfl := Option.some.inj (hdata.symm.trans hthere)
        obtain ⟨w, hw, hwe⟩ := Option.map_eq_some_iff.mp he
        obtain ⟨row', identity, k, hplaced', hk, -, rfl⟩ := StoredTable.entry_eq_some hw
        obtain ⟨rfl, rfl⟩ := Prod.mk.inj (Option.some.inj (hplaced'.symm.trans hplaced.placed_eq))
        obtain ⟨rfl, rfl⟩ := Prod.mk.inj hwe
        exact (hkeys _).mpr (Or.inr ⟨i, index, k, hi, htree, hk, rfl⟩)
      · have hsame := (TreeKey.mk.inj heq).1
        exact absurd hsame (Schema.rows_ne_index ht' hq ht hp hj htree')
    · rintro ⟨q, e⟩ d hd
      obtain ⟨hmem, hthere⟩ := restricted_eq_some hd
      have hq : t'.partitions[q.1]? = some (t'.partitions.get q) := List.getElem?_eq_getElem q.2
      rcases (hkeys _).mp hmem with heq | ⟨j, index', k, hj, htree', hk, heq⟩
      · have hsame := (TreeKey.mk.inj heq).1
        exact absurd hsame.symm (Schema.rows_ne_index ht hp ht' hq hi htree)
      · obtain ⟨hsame, rfl⟩ := TreeKey.mk.inj heq
        obtain ⟨rfl, rfl, rfl, rfl, rfl⟩ := Schema.index_inj ht' hq hi htree ht hp hj htree' hsame
        -- the entry that is there is the row's own
        obtain ⟨e', d', he', hd'⟩ := hagrees.entry_of_row (q, KeyCode.encode key []) data hdata
        obtain ⟨w, hw, hwe⟩ := Option.map_eq_some_iff.mp he'
        obtain ⟨row', identity, k', hplaced', hk', -, rfl⟩ := StoredTable.entry_eq_some hw
        obtain ⟨rfl, rfl⟩ := Prod.mk.inj (Option.some.inj (hplaced'.symm.trans hplaced.placed_eq))
        obtain rfl := Except.ok.inj (hk'.symm.trans hk)
        obtain ⟨rfl, rfl⟩ := Prod.mk.inj hwe
        obtain rfl := Option.some.inj (hd'.symm.trans hthere)
        exact ⟨(q, KeyCode.encode key []), data, (if_pos hrowkey).trans hdata, he'⟩

/-! ## The inserts of a statement -/

open Script

section

variable {c : Catalog} {t : StoredTable} {m : TreeKey → Option (List UInt8)}
  {post : PUnit → (TreeKey → Option (List UInt8)) → Prop}

theorem ensures_ofTable {α : Type} {r : Except TableError α}
    {post : α → (TreeKey → Option (List UInt8)) → Prop} (h : ∀ a, r = .ok a → post a m) :
    Ensures post (ofTable r) m := by
  refine ensures_ofExcept fun a ha => h a ?_
  cases r with
  | error e => cases ha
  | ok b =>
    obtain rfl := Except.ok.inj ha
    rfl

theorem short_of_checkFits {key : TreeKey} {data : List UInt8}
    (h : c.checkFits key data = .ok ()) : data.length < 2 ^ 32 := by
  unfold Catalog.checkFits at h
  split at h
  · cases h
  · next hfits =>
      have hle := c.trees.data_le key data
      have hlt := c.trees.limit_lt key.tree
      omega

theorem short_of_checkAllFit {tuples : List (TreeKey × List UInt8)}
    (h : c.checkAllFit tuples = .ok ()) : ∀ tuple ∈ tuples, tuple.2.length < 2 ^ 32 := by
  induction tuples with
  | nil => exact nofun
  | cons first rest ih =>
    obtain ⟨u, hfirst, hrest⟩ := bind_ok_iff.mp h
    intro tuple htuple
    rcases List.mem_cons.mp htuple with rfl | htuple
    · exact short_of_checkFits hfirst
    · exact ih hrest tuple htuple

theorem ensures_insert {key : TreeKey} {data : List UInt8}
    (h : ∀ m', Arrives [(key, data)] m m' → post ⟨⟩ m') : Ensures post (c.insert key data) m := by
  refine ensures_bind (ensures_ofExcept fun u hu => ensures_put fun m' hm' => h m' ⟨hm', ?_⟩)
  intro tuple htuple
  rw [List.mem_singleton.mp htuple]
  cases hfits : c.checkFits key data with
  | error e =>
    rw [hfits] at hu
    cases hu
  | ok u => exact short_of_checkFits hfits

theorem ensures_insertTuples (tuples : List (TreeKey × List UInt8))
    (h : ∀ m', Arrives tuples m m' → post ⟨⟩ m') : Ensures post (c.insertTuples tuples) m := by
  induction tuples generalizing m with
  | nil => exact h m (Arrives.nil m)
  | cons first rest ih =>
    refine ensures_bind (ensures_insert fun m' hfirst => ih fun m'' hrest => h m'' ?_)
    exact hfirst.append hrest

theorem ensures_insertMany (tree : UInt64) (tuples : List (TreeKey × List UInt8))
    (h : ∀ m', Arrives tuples m m' → post ⟨⟩ m') : Ensures post (c.insertMany tree tuples) m := by
  unfold Catalog.insertMany
  split
  · refine ensures_bind (ensures_ofExcept fun u hu => ensures_insertAll _ fun m' hm' => h m' ?_)
    have hperm := List.perm_insertionSort (fun a b : TreeKey × List UInt8 => a.1.id ≤ b.1.id) tuples
    refine ⟨hm'.perm hperm.symm, ?_⟩
    cases hfits : c.checkAllFit tuples with
    | error e =>
      rw [hfits] at hu
      cases hu
    | ok u => exact short_of_checkAllFit hfits
  · exact ensures_insertTuples tuples h

theorem ensures_insertTrees (writes : List (UInt64 × List (TreeKey × List UInt8)))
    (h : ∀ m', Arrives (writes.flatMap Prod.snd) m m' → post ⟨⟩ m') :
    Ensures post (c.insertTrees writes) m := by
  induction writes generalizing m with
  | nil => exact h m (Arrives.nil m)
  | cons first rest ih =>
    refine ensures_bind (ensures_insertMany _ _ fun m' hfirst => ih fun m'' hrest => h m'' ?_)
    rw [List.flatMap_cons]
    exact hfirst.append hrest

theorem addWrite_perm (tuple : TreeKey × List UInt8)
    (writes : List (UInt64 × List (TreeKey × List UInt8))) :
    ((Catalog.addWrite tuple writes).flatMap Prod.snd).Perm (tuple :: writes.flatMap Prod.snd) := by
  induction writes with
  | nil => exact List.Perm.refl _
  | cons first rest ih =>
    obtain ⟨tree, tuples⟩ := first
    rw [Catalog.addWrite]
    split
    · simp only [List.flatMap_cons, List.append_assoc]
      exact List.perm_middle
    · simp only [List.flatMap_cons]
      exact (ih.append_left tuples).trans List.perm_middle

theorem addWrites_perm (tuples : List (TreeKey × List UInt8))
    (writes : List (UInt64 × List (TreeKey × List UInt8))) :
    ((tuples.foldl (fun writes e => Catalog.addWrite e writes) writes).flatMap Prod.snd).Perm
      (tuples ++ writes.flatMap Prod.snd) := by
  induction tuples generalizing writes with
  | nil => exact List.Perm.refl _
  | cons first rest ih =>
    exact (ih _).trans (((addWrite_perm first writes).append_left rest).trans List.perm_middle)

/-! ## Foreign keys and rows built -/

theorem ensures_indexHasKey {post : Bool → (TreeKey → Option (List UInt8)) → Prop}
    (index : SqlIndex) (i : Nat) (key : DBIdType) (parts : List StoredPartition)
    (h : ∀ b, post b m) : Ensures post (Catalog.indexHasKey index i key parts) m := by
  induction parts with
  | nil => exact h false
  | cons part rest ih =>
    unfold Catalog.indexHasKey
    show Ensures post (if (m _).isSome = true then pure true else _) m
    cases (m ⟨if index.hasTree then part.index i else part.rows, KeyCode.encode key []⟩).isSome with
    | true => exact h true
    | false => exact ih

/-- Foreign keys are looked up, and nothing else. -/
theorem ensures_checkForeignKeys (row : List ValueItem) (fks : List SqlForeignKey)
    (h : post ⟨⟩ m) : Ensures post (c.checkForeignKeys t row fks) m := by
  induction fks with
  | nil => exact h
  | cons fk rest ih =>
    unfold Catalog.checkForeignKeys
    split
    · trivial
    · dsimp only
      split
      · exact ih
      · split
        · refine ensures_bind (ensures_pure ?_)
          split
          · split
            · refine ensures_bind (ensures_pure (ensures_bind (ensures_ofTable fun key _ => ?_)))
              refine ensures_bind (ensures_indexHasKey _ _ _ _ fun found => ?_)
              split
              · exact ih
              · trivial
            · trivial
          · trivial
        · trivial

theorem ensures_rowKey {post : DBIdType → (TreeKey → Option (List UInt8)) → Prop}
    (sequence : String) (row : List ValueItem)
    (h : ∀ key, t.keyAt (KeyCode.encode key []) row = some key → post key m) :
    Ensures post (t.rowKey sequence row) m := by
  unfold StoredTable.rowKey
  split
  · next pk hpk =>
      refine ensures_bind (ensures_ofTable fun key hkey => h (.record key) ?_)
      rw [StoredTable.keyAt, hpk]
      simp only [hkey, Except.toOption, Option.map_some]
  · next hpk =>
      refine ensures_bind fun n => h (.int n) ?_
      rw [StoredTable.keyAt, hpk, decode_encode]
      rfl

theorem ensures_rowTuples {post : RowTuples → (TreeKey → Option (List UInt8)) → Prop}
    (row : List ValueItem)
    (h : ∀ b p part key, Built c t row b p part key → post b m) :
    Ensures post (c.rowTuples t row) m := by
  refine ensures_bind (ensures_rowKey _ row fun key hkey => ensures_ofTable fun b hb => ?_)
  obtain ⟨p, part, hbuilt⟩ := built_of_tuplesOf hkey hb
  exact h b p part key hbuilt

theorem ensures_buildRows {post : List RowTuples → (TreeKey → Option (List UInt8)) → Prop}
    (rows : List (List ValueItem))
    (htyped : ∀ row ∈ rows, TypedRow (SqlTable.types t.table.fields) row)
    (h : ∀ builts, TuplesOf c t builts → post builts m) : Ensures post (c.buildRows t rows) m := by
  induction rows generalizing post with
  | nil => exact h [] nofun
  | cons row rest ih =>
    refine ensures_bind (ensures_rowTuples row fun b p part key hbuilt => ensures_bind ?_)
    refine ih (fun r hr => htyped r (List.mem_cons_of_mem _ hr)) fun others hothers => h _ ?_
    intro built hmem
    rcases List.mem_cons.mp hmem with rfl | hmem
    · exact ⟨row, p, part, key, htyped row List.mem_cons_self, hbuilt⟩
    · exact hothers built hmem

end

/-! ## Statements -/

section

variable {c : Schema} {name : String} {t : StoredTable} {m : TreeKey → Option (List UInt8)}
  {post : PUnit → (TreeKey → Option (List UInt8)) → Prop}

variable {row : List ValueItem} {tuple : TreeKey × List UInt8}
  {m' : TreeKey → Option (List UInt8)} {tuples : List (TreeKey × List UInt8)}
  {found : List (DBIdType × IndexKey)} {v : ValueItem}

theorem ensures_insertOneRow (ht : c.tables name = some t) (hc : Consistent c.toCatalog m)
    (htyped : TypedRow (SqlTable.types t.table.fields) row)
    (h : ∀ m', Consistent c.toCatalog m' → (∀ key data, m key = some data → m' key = some data) →
      post ⟨⟩ m') : Ensures post (c.insertOneRow t row) m := by
  refine ensures_bind (ensures_checkForeignKeys row _ ?_)
  refine ensures_bind (ensures_rowTuples row fun b p part key hbuilt => ?_)
  refine ensures_insertTuples _ fun m' hm' => h m' ?_ fun _ _ => hm'.of_some
  have hbuilts : TuplesOf c.toCatalog t [b] := by
    intro built hmem
    rw [List.mem_singleton.mp hmem]
    exact ⟨row, p, part, key, htyped, hbuilt⟩
  refine hc.arrives ht hbuilts ?_
  rw [List.flatMap_singleton]
  exact hm'

theorem ensures_insertEach (ht : c.tables name = some t) (hc : Consistent c.toCatalog m)
    (rows : List (List ValueItem))
    (htyped : ∀ row ∈ rows, TypedRow (SqlTable.types t.table.fields) row) :
    Ensures (fun _ => Consistent c.toCatalog) (c.insertEach t rows) m := by
  induction rows generalizing m with
  | nil => exact hc
  | cons row rest ih =>
    refine ensures_bind (ensures_insertOneRow ht hc (htyped row List.mem_cons_self) ?_)
    intro m' hm' _
    exact ih hm' fun r hr => htyped r (List.mem_cons_of_mem _ hr)

/-- An INSERT's rows come with their entries. -/
theorem ensures_insertRowsInTxn (ht : c.tables name = some t) (hc : Consistent c.toCatalog m)
    (rows : List (List ValueItem))
    (htyped : ∀ row ∈ rows, TypedRow (SqlTable.types t.table.fields) row) :
    Ensures (fun _ => Consistent c.toCatalog) (c.insertRowsInTxn t rows) m := by
  unfold Catalog.insertRowsInTxn
  split
  · exact ensures_insertEach ht hc rows htyped
  · refine ensures_bind (ensures_buildRows rows htyped fun builts hbuilts => ?_)
    refine ensures_insertTrees _ fun m' hm' => hc.arrives ht hbuilts (hm'.perm ?_)
    have hrows : (builts.foldl (fun writes b => Catalog.addWrite (b.rows, b.row) writes) []) =
        (builts.map fun b => (b.rows, b.row)).foldl (fun writes e => Catalog.addWrite e writes)
        [] := by
      rw [List.foldl_map]
    rw [List.flatMap_append, hrows]
    have hfirst := addWrites_perm (builts.map fun b => (b.rows, b.row)) []
    have hsecond := addWrites_perm (builts.flatMap (·.entries)) []
    simp only [List.flatMap_nil, List.append_nil] at hfirst hsecond
    refine List.Perm.trans ?_ (hfirst.append hsecond).symm
    clear hm' hbuilts hrows hfirst hsecond
    induction builts with
    | nil => exact List.Perm.refl _
    | cons b rest ih =>
      simp only [List.flatMap_cons, List.map_cons, RowTuples.tuples, List.cons_append]
      refine List.Perm.cons _ ?_
      refine (ih.append_left b.entries).trans ?_
      rw [← List.append_assoc, ← List.append_assoc]
      exact List.perm_append_comm.append_right _

/-- The key of a row's entry does not depend on the capacities in its identity. -/
theorem indexKey_tight {index : SqlIndex} {row identity identity' : IndexKey} {k k' : DBIdType}
    (h : t.indexKey index row identity = .ok k) (h' : t.indexKey index row identity' = .ok k')
    (hid : IndexKey.tight identity = IndexKey.tight identity') :
    KeyCode.encode k [] = KeyCode.encode k' [] := by
  obtain ⟨values, hvalues, hk⟩ := bind_ok_iff.mp h
  obtain ⟨values', hvalues', hk'⟩ := bind_ok_iff.mp h'
  obtain rfl := Except.ok.inj hk
  obtain rfl := Except.ok.inj hk'
  rw [newRow_eq hvalues, newRow_eq hvalues']
  refine encodeRecord_congr ?_ []
  split
  · rfl
  · rw [tight_append, tight_append, hid]

theorem ensures_removeEntries (part : StoredPartition) (row identity : IndexKey)
    (indexes : List (SqlIndex × Nat))
    (h : ∀ keys m', (∀ key, key ∈ keys ↔ ∃ i ∈ indexes, ∃ k, t.indexKey i.1 row identity = .ok k ∧
        key = ⟨part.index i.2, KeyCode.encode k []⟩) →
      (∀ i ∈ indexes, ∃ k, t.indexKey i.1 row identity = .ok k) → Leaves keys m m' → post ⟨⟩ m') :
    Ensures post (Catalog.removeEntries t part row identity indexes) m := by
  induction indexes generalizing m with
  | nil => exact h [] m (by simp) nofun (Leaves.nil m)
  | cons first rest ih =>
    obtain ⟨index, i⟩ := first
    refine ensures_bind (ensures_ofTable fun k hk => ?_)
    refine ensures_bind (ensures_drop fun m' hm' => ih fun keys m'' hkeys hall hleaves => ?_)
    refine h (⟨part.index i, KeyCode.encode k []⟩ :: keys) m'' ?_ ?_ (hm'.append hleaves)
    · intro key
      rw [List.mem_cons, hkeys key]
      constructor
      · rintro (rfl | ⟨j, hj, k', hk', rfl⟩)
        · exact ⟨(index, i), List.mem_cons_self, k, hk, rfl⟩
        · exact ⟨j, List.mem_cons_of_mem _ hj, k', hk', rfl⟩
      · rintro ⟨j, hj, k', hk', rfl⟩
        rcases List.mem_cons.mp hj with rfl | hj
        · obtain rfl := Except.ok.inj (hk.symm.trans hk')
          exact Or.inl rfl
        · exact Or.inr ⟨j, hj, k', hk', rfl⟩
    · intro j hj
      rcases List.mem_cons.mp hj with rfl | hj
      · exact ⟨k, hk⟩
      · exact hall j hj

/-- The trees of the table's rows. -/
def RowsTree (t : StoredTable) (tree : UInt64) : Prop :=
  ∃ (p : Nat) (part : StoredPartition), t.partitions[p]? = some part ∧ part.rows = tree

/-- A row found in one of the table's partitions. -/
structure Found (c : Catalog) (t : StoredTable) (m : TreeKey → Option (List UInt8))
    (tuple : TreeKey × List UInt8) (found : DBIdType × IndexKey) : Prop where
  there : m tuple.1 = some tuple.2
  rows : RowsTree t tuple.1.tree
  read : Catalog.readMatch t tuple = .ok found

/-- A row found is deleted with its entries; the table's other rows stay. -/
theorem ensures_deleteOneRow (ht : c.tables name = some t) (hc : Consistent c.toCatalog m)
    {key : DBIdType} {row : IndexKey} (hfound : Found c.toCatalog t m tuple (key, row))
    (h : ∀ m', Consistent c.toCatalog m' →
      (∀ other, RowsTree t other.tree → other ≠ tuple.1 → m' other = m other) → post ⟨⟩ m') :
    Ensures post (c.deleteOneRow t row key) m := by
  obtain ⟨⟨tree, id⟩, data⟩ := tuple
  obtain ⟨p, part, hp, htree⟩ := hfound.rows
  obtain rfl : part.rows = tree := htree
  obtain ⟨row', stored, hplaced⟩ := hc.rows name t ht p part hp id data hfound.there
  obtain ⟨id', hid, hread⟩ := bind_ok_iff.mp hfound.read
  obtain ⟨row'', hrow, heq⟩ := bind_ok_iff.mp hread
  obtain ⟨rfl, rfl⟩ := Prod.mk.inj (Except.ok.inj heq)
  obtain rfl := Except.ok.inj (hrow.symm.trans hplaced.decode_eq)
  obtain rfl := hplaced.encode_eq
  have hkey : id' = stored.tight := by
    have hdecode : (KeyCode.decode (KeyCode.encode stored [])).mapError TableError.ofStore =
        .ok id' := hid
    rw [decode_encode] at hdecode
    exact (Except.ok.inj hdecode).symm
  have hsame : IndexKey.tight (identityOf id') = IndexKey.tight (identityOf stored) := by
    rw [hkey, identityOf_tight]
  have hid' : KeyCode.encode id' [] = KeyCode.encode stored [] := by
    rw [hkey]
    cases stored with
    | int n => rfl
    | record k => exact encodeRecord_congr (tight_tight k) []
  refine ensures_bind (ensures_ofTable fun part' hpart => ?_)
  rw [hplaced.partition_eq] at hpart
  have hpart' : part' = part := by
    have hget : t.part p = .ok part' := hpart
    rw [StoredTable.part, hp] at hget
    exact (Except.ok.inj hget).symm
  obtain rfl := hpart'
  refine ensures_bind (ensures_removeEntries _ _ _ _ fun keys m' hkeys hall hleaves => ?_)
  refine ensures_drop fun m'' hrowgone => ?_
  have hgone := hleaves.append hrowgone
  rw [hid'] at hgone
  have hof : KeysOf t part' row'' stored (keys ++ [⟨part'.rows, KeyCode.encode stored []⟩]) := by
    intro treeKey
    rw [List.mem_append, List.mem_singleton, hkeys treeKey, or_comm]
    refine or_congr_right ⟨?_, ?_⟩
    · rintro ⟨⟨index, i⟩, hi, k, hk, rfl⟩
      obtain ⟨hindex, htree⟩ := mem_indexesWithTree.mp hi
      obtain ⟨e, d, he, -⟩ := (hc.entries name t ht i index hindex htree).entry_of_row
        (⟨p, (List.getElem?_eq_some_iff.mp hp).1⟩, KeyCode.encode stored []) data (by
          show m ⟨(t.partitions.get _).rows, _⟩ = some data
          rw [List.get_eq_getElem, (List.getElem?_eq_some_iff.mp hp).2]
          exact hfound.there)
      obtain ⟨w, hw, -⟩ := Option.map_eq_some_iff.mp he
      obtain ⟨row', identity, k', hplaced', hk', -, -⟩ := StoredTable.entry_eq_some hw
      obtain ⟨rfl, rfl⟩ := Prod.mk.inj (Option.some.inj (hplaced'.symm.trans hplaced.placed_eq))
      exact ⟨i, index, k', hindex, htree, hk', by rw [indexKey_tight hk hk' hsame]⟩
    · rintro ⟨i, index, k, hindex, htree, hk, rfl⟩
      have hi := mem_indexesWithTree.mpr ⟨hindex, htree⟩
      obtain ⟨k', hk'⟩ := hall (index, i) hi
      exact ⟨(index, i), hi, k', hk', by rw [indexKey_tight hk hk' hsame.symm]⟩
  refine h m'' (hc.leaves ht hp hfound.there hplaced hof hgone) ?_
  rintro other ⟨q, otherPart, hq, htree⟩ hne
  refine hgone.kept other fun hmem => ?_
  rcases (hof other).mp hmem with rfl | ⟨i, index, k, hindex, hhas, -, rfl⟩
  · exact hne rfl
  · exact Schema.rows_ne_index ht hq ht hp hindex hhas htree

theorem Found.frame {found : DBIdType × IndexKey} (h : Found c.toCatalog t m tuple found)
    (hsame : m' tuple.1 = m tuple.1) : Found c.toCatalog t m' tuple found :=
  ⟨hsame.trans h.there, h.rows, h.read⟩

/-- The rows that a statement's source finds. -/
structure AllFound (c : Catalog) (t : StoredTable) (m : TreeKey → Option (List UInt8))
    (tuples : List (TreeKey × List UInt8)) (found : List (DBIdType × IndexKey)) : Prop where
  each : List.Forall₂ (Found c t m) tuples found
  once : (tuples.map Prod.fst).Nodup

/-- The rest of them are found when the first one is deleted. -/
theorem AllFound.rest {found : DBIdType × IndexKey} {others : List (DBIdType × IndexKey)}
    (h : AllFound c.toCatalog t m (tuple :: tuples) (found :: others))
    (hkept : ∀ other, RowsTree t other.tree → other ≠ tuple.1 → m' other = m other) :
    AllFound c.toCatalog t m' tuples others := by
  obtain ⟨hnot, honce⟩ := List.nodup_cons.mp h.once
  refine ⟨?_, honce⟩
  have hrest := (List.forall₂_cons.mp h.each).2
  clear h honce
  induction hrest with
  | nil => exact List.Forall₂.nil
  | cons hfirst _ ih =>
    rw [List.map_cons, List.mem_cons, not_or] at hnot
    refine List.Forall₂.cons (hfirst.frame (hkept _ hfirst.rows fun heq => hnot.1 heq.symm)) ?_
    exact ih hnot.2

theorem AllFound.grow (h : AllFound c.toCatalog t m tuples found)
    (hkept : ∀ key data, m key = some data → m' key = some data) :
    AllFound c.toCatalog t m' tuples found :=
  ⟨h.each.imp fun _ _ hfound => hfound.frame ((hkept _ _ hfound.there).trans hfound.there.symm),
    h.once⟩

/-- A DELETE's rows go with their entries. -/
theorem ensures_deleteRowsMatching (ht : c.tables name = some t) (hc : Consistent c.toCatalog m)
    (hfound : AllFound c.toCatalog t m tuples found) :
    Ensures (fun _ => Consistent c.toCatalog) (c.deleteRowsMatching t found) m := by
  induction found generalizing m tuples with
  | nil => exact hc
  | cons first rest ih =>
    cases tuples with
    | nil => cases hfound.each
    | cons tuple tuples =>
      refine ensures_bind (ensures_deleteOneRow ht hc (List.forall₂_cons.mp hfound.each).1 ?_)
      exact fun m' hm' hkept => ih hm' (hfound.rest hkept)

/-! ## Values of their columns' types -/

theorem coerceSelectedValue_typed {w : ValueItem} {dt : DataType}
    (h : c.coerceSelectedValue v dt = .ok w) : recap dt w = w := by
  unfold Catalog.coerceSelectedValue at h
  split at h <;> first | (obtain rfl := Except.ok.inj h; rfl) | cases h
  cases dt <;> rfl

theorem columnValue_typed {field : Field} {w : ValueItem} (h : c.columnValue field v = .ok w) :
    recap field.datatype w = w := by
  obtain ⟨item, hitem, hafter⟩ := bind_ok_iff.mp h
  split at hafter
  · cases hafter
  · obtain rfl := Except.ok.inj hafter
    exact coerceSelectedValue_typed hitem

theorem TypedRow.set {fields : List Field} {pos : Nat} {field : Field}
    (h : TypedRow (SqlTable.types fields) row) (hfield : fields[pos]? = some field)
    (hv : recap field.datatype v = v) : TypedRow (SqlTable.types fields) (row.set pos v) := by
  refine ⟨by rw [List.length_set, h.length_eq], ?_⟩
  intro cell hcell
  obtain ⟨i, hi, rfl⟩ := List.mem_iff_getElem.mp hcell
  rw [List.getElem_zip]
  rw [List.length_zip, List.length_set] at hi
  by_cases hpos : pos = i
  · subst hpos
    have htype : (SqlTable.types fields)[pos] = field.datatype := by
      simp only [SqlTable.types, List.getElem_map, (List.getElem?_eq_some_iff.mp hfield).2]
    rw [htype, List.getElem_set_self]
    exact hv
  · rw [List.getElem_set_ne hpos]
    have hmem : (row[i], (SqlTable.types fields)[i]) ∈ row.zip (SqlTable.types fields) := by
      rw [List.mem_iff_getElem]
      exact ⟨i, by rw [List.length_zip]; exact hi, List.getElem_zip⟩
    exact h.recap_eq _ hmem

theorem assignRow_typed {current : List ValueItem} {assignments : List (Nat × EvalExpr)}
    {r : List ValueItem × List (Nat × EvalExpr)}
    (hrow : TypedRow (SqlTable.types t.table.fields) row)
    (h : c.assignRow t current assignments row = .ok r) :
    TypedRow (SqlTable.types t.table.fields) r.1 := by
  induction assignments generalizing row r with
  | nil =>
    obtain rfl := Except.ok.inj h
    exact hrow
  | cons first rest ih =>
    obtain ⟨pos, expr⟩ := first
    unfold Catalog.assignRow at h
    obtain ⟨⟨raw, expr'⟩, -, hafter⟩ := bind_ok_iff.mp h
    dsimp only at hafter
    split at hafter
    · cases hafter
    · next field hfield =>
        obtain ⟨item, hitem, hrest⟩ := bind_ok_iff.mp hafter
        obtain ⟨⟨row', others⟩, hothers, heq⟩ := bind_ok_iff.mp hrest
        obtain rfl := Except.ok.inj heq
        have hvalue : c.columnValue field raw = .ok item := by
          cases hcol : c.columnValue field raw with
          | error e =>
            rw [hcol] at hitem
            cases hitem
          | ok w =>
            rw [hcol] at hitem
            exact congrArg Except.ok (Except.ok.inj hitem)
        have hrest := ih (hrow.set hfield (columnValue_typed hvalue)) hothers
        exact hrest

theorem fillFullRow_typed {fields : List Field} {byName : List (String × ValueItem)}
    (hnamed : ∀ f ∈ fields, ∀ v, (f.name, v) ∈ byName → recap f.datatype v = v)
    (hdefault : ∀ f ∈ fields, ∀ v, f.default = some v → recap f.datatype v = v)
    (h : Catalog.fillFullRow fields byName = .ok row) : TypedRow (SqlTable.types fields) row := by
  induction fields generalizing byName row with
  | nil =>
    obtain rfl := Except.ok.inj h
    exact ⟨rfl, nofun⟩
  | cons f rest ih =>
    unfold Catalog.fillFullRow at h
    have hsplit : ∃ item others, recap f.datatype item = item ∧ row = item :: others ∧
        Catalog.fillFullRow rest (byName.filter fun p => p.1 ≠ f.name) = .ok others := by
      have hafter : ∀ {item}, recap f.datatype item = item →
          (Catalog.fillFullRow rest (byName.filter fun p => p.1 ≠ f.name) >>=
            fun others => pure (item :: others)) = .ok row →
          ∃ item others, recap f.datatype item = item ∧ row = item :: others ∧
            Catalog.fillFullRow rest (byName.filter fun p => p.1 ≠ f.name) = .ok others := by
        intro item hitem hrow
        obtain ⟨others, hothers, heq⟩ := bind_ok_iff.mp hrow
        exact ⟨item, others, hitem, (Except.ok.inj heq).symm, hothers⟩
      split at h
      · next v hv =>
          refine hafter (hnamed f List.mem_cons_self v ?_) h
          obtain ⟨before, after, happend, -⟩ := List.lookup_eq_some_iff.mp hv
          rw [happend]
          exact List.mem_append_right _ List.mem_cons_self
      · next v hlookup hv => exact hafter (hdefault f List.mem_cons_self v hv) h
      · split at h
        · refine hafter ?_ h
          cases f.datatype <;> rfl
        · cases h
    obtain ⟨item, others, hitem, rfl, hothers⟩ := hsplit
    have hrest := ih (fun g hg v hv => hnamed g (List.mem_cons_of_mem _ hg) v
        (List.mem_filter.mp hv).1)
      (fun g hg => hdefault g (List.mem_cons_of_mem _ hg)) hothers
    constructor
    · simp only [SqlTable.types, List.length_cons, List.map_cons]
      rw [hrest.length_eq, SqlTable.types]
    · intro cell hcell
      rcases List.mem_cons.mp hcell with rfl | hcell
      · exact hitem
      · exact hrest.recap_eq cell hcell

theorem targetFields_mem {text : Text} {columns : Option (List String)} {targets : List Field}
    (h : Catalog.targetFields text t columns = .ok targets) : ∀ f ∈ targets,
    f ∈ t.table.fields := by
  intro f hf
  cases columns with
  | none =>
    obtain rfl := Except.ok.inj h
    exact hf
  | some names =>
    obtain ⟨name, -, hname⟩ := mem_of_forall₂ (forall₂_of_mapM h) hf
    split at hname
    · next g hg =>
        obtain rfl := Except.ok.inj hname
        exact List.mem_of_find?_eq_some hg
    · cases hname

theorem name_inj (ht : c.tables name = some t) {f g : Field} (hf : f ∈ t.table.fields)
    (hg : g ∈ t.table.fields) (h : f.name = g.name) : f = g :=
  List.inj_on_of_nodup_map (c.names_distinct name t ht) hf hg h

/-- An INSERT's rows are as the table's columns have them. -/
theorem rowsFromSelect_typed (ht : c.tables name = some t) {columns : Option (List String)}
    {selected rows : List (List ValueItem)}
    (h : c.rowsFromSelect t columns selected = .ok rows) :
    ∀ row ∈ rows, TypedRow (SqlTable.types t.table.fields) row := by
  obtain ⟨targets, htargets, hafter⟩ := bind_ok_iff.mp h
  intro row hrow
  obtain ⟨values, -, hshape⟩ := mem_of_forall₂ (forall₂_of_mapM hafter) hrow
  have hfilled : ∃ items,
      (targets.zip values).mapM (fun p => do return (p.1.name, ← c.columnValue p.1 p.2)) =
      .ok items ∧
        Catalog.fillFullRow t.table.fields items.reverse = .ok row := by
    unfold Catalog.shapeRow at hshape
    dsimp only at hshape
    split at hshape
    · cases hshape
    · exact bind_ok_iff.mp hshape
  obtain ⟨items, hitems, hfill⟩ := hfilled
  refine fillFullRow_typed ?_ (c.default_typed name t ht) hfill
  intro f hf v hv
  rw [List.mem_reverse] at hv
  obtain ⟨⟨g, w⟩, hmem, hg⟩ := mem_of_forall₂ (forall₂_of_mapM hitems) hv
  obtain ⟨v', hv', heq⟩ := bind_ok_iff.mp hg
  obtain ⟨hname, rfl⟩ := Prod.mk.inj (Except.ok.inj heq)
  have hgf : g = f :=
    name_inj ht (targetFields_mem htargets g (List.of_mem_zip hmem).1) hf hname
  rw [← hgf]
  exact columnValue_typed hv'

/-- An UPDATE's rows go with their entries, and come with those of their new values. -/
theorem ensures_updateRowsMatching (ht : c.tables name = some t) (hc : Consistent c.toCatalog m)
    (hfound : AllFound c.toCatalog t m tuples found) (assignments : List (Nat × EvalExpr)) :
    Ensures (fun _ => Consistent c.toCatalog) (c.updateRowsMatching t found assignments) m := by
  induction found generalizing m tuples assignments with
  | nil => exact hc
  | cons first rest ih =>
    obtain ⟨oldKey, current⟩ := first
    cases tuples with
    | nil => cases hfound.each
    | cons tuple tuples =>
      have hfirst := (List.forall₂_cons.mp hfound.each).1
      have htyped : TypedRow (SqlTable.types t.table.fields) current := by
        obtain ⟨p, part, hp, htree⟩ := hfirst.rows
        obtain ⟨row, key, hplaced⟩ := hc.rows name t ht p part hp tuple.1.id tuple.2
          (by rw [htree]; exact hfirst.there)
        obtain ⟨id, -, hread⟩ := bind_ok_iff.mp hfirst.read
        obtain ⟨row', hrow, heq⟩ := bind_ok_iff.mp hread
        obtain ⟨-, rfl⟩ := Prod.mk.inj (Except.ok.inj heq)
        obtain rfl := Except.ok.inj (hplaced.decode_eq.symm.trans hrow)
        exact hplaced.typed
      refine ensures_bind (ensures_ofExcept fun r hr => ?_)
      have hnew := assignRow_typed htyped hr
      refine ensures_bind (ensures_deleteOneRow ht hc hfirst fun m' hm' hkept => ?_)
      refine ensures_bind (ensures_insertOneRow ht hm' hnew fun m'' hm'' hgrown => ?_)
      exact ih hm'' ((hfound.rest hkept).grow hgrown) _

/-- A statement that succeeds leaves consistent rows consistent. -/
theorem statement_keeps (c : Schema) (st : Statement) (hc : Consistent c.toCatalog m) :
    Ensures (fun _ => Consistent c.toCatalog) (st.calls c.toCatalog) m := by
  have hmatching : ∀ {name t} {f : List (DBIdType × IndexKey) → Calls PUnit},
      c.tables name = some t →
      (∀ tuples found, AllFound c.toCatalog t m tuples found →
        Ensures (fun _ => Consistent c.toCatalog) (f found) m) →
      Ensures (fun _ => Consistent c.toCatalog) (Catalog.matchingRows t >>= f) m := by
    intro name t f ht hf
    refine ensures_bind fun rows hrows => ensures_ofTable fun found hfound => hf rows found ⟨?_, ?_⟩
    · have hthere := hrows.there
      have hon := hrows.on
      have hread := forall₂_of_mapM hfound
      clear hrows hfound
      induction hread with
      | nil => exact List.Forall₂.nil
      | cons hfirst _ ih =>
        refine List.Forall₂.cons ⟨hthere _ List.mem_cons_self, ?_, hfirst⟩
          (ih (fun row hrow => hthere row (List.mem_cons_of_mem _ hrow))
            fun row hrow => hon row (List.mem_cons_of_mem _ hrow))
        obtain ⟨part, hpart, heq⟩ := List.any_eq_true.mp (hon _ List.mem_cons_self)
        obtain ⟨p, hp⟩ := List.mem_iff_getElem?.mp hpart
        exact ⟨p, part, hp, eq_of_beq heq⟩
    · exact hrows.once
  have htable : ∀ {name} {f : StoredTable → Calls PUnit},
      (∀ name t, c.tables name = some t → Ensures (fun _ => Consistent c.toCatalog) (f t) m) →
      Ensures (fun _ => Consistent c.toCatalog) (c.getTable name >>= f) m := by
    intro name f hf
    unfold Catalog.getTable
    split
    · next t ht => exact ensures_bind (ensures_pure (hf _ t ht))
    · trivial
  cases st with
  | insert table columns selected =>
    refine htable fun name t ht => ensures_bind (ensures_ofTable fun rows hrows => ?_)
    exact ensures_insertRowsInTxn ht hc rows (rowsFromSelect_typed ht hrows)
  | update table assignments =>
    exact htable fun name t ht => hmatching ht fun tuples found hfound =>
      ensures_updateRowsMatching ht hc hfound assignments
  | delete table =>
    exact htable fun name t ht => hmatching ht fun tuples found hfound =>
      ensures_deleteRowsMatching ht hc hfound
  | truncate table =>
    exact htable fun name t ht => hmatching ht fun tuples found hfound =>
      ensures_deleteRowsMatching ht hc hfound
  | fails e => trivial

end

end SquealDb.Table
