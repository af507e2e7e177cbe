import SquealDb.Store.Keeping
import SquealDb.Table.Consistent
import SquealDb.Table.FailedStatements

/-!
# Indexes agree with their tables

Each partition's index has one entry for each row of the partition, the one that `row_tuples`
makes of the row, and no others: in every committed state of a run in which no transaction is
committed that a statement failed in once it had written. A failed statement's rows that are
committed without their entries, or its entries without their rows, are what the others lose
their agreement by.
-/

namespace SquealDb.Table

open Codec Lib Sql Store

/-- The index of a partition has the entries of its rows, and no others. -/
structure IndexAgrees (c : Catalog) (t : StoredTable) (part : StoredPartition) (i : Nat)
    (m : TreeKey → Option (List UInt8)) : Prop where
  entry_of_row : ∀ id data, m ⟨part.rows, id⟩ = some data →
    ∃ b, t.tuplesAt c.text id data = some b ∧ b.rows = ⟨part.rows, id⟩ ∧
      ∃! entry, entry ∈ b.entries ∧ entry.1.tree = part.index i ∧ m entry.1 = some entry.2
  row_of_entry : ∀ e d, m ⟨part.index i, e⟩ = some d →
    ∃! id, ∃ data b, m ⟨part.rows, id⟩ = some data ∧ t.tuplesAt c.text id data = some b ∧
      (⟨part.index i, e⟩, d) ∈ b.entries

/-! ## Consistent rows -/

private theorem mapM_ok {α β ε : Type} {f : α → Except ε β} {l : List α}
    (h : ∀ a ∈ l, ∃ b, f a = .ok b) : ∃ out, l.mapM f = .ok out := by
  induction l with
  | nil => exact ⟨[], rfl⟩
  | cons a l ih =>
    obtain ⟨b, hb⟩ := h a List.mem_cons_self
    obtain ⟨out, hout⟩ := ih fun a' ha' => h a' (List.mem_cons_of_mem _ ha')
    exact ⟨b :: out, by rw [List.mapM_cons, hb, hout]; rfl⟩

/-- A placed row whose entries there are has its tuples. -/
theorem StoredTable.IsPlaced.tuplesAt {text : Text} {t : StoredTable} {p : Nat}
    {part : StoredPartition} {id data : List UInt8} {row : IndexKey} {key : DBIdType}
    (h : t.IsPlaced text p id data row key) (hp : t.partitions[p]? = some part)
    (hkeys : ∀ (i : Nat) index, t.table.indices[i]? = some index → index.hasTree = true →
      ∃ k, t.indexKey index row (identityOf key) = .ok k) :
    ∃ b, t.tuplesAt text id data = some b ∧ t.tuplesOf text row key = .ok b := by
  have hall : ∃ keys, t.indexKeys row (identityOf key) = .ok keys := by
    refine mapM_ok ?_
    rintro ⟨index, i⟩ hi
    obtain ⟨hindex, htree⟩ := mem_indexesWithTree.mp hi
    obtain ⟨k, hk⟩ := hkeys i index hindex htree
    exact ⟨(i, k), by simp [hk]⟩
  obtain ⟨keys, hkeys⟩ := hall
  have hpart : t.part p = .ok part := by rw [StoredTable.part, hp]
  have htuples : ∃ b, t.tuplesOf text row key = .ok b := by
    refine ⟨⟨⟨part.rows, KeyCode.encode key []⟩, t.table.encodeRow row, keys.map fun i =>
      (⟨part.index i.1, KeyCode.encode i.2 []⟩, Postcard.key (identityOf key))⟩, ?_⟩
    unfold StoredTable.tuplesOf
    dsimp only
    rw [h.partition_eq, hkeys, h.valid]
    show (t.part p >>= _) = _
    rw [hpart]
    rfl
  obtain ⟨b, hb⟩ := htuples
  refine ⟨b, ?_, hb⟩
  simp only [StoredTable.tuplesAt, Option.bind_eq_bind,
    StoredTable.toOption_eq_some.mpr h.decode_eq, Option.bind_some, h.key_eq]
  exact StoredTable.toOption_eq_some.mpr hb

/-- Where rows are consistent, every index of a partition has the entries of its rows. -/
theorem Consistent.indexAgrees {c : Schema} {m : TreeKey → Option (List UInt8)} {name : String}
    {t : StoredTable} {p i : Nat} {part : StoredPartition} {index : SqlIndex}
    (hc : Consistent c.toCatalog m) (ht : c.tables name = some t)
    (hp : t.partitions[p]? = some part) (hi : t.table.indices[i]? = some index)
    (htree : index.hasTree = true) : IndexAgrees c.toCatalog t part i m := by
  obtain ⟨hlt, hget⟩ := List.getElem?_eq_some_iff.mp hp
  have hat : ∀ id, (t.indexing c.text index i).rowAt (⟨p, hlt⟩, id) = ⟨part.rows, id⟩ := by
    intro id
    show (⟨(t.partitions.get _).rows, id⟩ : TreeKey) = _
    rw [List.get_eq_getElem, hget]
  have hentryAt : ∀ e, (t.indexing c.text index i).entryAt (⟨p, hlt⟩, e) = ⟨part.index i, e⟩ := by
    intro e
    show (⟨(t.partitions.get _).index i, e⟩ : TreeKey) = _
    rw [List.get_eq_getElem, hget]
  -- a row's entries are there in every index of the table
  have hrow : ∀ id data, m ⟨part.rows, id⟩ = some data → ∃ row key b,
      t.tuplesAt c.text id data = some b ∧ Built c.toCatalog t row b p part key ∧
        KeyCode.encode key [] = id ∧
        t.placed c.text p id data = some (row, identityOf key) ∧
        ∀ entry, entry ∈ b.entries → m entry.1 = some entry.2 := by
    intro id data hdata
    obtain ⟨row, key, hplaced⟩ := hc.rows name t ht p part hp id data hdata
    have hentries : ∀ (j : Nat) other, t.table.indices[j]? = some other → other.hasTree = true →
        ∃ k, t.indexKey other row (identityOf key) = .ok k ∧
          m ⟨part.index j, KeyCode.encode k []⟩ = some (Postcard.key (identityOf key)) := by
      intro j other hj hother
      obtain ⟨e, d, he, hd⟩ := (hc.entries name t ht j other hj hother).entry_of_row
        (⟨p, hlt⟩, id) data (by
          show m ⟨(t.partitions.get _).rows, id⟩ = some data
          rw [List.get_eq_getElem, hget]
          exact hdata)
      obtain ⟨w, hw, hwe⟩ := Option.map_eq_some_iff.mp he
      obtain ⟨row', identity, k, hplaced', hk, -, rfl⟩ := StoredTable.entry_eq_some hw
      obtain ⟨rfl, rfl⟩ := Prod.mk.inj (Option.some.inj (hplaced'.symm.trans hplaced.placed_eq))
      obtain ⟨rfl, rfl⟩ := Prod.mk.inj hwe
      refine ⟨k, hk, ?_⟩
      have hthere : m ⟨(t.partitions.get ⟨p, hlt⟩).index j, KeyCode.encode k []⟩ =
          some (Postcard.key (identityOf key)) := hd
      rw [List.get_eq_getElem, hget] at hthere
      exact hthere
    obtain ⟨b, htuples, hb⟩ := hplaced.tuplesAt hp fun j other hj hother =>
      let ⟨k, hk, _⟩ := hentries j other hj hother
      ⟨k, hk⟩
    have hkey := hplaced.key_eq
    rw [← hplaced.encode_eq] at hkey
    obtain ⟨q, part', hbuilt⟩ := built_of_tuplesOf hkey hb
    obtain rfl := Except.ok.inj (hbuilt.partition_eq.symm.trans hplaced.partition_eq)
    obtain rfl := Option.some.inj (hbuilt.part_eq.symm.trans hp)
    refine ⟨row, key, b, htuples, hbuilt, hplaced.encode_eq, hplaced.placed_eq, ?_⟩
    intro entry hentry
    obtain ⟨j, other, k, hj, hother, hk, rfl⟩ := (hbuilt.mem_entries entry).mp hentry
    obtain ⟨k', hk', hthere⟩ := hentries j other hj hother
    obtain rfl := Except.ok.inj (hk'.symm.trans hk)
    exact hthere
  constructor
  · intro id data hdata
    obtain ⟨row, key, b, hb, hbuilt, hid, -, hthere⟩ := hrow id data hdata
    refine ⟨b, hb, by rw [hbuilt.rows_eq, hid], ?_⟩
    obtain ⟨k, hk⟩ := hbuilt.keys i index hi htree
    have hmem := (hbuilt.mem_entries _).mpr ⟨i, index, k, hi, htree, hk, rfl⟩
    refine ⟨_, ⟨hmem, rfl, hthere _ hmem⟩, ?_⟩
    rintro entry ⟨hentry, hsame, -⟩
    obtain ⟨j, other, k', hj, hother, hk', rfl⟩ := (hbuilt.mem_entries entry).mp hentry
    obtain ⟨-, -, -, rfl, rfl⟩ := Schema.index_inj ht hp hj hother ht hp hi htree hsame
    obtain rfl := Except.ok.inj (hk'.symm.trans hk)
    rfl
  · intro e d hd
    have hagrees := hc.entries name t ht i index hi htree
    obtain ⟨⟨q, id⟩, data, hdata, he⟩ := hagrees.row_of_entry (⟨p, hlt⟩, e) d (by
      rw [hentryAt]
      exact hd)
    obtain ⟨w, hw, hwe⟩ := Option.map_eq_some_iff.mp he
    obtain ⟨hsame, rfl⟩ := Prod.mk.inj hwe
    obtain ⟨rfl, rfl⟩ := Prod.mk.inj hsame
    rw [hat] at hdata
    obtain ⟨row, key, b, hb, hbuilt, -, hplaced, -⟩ := hrow id data hdata
    obtain ⟨row', identity, k, hplaced', hk, hshort, rfl⟩ := StoredTable.entry_eq_some hw
    obtain ⟨rfl, rfl⟩ := Prod.mk.inj (Option.some.inj (hplaced'.symm.trans hplaced))
    have hmem := (hbuilt.mem_entries _).mpr ⟨i, index, k, hi, htree, hk, rfl⟩
    refine ⟨id, ⟨data, b, hdata, hb, hmem⟩, ?_⟩
    rintro id' ⟨data', b', hdata', hb', hmem'⟩
    obtain ⟨row', key', b'', hb'', hbuilt', -, hplaced', -⟩ := hrow id' data' hdata'
    obtain rfl := Option.some.inj (hb''.symm.trans hb')
    obtain ⟨j, other, k', hj, hother, hk', heq⟩ := (hbuilt'.mem_entries _).mp hmem'
    obtain ⟨hkey, hident⟩ := Prod.mk.inj heq
    obtain ⟨hsame, hbytes⟩ := TreeKey.mk.inj hkey
    obtain ⟨-, -, -, rfl, rfl⟩ := Schema.index_inj ht hp hi htree ht hp hj hother hsame
    have he' := StoredTable.entry_eq hplaced' hk' (hident ▸ hshort)
    rw [← hbytes, ← hident] at he'
    exact StoredTable.entry_row_unique hw he'

/-! ## Runs -/

/-- Writes that leave consistent the rows they were made over leave so those they are committed
to. -/
theorem Consistent.overlay {c : Schema} {writes : TreeKey → Option (Option (List UInt8))}
    {seen current : TreeKey → Option (List UInt8)} (hseen : Consistent c.toCatalog seen)
    (hview : Consistent c.toCatalog (overlay writes seen))
    (hcurrent : Consistent c.toCatalog current)
    (hsame : ∀ key, writes key ≠ none → current key = seen key) :
    Consistent c.toCatalog (overlay writes current) := by
  constructor
  · intro name t ht p part hp id data hdata
    cases hw : writes ⟨part.rows, id⟩ with
    | none =>
      rw [overlay_unwritten hw] at hdata
      exact hcurrent.rows name t ht p part hp id data hdata
    | some v =>
      rw [overlay_written hw] at hdata
      refine hview.rows name t ht p part hp id data ?_
      rw [overlay_written hw, hdata]
  · intro name t ht i index hi htree
    exact (hseen.entries name t ht i index hi htree).overlay
      (hview.entries name t ht i index hi htree) (hcurrent.entries name t ht i index hi htree) hsame

theorem language_keeps (c : Schema) :
    Server.Keeps (language c.toCatalog) (Consistent c.toCatalog) where
  statement st _ hc := statement_keeps c st hc
  commit _ _ _ hseen hview hcurrent hsame := hseen.overlay hview hcurrent hsame

/-- In every committed state of a run in which no transaction is committed that a statement failed
in once it had written, each partition's index has the entry that `row_tuples` makes of each of its
rows, and no others. -/
theorem indexes_agree (c : Schema) {db : Db TreeKey (List UInt8)} (hdb : Db.Reachable db)
    (hc : Consistent c.toCatalog db.committedRow) (sequences : String → Option UInt64)
    {s : Server TreeKey (List UInt8) String StatementError}
    (h : Lib.Reachable (Server.step (language c.toCatalog)) Server.CommitsWhole
      ⟨db, sequences, fun _ => none⟩ s) :
    ∀ (name : String) (t : StoredTable) (p : Nat) (part : StoredPartition) (i : Nat)
      (index : SqlIndex), c.tables name = some t → t.partitions[p]? = some part →
      t.table.indices[i]? = some index → index.hasTree = true →
      IndexAgrees c.toCatalog t part i s.db.committedRow := by
  intro name t p part i index ht hp hi htree
  have hcommitted := Server.committed_keeps (language_keeps c) hdb hc h
  exact hcommitted.indexAgrees ht hp hi htree

/-- An empty store is consistent. -/
theorem consistent_none (c : Catalog) : Consistent c fun _ => none := by
  constructor
  · intro name t ht p part hp id data hdata
    cases hdata
  · intro name t ht i index hi htree
    constructor
    · intro r x hx
      cases hx
    · intro e d hd
      cases hd

/-! ## An index of pairs -/

theorem pairCatalog_tables {name : String} {t : StoredTable}
    (h : pairCatalog.tables name = some t) : name = "t" ∧ t = pairTable := by
  have hif : (if name = "t" then some pairTable else none) = some t := h
  split at hif
  · next heq => exact ⟨heq, (Option.some.inj hif).symm⟩
  · cases hif

theorem pairCatalog_treeAt {s : Slot} {tree : UInt64} (h : pairCatalog.treeAt s = some tree) :
    s = ⟨"t", 0, none⟩ ∧ tree = 10 ∨ s = ⟨"t", 0, some 1⟩ ∧ tree = 11 := by
  obtain ⟨table, part, index⟩ := s
  obtain ⟨t, ht, hafter⟩ := Option.bind_eq_some_iff.mp h
  obtain ⟨rfl, rfl⟩ := pairCatalog_tables ht
  obtain ⟨p, hp, hslot⟩ := Option.bind_eq_some_iff.mp hafter
  have hpart : part = 0 ∧ p = ⟨⟨"p", .all⟩, 10, [0, 11]⟩ := by
    cases part with
    | zero => exact ⟨rfl, (Option.some.inj hp).symm⟩
    | succ n => cases hp
  obtain ⟨rfl, rfl⟩ := hpart
  cases index with
  | none => exact Or.inl ⟨rfl, (Option.some.inj hslot).symm⟩
  | some i =>
    obtain ⟨ix, hix, htree⟩ := Option.bind_eq_some_iff.mp hslot
    match i, hix with
    | 0, hix =>
      obtain rfl := Option.some.inj hix
      cases htree
    | 1, hix =>
      obtain rfl := Option.some.inj hix
      exact Or.inr ⟨rfl, (Option.some.inj htree).symm⟩

/-- The schema of pairs. -/
def pairSchema : Schema where
  toCatalog := pairCatalog
  distinct s s' tree h h' := by
    rcases pairCatalog_treeAt h with ⟨rfl, rfl⟩ | ⟨rfl, rfl⟩ <;>
      rcases pairCatalog_treeAt h' with ⟨rfl, htree⟩ | ⟨rfl, htree⟩ <;>
      first | rfl | cases htree
  versions_le name t ht := by
    obtain ⟨-, rfl⟩ := pairCatalog_tables ht
    decide
  fields_lt name t ht := by
    obtain ⟨-, rfl⟩ := pairCatalog_tables ht
    decide
  names_distinct name t ht := by
    obtain ⟨-, rfl⟩ := pairCatalog_tables ht
    decide
  default_typed name t ht f hf v hv := by
    obtain ⟨-, rfl⟩ := pairCatalog_tables ht
    have hnone : ∀ g ∈ pairTable.table.fields, g.default = none := by decide
    rw [hnone f hf] at hv
    cases hv

/-- The server over the empty store. -/
abbrev PairServer := Server TreeKey (List UInt8) String StatementError

/-- No row yet, and no transaction. -/
def noPairs : PairServer := ⟨Db.new, fun _ => none, fun _ => none⟩

/-- Two rows inserted in an open transaction, which commits; then, in a transaction of its own, one
with the second row's `b`. -/
def pairsAndDuplicate : List (Store.Event TreeKey (List UInt8) Statement) :=
  [.begin, .start 1 (.insert "t" none [[.integer 7, .integer 1], [.integer 8, .integer 2]])] ++
    List.replicate 5 (.call 1 [] none) ++
    [.commit 1, .autocommit (.insert "t" none [[.integer 9, .integer 2]])] ++
    List.replicate 3 (.call 7 [] none)

/-- The second row's key, and that of the one refused. -/
def secondKey : TreeKey := ⟨10, KeyCode.encode (.record [.integer 8]) []⟩
def refusedKey : TreeKey := ⟨10, KeyCode.encode (.record [.integer 9]) []⟩

/-- A second row with the first one's `b`, in a statement that fails, and then the commit. -/
def twoPairs : List (Store.Event TreeKey (List UInt8) Statement) :=
  [.begin, .start 1 (.insert "t" none [[.integer 7, .integer 1]]), .call 1 [] none,
    .call 1 [] none, .call 1 [] none, .start 1 (.insert "t" none [[.integer 8, .integer 1]]),
    .call 1 [] none, .call 1 [] none, .call 1 [] none, .commit 1]

/-- The index agrees with the two rows. -/
theorem indexes_agree_two_pairs :
    let s : PairServer := run (Server.step (language pairCatalog)) noPairs pairsAndDuplicate
    (s.db.committedRow firstKey).isSome = true ∧ (s.db.committedRow secondKey).isSome = true ∧
      s.db.rows refusedKey = none ∧
      IndexAgrees pairCatalog pairTable ⟨⟨"p", .all⟩, 10, [0, 11]⟩ 1 s.db.committedRow := by
  have hreach : Lib.Reachable (Server.step (language pairSchema.toCatalog)) Server.CommitsWhole
      noPairs (run (Server.step (language pairCatalog)) noPairs pairsAndDuplicate) :=
    reachable_run pairsAndDuplicate (by decide +kernel)
  have hempty : (Db.new : Db TreeKey (List UInt8)).committedRow = fun _ => none := rfl
  have hfacts := indexes_agree pairSchema Lib.Reachable.init
    (hempty ▸ consistent_none pairSchema.toCatalog) _ hreach
  exact ⟨by decide +kernel, by decide +kernel, by decide +kernel,
    hfacts "t" pairTable 0 _ 1 ⟨none, false, true, [⟨1, "b", .integer, false, none⟩]⟩ rfl rfl
      rfl rfl⟩

/-- The second row stays, without its entry, and is committed. -/
theorem failed_insert_leaves_no_entry :
    let s : PairServer := run (Server.step (language pairCatalog)) noPairs twoPairs
    (s.db.committedRow secondKey).isSome = true ∧
      ¬ IndexAgrees pairCatalog pairTable ⟨⟨"p", .all⟩, 10, [0, 11]⟩ 1 s.db.committedRow := by
  have hthere : ((run (Server.step (language pairCatalog)) noPairs twoPairs).db.committedRow
      secondKey).isSome = true := by decide +kernel
  refine ⟨hthere, fun h => ?_⟩
  obtain ⟨data, hdata⟩ := Option.isSome_iff_exists.mp hthere
  obtain ⟨b, hb, -, entry, ⟨hentry, -, hin⟩, -⟩ := h.entry_of_row _ _ hdata
  have hnone : (((run (Server.step (language pairCatalog)) noPairs twoPairs).db.committedRow
      secondKey).bind fun data => pairTable.tuplesAt pairCatalog.text secondKey.id data).all
        (fun b => b.entries.all fun entry =>
          decide ((run (Server.step (language pairCatalog)) noPairs twoPairs).db.committedRow
            entry.1 ≠ some entry.2)) = true := by decide +kernel
  have hbound : (((run (Server.step (language pairCatalog)) noPairs twoPairs).db.committedRow
      secondKey).bind fun data => pairTable.tuplesAt pairCatalog.text secondKey.id data) =
        some b := by
    rw [hdata]
    exact hb
  rw [hbound] at hnone
  have hall := List.all_eq_true.mp hnone entry hentry
  exact of_decide_eq_true hall hin

end SquealDb.Table
