import SquealDb.Doc.IndexRuns

/-!
# Unique indexes

A unique index has a document under its values alone, without its `_id`, so that two documents with
the same values would have the same entry, and an entry leads to one document.
-/

namespace SquealDb.Doc

open Codec Lib Store

variable {indexes : List Index} {m : Place → Option Value} {ix : Index} {doc : Document}
  {values : List Value}

/-- The index has the document under these values. -/
def Holds (ix : Index) (doc : Document) (values : List Value) : Prop :=
  ∃ entries multikey key, indexKeys (κ := Place) ix doc = .ok (entries, multikey) ∧
    (key, values) ∈ entries

/-- Each document is under its `_id`, and no unique index has two under values encoded alike. -/
structure Distinct (indexes : List Index) (m : Place → Option Value) : Prop where
  own : ∀ key doc, docsOf m key = some doc → ∃ id, doc.get "_id" = some id ∧ LeadsTo id key
  one : ∀ ix ∈ indexes, ix.unique = true → ∀ key key' doc doc' values values',
    docsOf m key = some doc → docsOf m key' = some doc' → Holds ix doc values →
    Holds ix doc' values' → values.flatMap encode = values'.flatMap encode → key = key'

/-- An entry of a unique index is under the document's values alone. -/
theorem Holds.entry (h : Holds ix doc values) (hunique : ix.unique = true) {keys : List IndexKey}
    (hkeys : HasKeys ix doc keys) : values.flatMap encode ∈ keys := by
  obtain ⟨entries, multikey, key, hentries, hmem⟩ := h
  have hsame := hkeys.unique ⟨entries, multikey, hentries, rfl⟩
  unfold indexKeys at hentries
  dsimp only at hentries
  split at hentries
  · cases hentries
  · obtain ⟨kept, hkept, hrest⟩ := bind_ok_iff.mp hentries
    obtain ⟨rfl, -⟩ := Prod.mk.inj (Except.ok.inj hrest)
    obtain ⟨combo, -, hentry⟩ := mem_of_forall₂ (forall₂_of_mapM hkept) hmem
    obtain ⟨k, hk, hafter⟩ := bind_ok_iff.mp hentry
    obtain ⟨u, -, hpair⟩ := bind_ok_iff.mp hafter
    obtain ⟨rfl, rfl⟩ := Prod.mk.inj (Except.ok.inj hpair)
    have hvalues : k = combo.flatMap encode := by
      unfold newKey keyItems at hk
      rw [if_pos hunique, List.append_nil] at hk
      split at hk
      · cases hk
      · exact (Except.ok.inj hk).symm
    rw [← hvalues, hsame]
    exact List.mem_map_of_mem hmem

theorem Indexed.distinct (h : Indexed indexes m) : Distinct indexes m := by
  constructor
  · intro key doc hdoc
    unfold docsOf at hdoc
    split at hdoc
    · next d hd =>
        obtain rfl := Option.some.inj hdoc
        obtain ⟨doc', id, heq, hid, hleads⟩ := h.documents key _ hd
        obtain rfl := Value.document.inj heq
        exact ⟨id, hid, hleads⟩
    · cases hdoc
  · intro ix hix hunique key key' doc doc' values values' hdoc hdoc' hvalues hvalues' hsame
    obtain ⟨keys, hkeys, hheld⟩ := (h.entries ix hix).held key doc hdoc
    obtain ⟨keys', hkeys', hheld'⟩ := (h.entries ix hix).held key' doc' hdoc'
    obtain ⟨id, hid, hleads⟩ := hheld _ (hvalues.entry hunique hkeys)
    obtain ⟨id', hid', hleads'⟩ := hheld' _ (hvalues'.entry hunique hkeys')
    rw [hsame, hid'] at hid
    obtain rfl := Option.some.inj hid
    exact hleads.unique hleads'

/-- In every snapshot of every run in which no update accepts an `_id` with another key, each
document is under its `_id`, and no two are in a unique index under the same values. -/
theorem unique_documents (hapart : (indexes.map Index.table).Nodup) {s : Sessions}
    (h : Reachable (step indexes) (Meets Statement.KeepsIds)
      ⟨Db.new, fun _ => none, fun _ => none⟩ s) : InSnapshots (Distinct indexes) s := by
  have hempty : Indexed indexes (Db.new : Db Place Value).committedRow := by
    constructor
    · intro key v hv
      cases hv
    · intro ix hix
      constructor
      · intro key doc hdoc
        cases hdoc
      · intro k id hid
        cases hid
  have hsnapshots := snapshots_keep (indexed_keeps hapart) .init hempty h
  exact ⟨hsnapshots.committed.distinct, fun txn session hs =>
    (hsnapshots.begun txn session hs).distinct,
    fun txn session hs hidle => (hsnapshots.between txn session hs hidle).distinct⟩

/-- A unique index on one field. -/
def uniqueA : Index := ⟨"a_1", [("a", 1)], true, 1⟩

/-- The replacement is refused, as the first document has the value that it sets. -/
theorem unique_documents_both :
    (run (step [uniqueA]) ⟨Db.new, fun _ => none, fun _ => none⟩ writesBoth).db.committedRow
        (.document (encode doubleId)) = some (.document secondDoc) ∧
      InSnapshots (Distinct [uniqueA])
        (run (step [uniqueA]) ⟨Db.new, fun _ => none, fun _ => none⟩ writesBoth) :=
  ⟨by decide +kernel,
    unique_documents (by decide) (writesBoth_met (by decide +kernel) (by decide +kernel))⟩

end SquealDb.Doc
