import SquealDb.Doc.Collection
import SquealDb.Store.Keeping

/-!
# Documents and their index entries

Each index of a collection has the entries that `index_keys` makes of the documents there, each
leading to its document by the `_id` it holds, and no others.  `insert_doc`, `update_doc` and
`delete_doc` keep this, each of the one document that it writes.
-/

namespace SquealDb.Doc

open Codec Lib Store

/-- The documents of a map. -/
def docsOf (m : Place → Option Value) (key : IndexKey) : Option Document :=
  match m (.document key) with
  | some (.document doc) => some doc
  | _ => none

/-- The keys of a document in an index. -/
def HasKeys (ix : Index) (doc : Document) (keys : List IndexKey) : Prop :=
  ∃ entries multikey, indexKeys (κ := Place) ix doc = .ok (entries, multikey) ∧
    entries.map Prod.fst = keys

/-- The `_id` leads to the document with this key. -/
def LeadsTo (id : Value) (key : IndexKey) : Prop := idKey (κ := Place) id = .ok key

/-- The index has the entries of these documents, and no others. -/
structure EntriesFor (ix : Index) (docs : IndexKey → Option Document)
    (m : Place → Option Value) : Prop where
  held : ∀ key doc, docs key = some doc → ∃ keys, HasKeys ix doc keys ∧
    ∀ k ∈ keys, ∃ id, m (.entry ix.table k) = some id ∧ LeadsTo id key
  owned : ∀ k id, m (.entry ix.table k) = some id → ∃ key doc keys, LeadsTo id key ∧
    docs key = some doc ∧ HasKeys ix doc keys ∧ k ∈ keys

/-- Each document is under the key of its `_id`, and each index has the entries of the
documents. -/
structure Indexed (indexes : List Index) (m : Place → Option Value) : Prop where
  documents : ∀ key v, m (.document key) = some v →
    ∃ (doc : Document) (id : Value), v = .document doc ∧ doc.get "_id" = some id ∧ LeadsTo id key
  entries : ∀ ix ∈ indexes, EntriesFor ix (docsOf m) m

variable {doc : Document} {keys : List IndexKey} {id : Value} {m' : Place → Option Value}

theorem HasKeys.unique {ix : Index} {keys' : List IndexKey} (h : HasKeys ix doc keys)
    (h' : HasKeys ix doc keys') : keys = keys' := by
  obtain ⟨entries, multikey, hok, rfl⟩ := h
  obtain ⟨entries', multikey', hok', rfl⟩ := h'
  rw [hok] at hok'
  obtain ⟨rfl, -⟩ := Prod.mk.inj (Except.ok.inj hok')
  rfl

theorem LeadsTo.unique {key key' : IndexKey} (h : LeadsTo id key) (h' : LeadsTo id key') :
    key = key' :=
  Except.ok.inj (h.symm.trans h')

theorem docsOf_eq_some {m : Place → Option Value} {key : IndexKey}
    (h : m (.document key) = some (.document doc)) : docsOf m key = some doc := by
  rw [docsOf, h]

/-! ## One document's entries -/

/-- The keys of a document, none if there is none. -/
def KeysOf (ix : Index) : Option Document → List IndexKey → Prop
  | none, keys => keys = []
  | some doc, keys => HasKeys ix doc keys

/-- Where a map has the entries of a document under `key` changed from `before` to `after`. -/
structure Changes (ix : Index) (key : IndexKey) (before after : List IndexKey)
    (m m' : Place → Option Value) : Prop where
  fresh : ∀ k, k ∈ after → k ∉ before → m (.entry ix.table k) = none
  added : ∀ k, k ∈ after → k ∉ before →
    ∃ id, m' (.entry ix.table k) = some id ∧ LeadsTo id key
  gone : ∀ k, k ∈ before → k ∉ after → m' (.entry ix.table k) = none
  kept : ∀ k, (k ∈ before ↔ k ∈ after) → m' (.entry ix.table k) = m (.entry ix.table k)

/-- One document's entries change with it. -/
theorem EntriesFor.change {ix : Index} {docs : IndexKey → Option Document}
    {m : Place → Option Value} (h : EntriesFor ix docs m) {key : IndexKey} {new : Option Document}
    {before after : List IndexKey} (hbefore : KeysOf ix (docs key) before)
    (hafter : KeysOf ix new after) (hchanges : Changes ix key before after m m') :
    EntriesFor ix (Function.update docs key new) m' := by
  -- the entries before are the old document's
  have hheld : ∀ k ∈ before, ∃ id, m (.entry ix.table k) = some id ∧ LeadsTo id key := by
    intro k hk
    cases hold : docs key with
    | none =>
      rw [hold] at hbefore
      rw [show before = [] from hbefore] at hk
      cases hk
    | some doc =>
      rw [hold] at hbefore
      obtain ⟨keys, hkeys, hall⟩ := h.held key doc hold
      rw [hkeys.unique hbefore] at hall
      exact hall k hk
  constructor
  · intro other doc hdoc
    by_cases hother : other = key
    · subst hother
      rw [Function.update_self] at hdoc
      rw [hdoc] at hafter
      refine ⟨after, hafter, ?_⟩
      intro k hk
      by_cases hb : k ∈ before
      · rw [hchanges.kept k (iff_of_true hb hk)]
        exact hheld k hb
      · exact hchanges.added k hk hb
    · rw [Function.update_of_ne hother] at hdoc
      obtain ⟨keys, hkeys, hall⟩ := h.held other doc hdoc
      refine ⟨keys, hkeys, ?_⟩
      intro k hk
      obtain ⟨id, hid, hleads⟩ := hall k hk
      have hnot : k ∉ before := by
        intro hb
        obtain ⟨id', hid', hleads'⟩ := hheld k hb
        obtain rfl := Option.some.inj (hid.symm.trans hid')
        exact hother (hleads.unique hleads')
      have hnew : k ∉ after := by
        intro ha
        rw [hchanges.fresh k ha hnot] at hid
        cases hid
      exact ⟨id, by rw [hchanges.kept k (iff_of_false hnot hnew), hid], hleads⟩
  · intro k id hid
    by_cases hb : k ∈ before
    · by_cases ha : k ∈ after
      · rw [hchanges.kept k (iff_of_true hb ha)] at hid
        obtain ⟨id', hid', hleads'⟩ := hheld k hb
        obtain rfl := Option.some.inj (hid.symm.trans hid')
        cases new with
        | none =>
          rw [show after = [] from hafter] at ha
          cases ha
        | some doc => exact ⟨key, doc, after, hleads', Function.update_self _ _ _, hafter, ha⟩
      · rw [hchanges.gone k hb ha] at hid
        cases hid
    · by_cases ha : k ∈ after
      · obtain ⟨id', hid', hleads'⟩ := hchanges.added k ha hb
        obtain rfl := Option.some.inj (hid.symm.trans hid')
        cases new with
        | none =>
          rw [show after = [] from hafter] at ha
          cases ha
        | some doc => exact ⟨key, doc, after, hleads', Function.update_self _ _ _, hafter, ha⟩
      · rw [hchanges.kept k (iff_of_false hb ha)] at hid
        obtain ⟨other, doc, keys, hleads, hdoc, hkeys, hk⟩ := h.owned k id hid
        refine ⟨other, doc, keys, hleads, ?_, hkeys, hk⟩
        rw [Function.update_of_ne, hdoc]
        rintro rfl
        rw [hdoc] at hbefore
        rw [hkeys.unique hbefore] at hk
        exact hb hk

/-- What another table's entries are does not matter. -/
theorem EntriesFor.frame {ix : Index} {docs : IndexKey → Option Document}
    {m : Place → Option Value} (h : EntriesFor ix docs m)
    (hsame : ∀ k, m' (.entry ix.table k) = m (.entry ix.table k)) : EntriesFor ix docs m' := by
  constructor
  · intro key doc hdoc
    obtain ⟨keys, hkeys, hall⟩ := h.held key doc hdoc
    exact ⟨keys, hkeys, fun k hk => by rw [hsame k]; exact hall k hk⟩
  · intro k id hid
    rw [hsame k] at hid
    exact h.owned k id hid

/-! ## The calls of one document -/

/-- Only the entries of one index have changed. -/
def OnlyEntries (ix : Index) (m m' : Place → Option Value) : Prop :=
  ∀ place, (∀ k, place ≠ .entry ix.table k) → m' place = m place

theorem mem_keysBut {k : IndexKey} {others : List IndexKey} :
    k ∈ keysBut keys others ↔ k ∈ keys ∧ k ∉ others := by
  rw [keysBut, List.mem_filter, decide_eq_true_eq]

theorem mem_places {ix : Index} {k : IndexKey} :
    Place.entry ix.table k ∈ keys.map (Place.entry ix.table) ↔ k ∈ keys := by
  rw [List.mem_map]
  constructor
  · rintro ⟨k', hk', heq⟩
    cases heq
    exact hk'
  · exact fun hk => ⟨k, hk, rfl⟩

theorem entriesOf_places (ix : Index) (id : Value) (keys : List IndexKey) :
    (entriesOf ix id keys).map Prod.fst = keys.map (Place.entry ix.table) := by
  rw [entriesOf, List.map_map]
  rfl

/-- Keys go that are not among those after, and then those come that were not there before. -/
theorem changes_of {ix : Index} {key : IndexKey} {before after : List IndexKey}
    {m m₁ m₂ : Place → Option Value} (hid : LeadsTo id key)
    (hleaves : Leaves ((keysBut before after).map (Place.entry ix.table)) m m₁)
    (hjoins : Joins (entriesOf ix id (keysBut after before)) m₁ m₂) :
    Changes ix key before after m m₂ ∧ OnlyEntries ix m m₂ := by
  have hentry : ∀ {k}, k ∈ after → k ∉ before →
      (Place.entry ix.table k, id) ∈ entriesOf ix id (keysBut after before) :=
    fun ha hb => List.mem_map.mpr ⟨_, mem_keysBut.mpr ⟨ha, hb⟩, rfl⟩
  constructor
  · constructor
    · intro k ha hb
      have hnone := hjoins.fresh _ (hentry ha hb)
      rwa [hleaves.kept _ fun hmem => hb (mem_keysBut.mp (mem_places.mp hmem)).1] at hnone
    · exact fun k ha hb => ⟨id, hjoins.added _ (hentry ha hb), hid⟩
    · intro k hb ha
      rw [hjoins.kept, hleaves.gone _ (mem_places.mpr (mem_keysBut.mpr ⟨hb, ha⟩))]
      rw [entriesOf_places, mem_places, mem_keysBut]
      exact fun hmem => ha hmem.1
    · intro k hiff
      rw [hjoins.kept, hleaves.kept]
      · rw [mem_places, mem_keysBut]
        exact fun hmem => hmem.2 (hiff.mp hmem.1)
      · rw [entriesOf_places, mem_places, mem_keysBut]
        exact fun hmem => hmem.2 (hiff.mpr hmem.1)
  · intro place hplace
    rw [hjoins.kept, hleaves.kept]
    · intro hmem
      obtain ⟨k, -, rfl⟩ := List.mem_map.mp hmem
      exact hplace k rfl
    · rw [entriesOf_places]
      intro hmem
      obtain ⟨k, -, rfl⟩ := List.mem_map.mp hmem
      exact hplace k rfl

variable {ix : Index} {docs : IndexKey → Option Document} {m : Place → Option Value}
  {key : IndexKey}

theorem ensures_updateEntries (h : EntriesFor ix docs m) {old new : Document}
    (hold : docs key = some old) (hid : LeadsTo (docId new) key) :
    (updateEntries ix old new).Ensures (fun _ m' =>
      EntriesFor ix (Function.update docs key (some new)) m' ∧ OnlyEntries ix m m') m := by
  unfold updateEntries
  refine Script.ensures_bind (Script.ensures_ofExcept fun r hr => ?_)
  refine Script.ensures_bind (Script.ensures_ofExcept fun r' hr' => ?_)
  refine Script.ensures_bind (Script.ensures_removeAll _ fun m₁ hleaves => ?_)
  refine Script.ensures_insertAll _ fun m₂ hjoins => ?_
  obtain ⟨hchanges, honly⟩ := changes_of hid hleaves hjoins
  refine ⟨h.change ?_ ⟨r'.1, r'.2, hr', rfl⟩ hchanges, honly⟩
  rw [hold]
  exact ⟨r.1, r.2, hr, rfl⟩

theorem ensures_insertEntries (h : EntriesFor ix docs m) (hnone : docs key = none)
    (hid : LeadsTo (docId doc) key) :
    (insertEntries ix doc).Ensures (fun _ m' =>
      EntriesFor ix (Function.update docs key (some doc)) m' ∧ OnlyEntries ix m m') m := by
  unfold insertEntries
  refine Script.ensures_bind (Script.ensures_ofExcept fun r hr => ?_)
  refine Script.ensures_insertAll _ fun m₁ hjoins => ?_
  have hall : keysBut (r.1.map Prod.fst) [] = r.1.map Prod.fst :=
    List.filter_eq_self.mpr fun _ _ => decide_eq_true List.not_mem_nil
  have hleaves : Leaves ((keysBut [] (r.1.map Prod.fst)).map (Place.entry ix.table)) m m :=
    Leaves.nil m
  obtain ⟨hchanges, honly⟩ := changes_of hid hleaves (hall.symm ▸ hjoins)
  refine ⟨h.change ?_ ⟨r.1, r.2, hr, rfl⟩ hchanges, honly⟩
  rw [hnone]
  rfl

theorem ensures_deleteEntries (h : EntriesFor ix docs m) (hdoc : docs key = some doc)
    (hid : LeadsTo (docId doc) key) :
    (deleteEntries ix doc).Ensures (fun _ m' =>
      EntriesFor ix (Function.update docs key none) m' ∧ OnlyEntries ix m m') m := by
  unfold deleteEntries
  refine Script.ensures_bind (Script.ensures_ofExcept fun r hr => ?_)
  refine Script.ensures_removeAll _ fun m₁ hleaves => ?_
  have hall : keysBut (r.1.map Prod.fst) [] = r.1.map Prod.fst :=
    List.filter_eq_self.mpr fun _ _ => decide_eq_true List.not_mem_nil
  have hjoins : Joins (entriesOf ix (docId doc) (keysBut [] (r.1.map Prod.fst))) m₁ m₁ :=
    Joins.nil m₁
  obtain ⟨hchanges, honly⟩ := changes_of hid (hall.symm ▸ hleaves) hjoins
  refine ⟨h.change ?_ rfl hchanges, honly⟩
  rw [hdoc]
  exact ⟨r.1, r.2, hr, rfl⟩

/-! ## All the indexes -/

/-- Only the entries of these indexes have changed. -/
def OnlyIndexes (indexes : List Index) (m m' : Place → Option Value) : Prop :=
  ∀ place, (∀ ix ∈ indexes, ∀ k, place ≠ .entry ix.table k) → m' place = m place

/-- The loop over the indexes, each with a tree of its own. -/
theorem ensures_eachIndex {f : Index → Calls PUnit} {docs' : IndexKey → Option Document}
    (hf : ∀ ix m, EntriesFor ix docs m →
      (f ix).Ensures (fun _ m' => EntriesFor ix docs' m' ∧ OnlyEntries ix m m') m)
    {indexes : List Index} (hapart : (indexes.map Index.table).Nodup)
    (h : ∀ ix ∈ indexes, EntriesFor ix docs m) :
    (eachIndex f indexes).Ensures (fun _ m' =>
      (∀ ix ∈ indexes, EntriesFor ix docs' m') ∧ OnlyIndexes indexes m m') m := by
  induction indexes generalizing m with
  | nil => exact ⟨nofun, fun _ _ => rfl⟩
  | cons ix rest ih =>
    rw [List.map_cons, List.nodup_cons] at hapart
    have hother : ∀ other ∈ rest, ∀ k k', Place.entry other.table k ≠ .entry ix.table k' := by
      intro other hmem k k' heq
      have htable : other.table = ix.table := (Place.entry.inj heq).1
      exact hapart.1 (htable ▸ List.mem_map_of_mem hmem)
    refine Script.ensures_bind ((hf ix m (h ix List.mem_cons_self)).mono ?_)
    rintro ⟨⟩ m₁ ⟨hdone, honly⟩
    have hrest : ∀ other ∈ rest, EntriesFor other docs m₁ := fun other hmem =>
      (h other (List.mem_cons_of_mem _ hmem)).frame fun k =>
        honly _ fun k' => hother other hmem k k'
    refine (ih hapart.2 hrest).mono ?_
    rintro ⟨⟩ m₂ ⟨hall, honlyRest⟩
    constructor
    · intro other hmem
      rcases List.mem_cons.mp hmem with rfl | hmem
      · refine hdone.frame fun k => honlyRest _ fun other' hmem' k' heq => ?_
        exact hother other' hmem' k' k heq.symm
      · exact hall other hmem
    · intro place hplace
      rw [honlyRest place fun other hmem => hplace other (List.mem_cons_of_mem _ hmem)]
      exact honly place (hplace ix List.mem_cons_self)

/-! ## Documents -/

/-- The documents once one of them has been written. -/
theorem docsOf_update (m : Place → Option Value) (key : IndexKey) (doc : Document) :
    docsOf (Function.update m (.document key) (some (.document doc))) =
      Function.update (docsOf m) key (some doc) := by
  funext other
  by_cases hother : other = key
  · subst hother
    simp [docsOf]
  · have hne : Place.document other ≠ .document key := fun heq => hother (Place.document.inj heq)
    simp [docsOf, hother, hne]

theorem docsOf_remove (m : Place → Option Value) (key : IndexKey) :
    docsOf (Function.update m (.document key) none) = Function.update (docsOf m) key none := by
  funext other
  by_cases hother : other = key
  · subst hother
    simp [docsOf]
  · have hne : Place.document other ≠ .document key := fun heq => hother (Place.document.inj heq)
    simp [docsOf, hother, hne]

theorem entry_update (m : Place → Option Value) (key : IndexKey) (v : Option Value) (table : Nat)
    (k : IndexKey) : Function.update m (.document key) v (.entry table k) = m (.entry table k) := by
  have hne : Place.entry table k ≠ .document key := nofun
  exact Function.update_of_ne hne v m

theorem docsOf_congr (h : ∀ key, m' (.document key) = m (.document key)) :
    docsOf m' = docsOf m := by
  funext key
  rw [docsOf, docsOf, h key]

theorem OnlyIndexes.document {indexes : List Index} (h : OnlyIndexes indexes m m')
    (key : IndexKey) : m' (.document key) = m (.document key) :=
  h _ fun _ _ _ => nofun

theorem docId_eq (h : doc.get "_id" = some id) : docId doc = id := by
  rw [docId, h]
  rfl

/-- The documents after a write of one that has an `_id`. -/
theorem documents_update (hget : doc.get "_id" = some id) (hid : LeadsTo id key)
    (h : ∀ key v, m (.document key) = some v →
      ∃ (doc : Document) (id : Value), v = .document doc ∧ doc.get "_id" = some id ∧ LeadsTo id key)
    (hkey : m' (.document key) = some (.document doc))
    (hother : ∀ other, other ≠ key → m' (.document other) = m (.document other)) :
    ∀ key v, m' (.document key) = some v →
      ∃ (doc : Document) (id : Value), v = .document doc ∧ doc.get "_id" = some id ∧
        LeadsTo id key := by
  intro other v hv
  by_cases heq : other = key
  · subst heq
    obtain rfl := Option.some.inj (hkey.symm.trans hv)
    exact ⟨doc, id, rfl, hget, hid⟩
  · rw [hother other heq] at hv
    exact h other v hv

variable {indexes : List Index}

theorem ensures_insertDoc (hapart : (indexes.map Index.table).Nodup) (h : Indexed indexes m)
    (hget : doc.get "_id" = some id) :
    (insertDoc indexes doc).Ensures (fun _ m' => Indexed indexes m') m := by
  unfold insertDoc
  refine Script.ensures_bind (Script.ensures_ofExcept fun key hkey => ?_)
  have hleads : LeadsTo (docId doc) key := hkey
  refine Script.ensures_bind ?_
  intro hnone
  have hdocs := docsOf_update m key doc
  generalize hm₁ : Function.update m (.document key) (some (.document doc)) = m₁ at hdocs ⊢
  have hsame : ∀ ix ∈ indexes, EntriesFor ix (docsOf m) m₁ := fun ix hix =>
    (h.entries ix hix).frame fun k => by rw [← hm₁, entry_update]
  have hnew : docsOf m key = none := by rw [docsOf, hnone]
  refine (ensures_eachIndex (fun ix m' hix => ensures_insertEntries hix hnew hleads)
    hapart hsame).mono ?_
  rintro ⟨⟩ m₂ ⟨hall, honly⟩
  constructor
  · refine documents_update hget (docId_eq hget ▸ hleads) h.documents ?_ ?_
    · rw [honly.document, ← hm₁, Function.update_self]
    · intro other hother
      rw [honly.document, ← hm₁, Function.update_of_ne]
      exact fun heq => hother (Place.document.inj heq)
  · rw [docsOf_congr honly.document, hdocs]
    exact hall

/-- What the writes of one document leave of the others. -/
def OthersKept (key : IndexKey) (m m' : Place → Option Value) : Prop :=
  ∀ other, other ≠ key → m' (.document other) = m (.document other)

theorem ensures_updateDoc (hapart : (indexes.map Index.table).Nodup) (h : Indexed indexes m)
    {old new : Document} (hold : m (.document key) = some (.document old))
    (hget : new.get "_id" = some id) (hid : LeadsTo id key) :
    (updateDoc indexes old new).Ensures
      (fun _ m' => Indexed indexes m' ∧ OthersKept key m m') m := by
  unfold updateDoc
  have hleads : LeadsTo (docId new) key := docId_eq hget ▸ hid
  refine Script.ensures_bind ((ensures_eachIndex
    (fun ix m' hix => ensures_updateEntries hix (docsOf_eq_some hold) hleads) hapart
    h.entries).mono ?_)
  rintro ⟨⟩ m₁ ⟨hall, honly⟩
  refine Script.ensures_bind (Script.ensures_ofExcept fun key' hkey => ?_)
  obtain rfl := hleads.unique hkey
  intro hthere
  have hkept : OthersKept key m (Function.update m₁ (.document key) (some (.document new))) := by
    intro other hother
    rw [Function.update_of_ne, honly.document]
    exact fun heq => hother (Place.document.inj heq)
  refine ⟨⟨documents_update hget hid h.documents (Function.update_self _ _ _) hkept, ?_⟩, hkept⟩
  intro ix hix
  rw [docsOf_update, docsOf_congr honly.document]
  exact (hall ix hix).frame fun k => entry_update m₁ key _ ix.table k

theorem ensures_deleteDoc (hapart : (indexes.map Index.table).Nodup) (h : Indexed indexes m)
    (hdoc : m (.document key) = some (.document doc)) :
    (deleteDoc indexes doc).Ensures
      (fun _ m' => Indexed indexes m' ∧ OthersKept key m m') m := by
  unfold deleteDoc
  obtain ⟨doc', id, heq, hget, hid⟩ := h.documents key _ hdoc
  cases heq
  have hleads : LeadsTo (docId doc) key := docId_eq hget ▸ hid
  refine Script.ensures_bind ((ensures_eachIndex
    (fun ix m' hix => ensures_deleteEntries hix (docsOf_eq_some hdoc) hleads) hapart
    h.entries).mono ?_)
  rintro ⟨⟩ m₁ ⟨hall, honly⟩
  refine Script.ensures_bind (Script.ensures_ofExcept fun key' hkey => ?_)
  obtain rfl := hleads.unique hkey
  intro hthere
  have hkept : OthersKept key m (Function.update m₁ (.document key) none) := by
    intro other hother
    rw [Function.update_of_ne, honly.document]
    exact fun heq => hother (Place.document.inj heq)
  refine ⟨⟨?_, ?_⟩, hkept⟩
  · intro other v hv
    by_cases hother : other = key
    · subst hother
      rw [Function.update_self] at hv
      cases hv
    · rw [hkept other hother] at hv
      exact h.documents other v hv
  · intro ix hix
    rw [docsOf_remove, docsOf_congr honly.document]
    exact (hall ix hix).frame fun k => entry_update m₁ key _ ix.table k

end SquealDb.Doc
