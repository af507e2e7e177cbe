import SquealDb.Doc.IndexAgreement
import SquealDb.Doc.Runs

/-!
# Indexes over whole runs

Each document that a statement writes takes its entries with it, in the order in which the
statement writes them, and what a transaction commits over rows that others have committed since
it began keeps their indexes in step as well.
-/

namespace SquealDb.Doc

open Codec Lib Store

variable {indexes : List Index} {m : Place → Option Value}

/-! ## Statements -/

/-- The update leaves the keys of the `_id`s that it accepts. -/
def Update.KeepsIds (update : Update) : Prop :=
  ∀ doc id new, doc.get "_id" = some id → update.result doc = .ok new →
    ∃ id', new.get "_id" = some id' ∧ encode id' = encode id

/-- So do those of a statement. -/
def Statement.KeepsIds : Statement → Prop
  | update u _ => u.KeepsIds
  | _ => True

/-- The documents are there, each under a key of its own. -/
inductive Found (m : Place → Option Value) : List IndexKey → List Document → Prop
  | nil : Found m [] []
  | cons {key : IndexKey} {doc : Document} {keys : List IndexKey} {docs : List Document} :
      m (.document key) = some (.document doc) → key ∉ keys → Found m keys docs →
      Found m (key :: keys) (doc :: docs)

variable {keys : List IndexKey} {docs : List Document}

theorem Found.frame {m' : Place → Option Value} (h : Found m keys docs)
    (hkept : ∀ key ∈ keys, m' (.document key) = m (.document key)) :
    Found m' keys docs := by
  induction h with
  | nil => exact .nil
  | cons hdoc hnot _ ih =>
    rw [List.forall_mem_cons] at hkept
    exact .cons (hkept.1.trans hdoc) hnot (ih hkept.2)

/-- The rows that a statement is given. -/
theorem found_of_selects {rows : List (Place × Value)} (h : Indexed indexes m)
    (hrows : Selects isDocument m rows) : ∃ keys, Found m keys (foundDocs rows) ∧
      ∀ key ∈ keys, Place.document key ∈ rows.map Prod.fst := by
  induction rows with
  | nil => exact ⟨[], .nil, nofun⟩
  | cons row rest ih =>
    have honce := hrows.once
    rw [List.map_cons, List.nodup_cons] at honce
    obtain ⟨keys, hfound, hin⟩ := ih ⟨fun row hrow => hrows.on row (List.mem_cons_of_mem _ hrow),
      fun row hrow => hrows.there row (List.mem_cons_of_mem _ hrow), honce.2⟩
    obtain ⟨place, v⟩ := row
    have hon : isDocument place = true := hrows.on (place, v) List.mem_cons_self
    have hthere : m place = some v := hrows.there (place, v) List.mem_cons_self
    cases place with
    | entry table k => cases hon
    | document key =>
      obtain ⟨doc, id, rfl, -, -⟩ := h.documents key v hthere
      refine ⟨key :: keys, .cons hthere (fun hmem => honce.1 (hin key hmem)) hfound, ?_⟩
      rw [List.forall_mem_cons]
      exact ⟨List.mem_cons_self, fun other hother => List.mem_cons_of_mem _ (hin other hother)⟩

theorem prepareInsert_id {fresh : ObjectId} {doc doc' : Document}
    (h : prepareInsert fresh doc = .ok doc') : ∃ id, doc'.get "_id" = some id := by
  unfold prepareInsert at h
  split at h
  · cases h
  · split at h
    · rw [← Except.ok.inj h]
      exact ⟨_, rfl⟩
    · cases h
    · rw [← Except.ok.inj h]
      exact ⟨_, rfl⟩

variable (hapart : (indexes.map Index.table).Nodup)

include hapart

theorem ensures_prepared (h : Indexed indexes m) (fresh : ObjectId) (doc : Document)
    {next : Calls PUnit} (hnext : ∀ m', Indexed indexes m' →
      next.Ensures (fun _ m' => Indexed indexes m') m') :
    (do
      let doc ← Script.ofExcept (prepareInsert fresh doc)
      insertDoc indexes doc
      next).Ensures (fun _ m' => Indexed indexes m') m := by
  refine Script.ensures_bind (Script.ensures_ofExcept fun doc' hdoc => ?_)
  obtain ⟨id, hid⟩ := prepareInsert_id hdoc
  exact Script.ensures_bind ((ensures_insertDoc hapart h hid).mono fun _ m' h' => hnext m' h')

theorem ensures_insertEach (docs : List (Document × ObjectId)) (h : Indexed indexes m) :
    (insertEach indexes docs).Ensures (fun _ m' => Indexed indexes m') m := by
  induction docs generalizing m with
  | nil => exact h
  | cons row rest ih => exact ensures_prepared hapart h row.2 row.1 fun m' h' => ih h'

theorem ensures_updateEach {update : Update} (hids : update.KeepsIds) (hfound : Found m keys docs)
    (h : Indexed indexes m) :
    (updateEach indexes update docs).Ensures (fun _ m' => Indexed indexes m') m := by
  induction docs generalizing m keys with
  | nil => exact h
  | cons old rest ih =>
    cases hfound with
    | @cons key _ keys _ hold hnot hrest =>
      refine Script.ensures_bind (Script.ensures_ofExcept fun r hr => ?_)
      obtain ⟨new, changed⟩ := r
      cases changed with
      | false => exact ih hrest h
      | true =>
        obtain ⟨doc, id, heq, hget, hid⟩ := h.documents key _ hold
        cases heq
        have hresult : update.result old = .ok new := by
          unfold Update.apply at hr
          cases hres : update.result old with
          | error e => rw [hres] at hr; cases hr
          | ok after =>
            rw [hres] at hr
            exact congrArg Except.ok (Prod.mk.inj (Except.ok.inj hr)).1
        obtain ⟨id', hget', hencode⟩ := hids old id new hget hresult
        have hid' : LeadsTo id' key := by
          unfold LeadsTo idKey at hid ⊢
          rw [hencode]
          exact hid
        refine Script.ensures_bind ((ensures_updateDoc hapart h hold hget' hid').mono ?_)
        intro _ m' hm'
        refine ih (hrest.frame fun other hother => hm'.2 other ?_) hm'.1
        exact fun heq => hnot (heq ▸ hother)

theorem ensures_deleteEach (hfound : Found m keys docs) (h : Indexed indexes m) :
    (deleteEach indexes docs).Ensures (fun _ m' => Indexed indexes m') m := by
  induction docs generalizing m keys with
  | nil => exact h
  | cons doc rest ih =>
    cases hfound with
    | @cons key _ keys _ hdoc hnot hrest =>
      refine Script.ensures_bind ((ensures_deleteDoc hapart h hdoc).mono ?_)
      intro _ m' hm'
      refine ih (hrest.frame fun other hother => hm'.2 other ?_) hm'.1
      exact fun heq => hnot (heq ▸ hother)

/-- A statement that succeeds leaves each index with the entries of the documents. -/
theorem statement_keeps {statement : Statement} (hids : statement.KeepsIds)
    (h : Indexed indexes m) :
    (statement.calls indexes).Ensures (fun _ m' => Indexed indexes m') m := by
  cases statement with
  | insertMany docs => exact ensures_insertEach hapart docs h
  | update u upsert =>
    intro rows hrows
    obtain ⟨keys, hfound, -⟩ := found_of_selects h hrows
    dsimp only
    split
    · cases upsert with
      | none => exact h
      | some start =>
        refine Script.ensures_bind (Script.ensures_ofExcept fun doc _ => ?_)
        exact Script.ensures_bind (Script.ensures_ofExcept fun doc' hdoc => by
          obtain ⟨id, hid⟩ := prepareInsert_id hdoc
          exact ensures_insertDoc hapart h hid)
    · exact ensures_updateEach hapart hids hfound h
  | delete =>
    intro rows hrows
    obtain ⟨keys, hfound, -⟩ := found_of_selects h hrows
    exact ensures_deleteEach hapart hfound h

/-! ## Commits -/

omit hapart

section Commit

variable {ix : Index} {writes : Place → Option (Option Value)}
  {seen current : Place → Option Value}

variable {key : IndexKey}

theorem docsOf_written (h : writes (.document key) ≠ none) (base base' : Place → Option Value) :
    docsOf (overlay writes base) key = docsOf (overlay writes base') key := by
  obtain ⟨v, hv⟩ := Option.ne_none_iff_exists'.mp h
  rw [docsOf, docsOf, overlay_written hv, overlay_written hv]

theorem docsOf_unwritten (h : writes (.document key) = none) (base : Place → Option Value) :
    docsOf (overlay writes base) key = docsOf base key := by
  rw [docsOf, docsOf, overlay_unwritten h]

theorem docsOf_same (hsame : ∀ place, writes place ≠ none → current place = seen place)
    (h : writes (.document key) ≠ none) : docsOf current key = docsOf seen key := by
  rw [docsOf, docsOf, hsame _ h]

/-- The entry at a key is that of the document it leads to. -/
theorem EntriesFor.entry {docs : IndexKey → Option Document} (h : EntriesFor ix docs m)
    {k : IndexKey} {doc : Document} {keys : List IndexKey} (hdoc : docs key = some doc)
    (hkeys : HasKeys ix doc keys) (hk : k ∈ keys) :
    ∃ id, m (.entry ix.table k) = some id ∧ LeadsTo id key := by
  obtain ⟨keys', hkeys', hheld⟩ := h.held key doc hdoc
  rw [hkeys.unique hkeys'] at hk
  exact hheld k hk

/-- The document that an entry leads to has the entry's key. -/
theorem EntriesFor.owner {docs : IndexKey → Option Document} (h : EntriesFor ix docs m)
    {k : IndexKey} {id : Value} (hid : m (.entry ix.table k) = some id) (hleads : LeadsTo id key) :
    ∃ doc keys, docs key = some doc ∧ HasKeys ix doc keys ∧ k ∈ keys := by
  obtain ⟨key', doc, keys, hleads', hdoc, hkeys, hk⟩ := h.owned k id hid
  rw [hleads.unique hleads']
  exact ⟨doc, keys, hdoc, hkeys, hk⟩

/-- An index is in step with the writes of a transaction over rows that others have written
since, where it is so with them over the rows that the transaction saw. -/
theorem EntriesFor.overlay (hseen : EntriesFor ix (docsOf seen) seen)
    (hmine : EntriesFor ix (docsOf (overlay writes seen)) (overlay writes seen))
    (hcurrent : EntriesFor ix (docsOf current) current)
    (hsame : ∀ place, writes place ≠ none → current place = seen place) :
    EntriesFor ix (docsOf (Lib.overlay writes current)) (Lib.overlay writes current) := by
  constructor
  · intro key doc hdoc
    by_cases hwritten : writes (.document key) = none
    · rw [docsOf_unwritten hwritten] at hdoc
      obtain ⟨keys, hkeys, hheld⟩ := hcurrent.held key doc hdoc
      refine ⟨keys, hkeys, fun k hk => ?_⟩
      obtain ⟨id, hid, hleads⟩ := hheld k hk
      by_cases hentry : writes (.entry ix.table k) = none
      · exact ⟨id, (overlay_unwritten hentry current).trans hid, hleads⟩
      · -- the entry was there before, and the document it leads to still has it
        rw [hsame _ hentry] at hid
        obtain ⟨doc', keys', hdoc', hkeys', hk'⟩ := hseen.owner hid hleads
        rw [← docsOf_unwritten hwritten seen] at hdoc'
        obtain ⟨id', hid', hleads'⟩ := hmine.entry hdoc' hkeys' hk'
        obtain ⟨v, hv⟩ := Option.ne_none_iff_exists'.mp hentry
        rw [overlay_written hv] at hid'
        exact ⟨id', (overlay_written hv current).trans hid', hleads'⟩
    · rw [docsOf_written hwritten current seen] at hdoc
      obtain ⟨keys, hkeys, hheld⟩ := hmine.held key doc hdoc
      refine ⟨keys, hkeys, fun k hk => ?_⟩
      obtain ⟨id, hid, hleads⟩ := hheld k hk
      by_cases hentry : writes (.entry ix.table k) = none
      · rw [overlay_unwritten hentry] at hid
        obtain ⟨doc', keys', hdoc', hkeys', hk'⟩ := hseen.owner hid hleads
        rw [← docsOf_same hsame hwritten] at hdoc'
        obtain ⟨id', hid', hleads'⟩ := hcurrent.entry hdoc' hkeys' hk'
        exact ⟨id', (overlay_unwritten hentry current).trans hid', hleads'⟩
      · obtain ⟨v, hv⟩ := Option.ne_none_iff_exists'.mp hentry
        rw [overlay_written hv] at hid
        exact ⟨id, (overlay_written hv current).trans hid, hleads⟩
  · intro k id hid
    by_cases hentry : writes (.entry ix.table k) = none
    · rw [overlay_unwritten hentry] at hid
      obtain ⟨key, doc, keys, hleads, hdoc, hkeys, hk⟩ := hcurrent.owned k id hid
      by_cases hwritten : writes (.document key) = none
      · exact ⟨key, doc, keys, hleads, (docsOf_unwritten hwritten current).trans hdoc, hkeys, hk⟩
      · -- the document's entry is not written, so it has it afterwards as before
        rw [docsOf_same hsame hwritten] at hdoc
        obtain ⟨id', hid', hleads'⟩ := hseen.entry hdoc hkeys hk
        rw [← overlay_unwritten hentry seen] at hid'
        obtain ⟨doc', keys', hdoc', hkeys', hk'⟩ := hmine.owner hid' hleads'
        exact ⟨key, doc', keys', hleads, (docsOf_written hwritten current seen).trans hdoc',
          hkeys', hk'⟩
    · obtain ⟨v, hv⟩ := Option.ne_none_iff_exists'.mp hentry
      rw [overlay_written hv] at hid
      rw [← overlay_written hv seen] at hid
      obtain ⟨key, doc, keys, hleads, hdoc, hkeys, hk⟩ := hmine.owned k id hid
      by_cases hwritten : writes (.document key) = none
      · rw [docsOf_unwritten hwritten] at hdoc
        obtain ⟨id', hid', hleads'⟩ := hseen.entry hdoc hkeys hk
        rw [← hsame _ hentry] at hid'
        obtain ⟨doc', keys', hdoc', hkeys', hk'⟩ := hcurrent.owner hid' hleads'
        exact ⟨key, doc', keys', hleads, (docsOf_unwritten hwritten current).trans hdoc', hkeys',
          hk'⟩
      · exact ⟨key, doc, keys, hleads, (docsOf_written hwritten current seen).trans hdoc, hkeys,
          hk⟩

theorem indexed_overlay (hseen : Indexed indexes seen)
    (hmine : Indexed indexes (overlay writes seen)) (hcurrent : Indexed indexes current)
    (hsame : ∀ place, writes place ≠ none → current place = seen place) :
    Indexed indexes (overlay writes current) := by
  constructor
  · intro key v hv
    cases hwritten : writes (.document key) with
    | none =>
      rw [overlay_unwritten hwritten] at hv
      exact hcurrent.documents key v hv
    | some w =>
      rw [overlay_written hwritten] at hv
      exact hmine.documents key v ((overlay_written hwritten seen).trans hv)
  · intro ix hix
    exact (hseen.entries ix hix).overlay (hmine.entries ix hix) (hcurrent.entries ix hix) hsame

end Commit

/-! ## Runs -/

theorem indexed_keeps (hapart : (indexes.map Index.table).Nodup) :
    Server.Keeps ((language indexes).only Statement.KeepsIds) (Indexed indexes) where
  statement st _ h := statement_keeps hapart st.2 h
  commit _ _ _ hseen hmine hcurrent hsame := indexed_overlay hseen hmine hcurrent hsame

/-- In every run in which no update accepts an `_id` with another key, each index has in every
snapshot the entries that `index_keys` makes of the documents there, each with the `_id` of its
document, and no others. -/
theorem entries_agree (hapart : (indexes.map Index.table).Nodup) {s : Sessions}
    (h : Reachable (step indexes) (Meets Statement.KeepsIds)
      ⟨Db.new, fun _ => none, fun _ => none⟩ s) : InSnapshots (Indexed indexes) s := by
  refine snapshots_keep (indexed_keeps hapart) .init ?_ h
  constructor
  · exact fun _ _ => nofun
  · exact fun ix _ => ⟨fun _ _ => nofun, fun _ _ => nofun⟩

/-- An index on one field. -/
def onA : Index := ⟨"a_1", [("a", 1)], false, 1⟩

/-- Two `_id`s that are equal, but not encoded alike. -/
def intId : Value := .document [("x", .int 1)]
def doubleId : Value := .document [("x", .double 0x3FF0000000000000)]

def firstDoc : Document := [("_id", intId), ("a", .bool true)]
def secondDoc : Document := [("_id", doubleId), ("a", .bool false)]

/-- Both documents are inserted. -/
def insertsBoth : List (Event Place Value Statement) :=
  .autocommit (.insertMany [(firstDoc, someObjectId), (secondDoc, someObjectId)]) ::
    List.replicate 5 (.call 1 [] none)

/-- Then the second is replaced, the first inserted again, which fails, and deleted. -/
def writesBoth : List (Event Place Value Statement) :=
  insertsBoth ++ .autocommit (.update (.replace [("a", .bool true)]) none) ::
    .call 7 [(.document (encode doubleId), .document secondDoc)] none ::
    (List.replicate 4 (.call 7 [] none) ++
      .autocommit (.insertMany [(firstDoc, someObjectId)]) ::
      .call 12 [] none :: .call 12 [] none ::
      .autocommit .delete :: .call 14 [(.document (encode intId), .document firstDoc)] none ::
      List.replicate 3 (.call 14 [] none))

/-- A replacement keeps the `_id`. -/
theorem replace_keepsIds (new : Document) : (Update.replace new).KeepsIds := by
  intro doc id after hid hafter
  have hkept : after = new.insertFirst "_id" id := by
    rw [Update.result, hid] at hafter
    split at hafter
    · split at hafter
      · next heq _ _ => rw [← Except.ok.inj hafter, Option.some.inj heq]
      · cases hafter
    · next heq _ => rw [← Except.ok.inj hafter, Option.some.inj heq]
    · next heq => cases heq
  rw [hkept]
  exact ⟨id, rfl, rfl⟩

theorem writesBoth_met {ix : Index}
    (hreplaces : Meets (fun _ => True)
      (run (step [ix]) ⟨Db.new, fun _ => none, fun _ => none⟩ (writesBoth.take 7))
      (.call 7 [(.document (encode doubleId), .document secondDoc)] none))
    (hdeletes : Meets (fun _ => True)
      (run (step [ix]) ⟨Db.new, fun _ => none, fun _ => none⟩ (writesBoth.take 16))
      (.call 14 [(.document (encode intId), .document firstDoc)] none)) :
    Reachable (step [ix]) (Meets Statement.KeepsIds) ⟨Db.new, fun _ => none, fun _ => none⟩
      (run (step [ix]) ⟨Db.new, fun _ => none, fun _ => none⟩ writesBoth) :=
  reachable_run writesBoth ⟨trivial, meets_call_nil, meets_call_nil, meets_call_nil,
    meets_call_nil, meets_call_nil, replace_keepsIds _, hreplaces, meets_call_nil, meets_call_nil,
    meets_call_nil, meets_call_nil, trivial, meets_call_nil, meets_call_nil, trivial, hdeletes,
    meets_call_nil, meets_call_nil, meets_call_nil, trivial⟩

theorem entries_agree_both :
    (run (step [onA]) ⟨Db.new, fun _ => none, fun _ => none⟩ writesBoth).db.committedRow
        (.document (encode intId)) = none ∧
      (run (step [onA]) ⟨Db.new, fun _ => none, fun _ => none⟩ writesBoth).db.committedRow
        (.document (encode doubleId)) =
          some (.document [("_id", doubleId), ("a", .bool true)]) ∧
      InSnapshots (Indexed [onA])
        (run (step [onA]) ⟨Db.new, fun _ => none, fun _ => none⟩ writesBoth) :=
  ⟨by decide +kernel, by decide +kernel,
    entries_agree (by decide) (writesBoth_met (by decide +kernel) (by decide +kernel))⟩

/-- The first document's `_id` is set to that of the second. -/
def setsId : List (Event Place Value Statement) :=
  .autocommit (.update (.ops fun doc => .ok (doc.insert "_id" doubleId)) none) ::
    .call 7 [(.document (encode intId), .document firstDoc)] none ::
    List.replicate 4 (.call 7 [] none)

/-- The update takes the place of the other document, and its own place keeps a document that
the index has no entry of. -/
theorem update_takes_another_place :
    ∃ s, Reachable (step [onA]) (Meets fun _ => True) ⟨Db.new, fun _ => none, fun _ => none⟩ s ∧
      ¬ InSnapshots (Indexed [onA]) s := by
  refine ⟨_, reachable_run (insertsBoth ++ setsId) (by decide +kernel), fun h => ?_⟩
  have hdoc : docsOf (run (step [onA]) ⟨Db.new, fun _ => none, fun _ => none⟩
      (insertsBoth ++ setsId)).db.committedRow (encode intId) = some firstDoc := by
    decide +kernel
  obtain ⟨keys, ⟨entries, multikey, hok, rfl⟩, hheld⟩ :=
    (h.committed.entries onA List.mem_cons_self).held _ _ hdoc
  have hkeys : ((indexKeys (κ := Place) onA firstDoc).toOption.map fun r => r.1.map Prod.fst) =
      some [encode (.bool true) ++ encode intId] := by decide +kernel
  rw [hok] at hkeys
  have hkeys : entries.map Prod.fst = [encode (.bool true) ++ encode intId] :=
    Option.some.inj hkeys
  obtain ⟨id, hid, -⟩ := hheld (encode (.bool true) ++ encode intId) (by
    rw [hkeys]
    exact List.mem_cons_self)
  have hnone : (run (step [onA]) ⟨Db.new, fun _ => none, fun _ => none⟩
      (insertsBoth ++ setsId)).db.committedRow
        (.entry onA.table (encode (.bool true) ++ encode intId)) = none := by decide +kernel
  rw [hnone] at hid
  cases hid

end SquealDb.Doc
