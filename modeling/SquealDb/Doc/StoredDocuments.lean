import SquealDb.Doc.Runs
import SquealDb.Doc.WellFormed

/-!
# Documents in every snapshot

The calls of a collection as they parse, and what their runs leave in the store.  In every run
in which the operators of updates bring plain names only, every snapshot's documents are well
formed.
-/

namespace SquealDb.Doc

open Codec Lib Store

/-! ## Calls -/

/-- The writing calls of a collection: of each family, with the documents it is given. -/
inductive Call where
  | insertMany (docs : List (Document × ObjectId))
  | update (filter changes : Document) (upsert : Option ObjectId)
  | replace (filter replacement : Document) (upsert : Option ObjectId)
  | delete (filter : Document)

namespace Call

/-- The documents of a call. -/
def documents : Call → List Document
  | insertMany docs => docs.map Prod.fst
  | update filter changes _ => [filter, changes]
  | replace filter replacement _ => [filter, replacement]
  | delete filter => [filter]

variable (env : Setting)

def operators (update : Document) : Except OpError UpdateSpec := do
  let u ← UpdateSpec.parse update
  match u with
  | .replace _ => .error (.badValue ("an update document needs update operators ($set, ...); " ++
      "use replace_one to replace"))
  | .ops _ => pure u

/-- The check of a replacement. -/
def replacing (replacement : Document) : Except OpError UpdateSpec := do
  let u ← UpdateSpec.parse replacement
  match u with
  | .ops _ => .error (.badValue "a replacement document can't contain update operators")
  | .replace _ => pure u

/-- An update of the documents that a filter matches. -/
def updating (u : UpdateSpec) (filter : Document) (upsert : Option ObjectId) :
    Except OpError Statement := do
  let f : Filter env.toMatching ← Filter.parse filter
  pure (.update (u.update env false) (upsert.map fun fresh => (u.upsertDocument env f, fresh)))

/-- What a call runs. -/
def statement : Call → Except OpError Statement
  | insertMany docs => .ok (.insertMany docs)
  | update filter changes upsert => do
    let u ← operators changes
    updating env u filter upsert
  | replace filter replacement upsert => do
    let u ← replacing replacement
    updating env u filter upsert
  | delete filter => do
    let _ : Filter env.toMatching ← Filter.parse filter
    pure .delete

end Call

/-- The documents that parse from JSON. -/
def ReadFrom (parseF64 : String → Option UInt64) (serde : SerdeJson) (doc : Document) : Prop :=
  ∃ json, fromJson parseF64 serde json = .ok (.document doc)

/-! ## Statements -/

/-- Every document there is well formed. -/
def Stored (m : Place → Option Value) : Prop :=
  ∀ key v, m (.document key) = some v → ∃ doc, v = .document doc ∧ WellFormed doc

/-- The documents are the same. -/
def SameDocuments (m m' : Place → Option Value) : Prop :=
  ∀ key, m' (.document key) = m (.document key)

variable {indexes : List Index} {m : Place → Option Value} {env : Setting}

theorem Stored.same {m' : Place → Option Value} (h : Stored m) (hsame : SameDocuments m m') :
    Stored m' := by
  intro key v hv
  exact h key v ((hsame key).symm.trans hv)

theorem Stored.write (h : Stored m) {key : IndexKey} {v : Option Value}
    (hv : ∀ w, v = some w → ∃ doc, w = .document doc ∧ WellFormed doc) :
    Stored (Function.update m (.document key) v) := by
  intro other w hw
  by_cases hother : Place.document other = .document key
  · rw [hother, Function.update_self] at hw
    exact hv w hw
  · rw [Function.update_of_ne hother] at hw
    exact h other w hw

/-- The loop over the indexes writes no documents if none of its rounds does. -/
theorem ensures_eachIndex_same {f : Index → Calls PUnit}
    (hf : ∀ ix m, (f ix).Ensures (fun _ m' => SameDocuments m m') m) (m : Place → Option Value) :
    (eachIndex f indexes).Ensures (fun _ m' => SameDocuments m m') m := by
  induction indexes generalizing m with
  | nil => exact fun _ => rfl
  | cons ix rest ih =>
    refine Script.ensures_bind ((hf ix m).mono fun _ m₁ h₁ => ?_)
    exact (ih m₁).mono fun _ m₂ h₂ key => (h₂ key).trans (h₁ key)

theorem not_mem_entriesOf (ix : Index) (id : Value) (keys : List IndexKey) (key : IndexKey) :
    Place.document key ∉ (entriesOf ix id keys).map Prod.fst := by
  intro hmem
  obtain ⟨row, hrow, heq⟩ := List.mem_map.mp hmem
  obtain ⟨k, -, rfl⟩ := List.mem_map.mp hrow
  cases heq

theorem not_mem_entries (ix : Index) (keys : List IndexKey) (key : IndexKey) :
    Place.document key ∉ keys.map (Place.entry ix.table) := by
  intro hmem
  obtain ⟨k, -, heq⟩ := List.mem_map.mp hmem
  cases heq

theorem insertEntries_same (ix : Index) (doc : Document) (m : Place → Option Value) :
    (insertEntries ix doc).Ensures (fun _ m' => SameDocuments m m') m := by
  refine Script.ensures_bind (Script.ensures_ofExcept fun r _ => ?_)
  exact Script.ensures_insertAll _ fun m' h key => h.kept _ (not_mem_entriesOf _ _ _ _)

theorem updateEntries_same (ix : Index) (old new : Document) (m : Place → Option Value) :
    (updateEntries ix old new).Ensures (fun _ m' => SameDocuments m m') m := by
  refine Script.ensures_bind (Script.ensures_ofExcept fun before _ => ?_)
  refine Script.ensures_bind (Script.ensures_ofExcept fun after _ => ?_)
  refine Script.ensures_bind (Script.ensures_removeAll _ fun m₁ h₁ => ?_)
  refine Script.ensures_insertAll _ fun m₂ h₂ key => ?_
  exact (h₂.kept _ (not_mem_entriesOf _ _ _ _)).trans (h₁.kept _ (not_mem_entries _ _ _))

theorem deleteEntries_same (ix : Index) (doc : Document) (m : Place → Option Value) :
    (deleteEntries ix doc).Ensures (fun _ m' => SameDocuments m m') m := by
  refine Script.ensures_bind (Script.ensures_ofExcept fun r _ => ?_)
  exact Script.ensures_removeAll _ fun m' h key => h.kept _ (not_mem_entries _ _ _)

theorem insertDoc_stored (h : Stored m) {doc : Document} (hdoc : WellFormed doc) :
    (insertDoc indexes doc).Ensures (fun _ => Stored) m := by
  refine Script.ensures_bind (Script.ensures_ofExcept fun key _ => ?_)
  refine Script.ensures_bind fun _ => ?_
  refine (ensures_eachIndex_same (insertEntries_same · doc) _).mono fun _ m' hsame => ?_
  refine Stored.same (h.write fun w hw => ?_) hsame
  exact ⟨doc, (Option.some.inj hw).symm, hdoc⟩

theorem updateDoc_stored (h : Stored m) (old : Document) {new : Document} (hnew : WellFormed new) :
    (updateDoc indexes old new).Ensures (fun _ => Stored) m := by
  refine Script.ensures_bind ?_
  refine (ensures_eachIndex_same (updateEntries_same · old new) m).mono fun _ m' hsame => ?_
  refine Script.ensures_bind (Script.ensures_ofExcept fun key _ => ?_)
  refine fun _ => (h.same hsame).write fun w hw => ?_
  exact ⟨new, (Option.some.inj hw).symm, hnew⟩

theorem deleteDoc_stored (h : Stored m) (doc : Document) :
    (deleteDoc indexes doc).Ensures (fun _ => Stored) m := by
  refine Script.ensures_bind ?_
  refine (ensures_eachIndex_same (deleteEntries_same · doc) m).mono fun _ m' hsame => ?_
  refine Script.ensures_bind (Script.ensures_ofExcept fun key _ => ?_)
  exact fun _ => (h.same hsame).write nofun

theorem insertEach_stored {docs : List (Document × ObjectId)}
    (hdocs : ∀ doc ∈ docs, (Value.document doc.1).AllNamed fun _ => True) (h : Stored m) :
    (insertEach indexes docs).Ensures (fun _ => Stored) m := by
  induction docs generalizing m with
  | nil => exact h
  | cons row rest ih =>
    rw [List.forall_mem_cons] at hdocs
    refine Script.ensures_bind (Script.ensures_ofExcept fun doc hdoc => ?_)
    have hwell := prepareInsert_wellFormed hdocs.1 hdoc
    exact Script.ensures_bind ((insertDoc_stored h hwell).mono fun _ m' h' => ih hdocs.2 h')

theorem updateEach_stored {u : UpdateSpec} (hsound : u.Sound) (hbrings : u.Brings PlainName)
    {docs : List Document} (hdocs : ∀ doc ∈ docs, WellFormed doc) (h : Stored m) :
    (updateEach indexes (u.update env false) docs).Ensures (fun _ => Stored) m := by
  induction docs generalizing m with
  | nil => exact h
  | cons old rest ih =>
    rw [List.forall_mem_cons] at hdocs
    refine Script.ensures_bind (Script.ensures_ofExcept fun r hr => ?_)
    obtain ⟨new, changed⟩ := r
    have hnew := apply_wellFormed hsound hbrings hdocs.1 hr
    cases changed with
    | false => exact ih hdocs.2 h
    | true =>
      exact Script.ensures_bind ((updateDoc_stored h old hnew).mono fun _ m' h' =>
        ih hdocs.2 h')

theorem deleteEach_stored (docs : List Document) (h : Stored m) :
    (deleteEach indexes docs).Ensures (fun _ => Stored) m := by
  induction docs generalizing m with
  | nil => exact h
  | cons doc rest ih =>
    exact Script.ensures_bind ((deleteDoc_stored h doc).mono fun _ m' h' => ih h')

/-- The documents that a statement finds. -/
theorem wellFormed_of_selects {rows : List (Place × Value)} (h : Stored m)
    (hrows : Selects isDocument m rows) : ∀ doc ∈ foundDocs rows, WellFormed doc := by
  intro doc hdoc
  obtain ⟨row, hrow, heq⟩ := List.mem_filterMap.mp hdoc
  obtain ⟨place, v⟩ := row
  have hthere := hrows.there _ hrow
  have hon := hrows.on _ hrow
  cases place with
  | entry table k => cases hon
  | document key =>
    obtain ⟨d, rfl, hd⟩ := h key v hthere
    rw [← Option.some.inj heq]
    exact hd

/-! ## Runs -/

/-- A call that meets a condition parses to the statement. -/
def Parsed (env : Setting) (P : Call → Prop) (statement : Statement) : Prop :=
  ∃ call, P call ∧ call.statement env = .ok statement

variable {parseF64 : String → Option UInt64} {serde : SerdeJson}

theorem ReadFrom.named {doc : Document} (h : ReadFrom parseF64 serde doc) :
    (Value.document doc).AllNamed fun _ => True := by
  obtain ⟨json, hjson⟩ := h
  refine (fromJson_wellNamed hjson).imp fun w hw => ?_
  cases w with
  | document fields => exact ⟨hw.1, fun _ _ => trivial⟩
  | _ => trivial

/-- The documents of the call parse from JSON. -/
def Call.Read (parseF64 : String → Option UInt64) (serde : SerdeJson) (call : Call) : Prop :=
  ∀ doc ∈ call.documents, ReadFrom parseF64 serde doc

/-- So they do, and the operators of an update bring plain names only. -/
structure Call.Plain (parseF64 : String → Option UInt64) (serde : SerdeJson) (call : Call) :
    Prop where
  read : call.Read parseF64 serde
  brings : ∀ filter changes upsert u, call = .update filter changes upsert →
    Call.operators changes = .ok u → u.Brings PlainName

theorem updating_stored {u : UpdateSpec} (hsound : u.Sound) (hbrings : u.Brings PlainName)
    {filter : Document} (hfilter : (Value.document filter).AllNamed fun _ => True)
    {upsert : Option ObjectId} {statement : Statement}
    (h : Call.updating env u filter upsert = .ok statement) (hm : Stored m) :
    (statement.calls indexes).Ensures (fun _ => Stored) m := by
  obtain ⟨f, hf, hstatement⟩ := bind_ok_iff.mp h
  rw [← Except.ok.inj hstatement]
  intro rows hrows
  have hfound := wellFormed_of_selects hm hrows
  dsimp only
  split
  · cases upsert with
    | none => exact hm
    | some fresh =>
      refine Script.ensures_bind (Script.ensures_ofExcept fun doc hdoc => ?_)
      refine Script.ensures_bind (Script.ensures_ofExcept fun doc' hdoc' => ?_)
      have hnamed := upsertDocument_named hsound (equalities_every hf hfilter) hdoc
      exact insertDoc_stored hm (prepareInsert_wellFormed hnamed hdoc')
  · exact updateEach_stored hsound hbrings hfound hm

/-- A statement that succeeds leaves the documents well formed. -/
theorem statement_stored {call : Call} (hcall : call.Plain parseF64 serde) {statement : Statement}
    (h : call.statement env = .ok statement) (hm : Stored m) :
    (statement.calls indexes).Ensures (fun _ => Stored) m := by
  cases call with
  | insertMany docs =>
    rw [← Except.ok.inj h]
    refine insertEach_stored (fun doc hdoc => (hcall.read doc.1 ?_).named) hm
    exact List.mem_map_of_mem hdoc
  | update filter changes upsert =>
    obtain ⟨u, hu, hupdating⟩ := bind_ok_iff.mp h
    have hchanges := (hcall.read changes (List.mem_cons_of_mem _ List.mem_cons_self)).named
    have hfilter := (hcall.read filter List.mem_cons_self).named
    have hsound : u.Sound := by
      obtain ⟨u', hparse, hops⟩ := bind_ok_iff.mp hu
      cases u' with
      | replace new => cases hops
      | ops cs =>
        rw [← Except.ok.inj hops]
        exact UpdateSpec.sound_of_parse hparse hchanges
    exact updating_stored hsound (hcall.brings filter changes upsert u rfl hu) hfilter hupdating hm
  | replace filter new upsert =>
    obtain ⟨u, hu, hupdating⟩ := bind_ok_iff.mp h
    have hnew := (hcall.read new (List.mem_cons_of_mem _ List.mem_cons_self)).named
    have hfilter := (hcall.read filter List.mem_cons_self).named
    obtain ⟨u', hparse, hreplace⟩ := bind_ok_iff.mp hu
    cases u' with
    | ops cs => cases hreplace
    | replace new' =>
      rw [← Except.ok.inj hreplace] at hupdating
      refine updating_stored (UpdateSpec.sound_of_parse hparse hnew) ?_ hfilter hupdating hm
      exact fun _ => nofun
  | delete filter =>
    obtain ⟨f, -, hstatement⟩ := bind_ok_iff.mp h
    rw [← Except.ok.inj hstatement]
    exact fun rows _ => deleteEach_stored _ hm

theorem stored_keeps :
    Server.Keeps ((language indexes).only (Parsed env (Call.Plain parseF64 serde))) Stored where
  statement st m hm := by
    obtain ⟨statement, call, hcall, hparsed⟩ := st
    exact statement_stored hcall hparsed hm
  commit writes seen current _ hmine hcurrent _ := by
    intro key v hv
    cases hwritten : writes (.document key) with
    | none =>
      rw [overlay_unwritten hwritten] at hv
      exact hcurrent key v hv
    | some w =>
      rw [overlay_written hwritten] at hv
      exact hmine key v ((overlay_written hwritten seen).trans hv)

/-- In every run in which the operators of updates bring plain names only, the documents of every
snapshot are well formed; and an update that succeeds leaves the stored key of a document's `_id`,
unless that is a document and an operator is for a path in it. -/
theorem documents_stay_wellFormed {s : Sessions}
    (h : Reachable (step indexes) (Meets (Parsed env (Call.Plain parseF64 serde)))
      ⟨Db.new, fun _ => none, fun _ => none⟩ s) :
    InSnapshots Stored s ∧
      ∀ (u : UpdateSpec) (doc after : Document) (changed : Bool), WellFormed doc →
        (u.SparesId ∨ ∀ fields, docId doc ≠ .document fields) →
        (u.update env false).apply doc = .ok (after, changed) →
        idKey (κ := Place) (docId after) = idKey (docId doc) := by
  constructor
  · exact snapshots_keep stored_keeps .init (fun _ _ => nofun) h
  · intro u doc after changed hdoc hid happly
    rw [idKey, idKey, apply_keeps_key hdoc hid happly]

/-! ## An update that is checked nowhere -/

/-- No regular expressions, no clock and no doubles, which the runs below do not come to. -/
def plainSetting : Setting where
  Regex := Empty
  build _ _ := .error ""
  isMatch := nofun
  Expr := Empty
  parseExpr _ := .error .other
  holds := nofun
  now := 0
  addF64 a _ := a
  mulF64 a _ := a
  display v := toJson compactJson v
  probe _ := .error .other

def oneDoc : Document := [("_id", .bool true)]

/-- `{$set: {a: arg}}`. -/
def setsA (arg : Value) : Call := .update [] [("$set", .document [("a", arg)])] none

def setsAStatement (arg : Value) : Statement :=
  .update ((UpdateSpec.ops [(.set, "a", arg)]).update plainSetting false) none

/-- The document is inserted, and then updated. -/
def insertsAndSets (arg : Value) : List (Event Place Value Statement) :=
  [.autocommit (.insertMany [(oneDoc, someObjectId)]), .call 1 [] none, .call 1 [] none,
    .autocommit (setsAStatement arg),
    .call 4 [(.document (encode (.bool true)), .document oneDoc)] none, .call 4 [] none,
    .call 4 [] none]

theorem setsA_operators (arg : Value) :
    Call.operators [("$set", .document [("a", arg)])] = .ok (.ops [(.set, "a", arg)]) := by
  have hpath : (splitPath "a").any (fun part => part.isEmpty) = false := by decide +kernel
  have hfields : fieldsOf "$set" .set [("a", arg)] = .ok [(.set, "a", arg)] := by
    rw [fieldsOf, hpath]
    rfl
  have hop : opNamed "$set" = .ok .set := by
    rw [opNamed, if_pos rfl]
  have hchanges : operatorsOf [("$set", .document [("a", arg)])] = .ok [(.set, "a", arg)] := by
    simp [operatorsOf, hop, hfields, bind, Except.bind, pure, Except.pure]
  have hparse : UpdateSpec.parse [("$set", .document [("a", arg)])] =
    .ok (.ops [(.set, "a", arg)]) := by
    have hdollar : isDollar "$set" = true := by decide +kernel
    simp [UpdateSpec.parse, hdollar, hchanges, conflict, touched]
  rw [Call.operators, hparse]
  rfl

theorem setsA_statement (arg : Value) :
    (setsA arg).statement plainSetting = .ok (setsAStatement arg) := by
  show (Call.operators _ >>= _) = _
  rw [setsA_operators]
  rfl

theorem readFrom_text (json : String) {doc : Document}
    (h : (fromJson (fun _ => none) compactJson json).toOption = some (.document doc)) :
    ReadFrom (fun _ => none) compactJson doc := by
  refine ⟨json, ?_⟩
  cases hread : fromJson (fun _ => none) compactJson json with
  | error e =>
    rw [hread] at h
    cases h
  | ok v =>
    rw [hread] at h
    rw [Option.some.inj h]

theorem insertsOne_read :
    (Call.insertMany [(oneDoc, someObjectId)]).Read (fun _ => none) compactJson := by
  intro doc hdoc
  rw [List.mem_singleton.mp hdoc]
  exact readFrom_text "\x7b\"_id\":true\x7d" (by decide +kernel)

/-- The documents of the update. -/
theorem setsA_read (arg : Value)
    (hread : ReadFrom (fun _ => none) compactJson [("$set", .document [("a", arg)])]) :
    (setsA arg).Read (fun _ => none) compactJson := by
  intro doc hdoc
  rcases List.mem_cons.mp hdoc with rfl | hdoc
  · exact readFrom_text "\x7b\x7d" (by decide +kernel)
  · rw [List.mem_singleton.mp hdoc]
    exact hread

/-- The run's statements parse from calls that meet a condition. -/
theorem insertsAndSets_met {P : Call → Prop} {arg : Value}
    (hinsert : P (.insertMany [(oneDoc, someObjectId)])) (hsets : P (setsA arg))
    (hselects : Meets (fun _ => True)
      (run (step []) ⟨Db.new, fun _ => none, fun _ => none⟩ ((insertsAndSets arg).take 4))
      (.call 4 [(.document (encode (.bool true)), .document oneDoc)] none)) :
    Reachable (step []) (Meets (Parsed plainSetting P)) ⟨Db.new, fun _ => none, fun _ => none⟩
      (run (step []) ⟨Db.new, fun _ => none, fun _ => none⟩ (insertsAndSets arg)) :=
  reachable_run (insertsAndSets arg) ⟨⟨_, hinsert, rfl⟩, meets_call_nil, meets_call_nil,
    ⟨_, hsets, setsA_statement arg⟩, hselects, meets_call_nil, meets_call_nil, trivial⟩

theorem documents_stay_wellFormed_one :
    (run (step []) ⟨Db.new, fun _ => none, fun _ => none⟩
        (insertsAndSets (.bool true))).db.committedRow (.document (encode (.bool true))) =
      some (.document [("_id", .bool true), ("a", .bool true)]) ∧
      InSnapshots Stored (run (step []) ⟨Db.new, fun _ => none, fun _ => none⟩
        (insertsAndSets (.bool true))) := by
  refine ⟨by decide +kernel, ?_⟩
  have hread := setsA_read (.bool true)
    (readFrom_text "\x7b\"$set\":\x7b\"a\":true\x7d\x7d" (by decide +kernel))
  refine (documents_stay_wellFormed
    (insertsAndSets_met (P := Call.Plain (fun _ => none) compactJson)
    ⟨insertsOne_read, fun _ _ _ _ => nofun⟩ ⟨hread, ?_⟩ (by decide +kernel))).1
  intro filter changes upsert u hcall hu
  cases hcall
  rw [setsA_operators] at hu
  rw [← Except.ok.inj hu]
  intro changes hchanges c hc
  cases hchanges
  rw [List.mem_singleton.mp hc]
  exact ⟨by decide +kernel, named_leaf ⟨nofun, nofun⟩⟩

/-- `{$set: {a: {$b: true}}}` is accepted, and the document that it leaves has a name that begins
with `$`. -/
theorem set_brings_dollar :
    ∃ s, Reachable (step []) (Meets (Parsed plainSetting
          (Call.Read (fun _ => none) compactJson))) ⟨Db.new, fun _ => none, fun _ => none⟩ s ∧
      ¬ InSnapshots Stored s := by
  have hread := setsA_read (.document [("$b", .bool true)]) (readFrom_text
    "\x7b\"$set\":\x7b\"a\":\x7b\"$b\":true\x7d\x7d\x7d" (by decide +kernel))
  refine ⟨_, insertsAndSets_met insertsOne_read hread (by decide +kernel), fun h => ?_⟩
  have hdoc : (run (step []) ⟨Db.new, fun _ => none, fun _ => none⟩
      (insertsAndSets (.document [("$b", .bool true)]))).db.committedRow
        (.document (encode (.bool true))) =
      some (.document [("_id", .bool true), ("a", .document [("$b", .bool true)])]) := by
    decide +kernel
  obtain ⟨doc, heq, hwell⟩ := h.committed _ _ hdoc
  cases heq
  have hinner := hwell.names.ofFields ("a", .document [("$b", .bool true)])
    (List.mem_cons_of_mem _ List.mem_cons_self)
  exact hinner.here.2 ("$b", .bool true) List.mem_cons_self (by decide +kernel)

end SquealDb.Doc
