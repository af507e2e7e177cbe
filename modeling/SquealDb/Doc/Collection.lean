import SquealDb.Doc.Keys
import SquealDb.Lib.Script
import SquealDb.Store.Server

/-!
# The writes of a collection

`insert_many`, `update`, `delete` and `find_and_modify` of `sq-json/src/collection.rs`, and
`insert_doc`, `update_doc`, `delete_doc` and `insert_entries` under them, as the calls of the
store that they make; `prepare_insert`, and `Update::apply` of `sq-json/src/update.rs`.

What the operators of an update make of a document is a parameter, and so is the document an
upsert starts from.  A statement is given the documents that its filter and its limit select,
each once.

`run` takes a statement into its session's transaction, which a failure rolls back, or into one
of its own: `step`.
-/

namespace SquealDb.Doc

open Codec Lib Store

/-- Where the store keeps a document, or an entry of the index with this table. -/
inductive Place where
  | document (id : IndexKey)
  | entry (table : Nat) (key : IndexKey)
  deriving DecidableEq

/-- What goes wrong in a collection. -/
abbrev OpError := Error Place

/-- The calls of an operation. -/
abbrev Calls (α : Type) := Script Place Value Empty OpError α

/-! ## Preparing documents -/

mutual

def checkNested : Value → Except OpError Unit
  | .document fields => checkFieldNames fields
  | .array items => checkItems items
  | _ => .ok ()

def checkItems : List Value → Except OpError Unit
  | [] => .ok ()
  | v :: rest =>
    match checkNested v with
    | .error e => .error e
    | .ok () => checkItems rest

/-- `check_field_names`: none begins with `$`. -/
def checkFieldNames : List (String × Value) → Except OpError Unit
  | [] => .ok ()
  | (key, v) :: rest =>
    if key.toList.head? = some '$' then
      .error (.badValue ("field names can't start with '$': " ++ key.quote))
    else
      match checkNested v with
      | .error e => .error e
      | .ok () => checkFieldNames rest

end

/-- `prepare_insert`, with the `ObjectId` that it makes if it makes one. -/
def prepareInsert (fresh : ObjectId) (doc : Document) : Except OpError Document :=
  match checkFieldNames doc with
  | .error e => .error e
  | .ok () =>
    match doc.get "_id" with
    | none => .ok (doc.insertFirst "_id" (.objectId fresh))
    | some (.array _) => .error (.badValue "the _id field cannot be an array")
    | some id => .ok ((doc.remove "_id").insertFirst "_id" id)

/-- The `_id` of a document that has one. -/
def docId (doc : Document) : Value := (doc.get "_id").getD .null

/-! ## Updates -/

mutual

/-- `PartialEq` of values, as it is derived. -/
def Value.partialEq : Value → Value → Bool
  | .null, .null => true
  | .bool a, .bool b => a == b
  | .int a, .int b => a == b
  | .double a, .double b => Binary64.ieeeEq a b
  | .string a, .string b => a == b
  | .objectId a, .objectId b => a == b
  | .date a, .date b => a == b
  | .array a, .array b => itemsEq a b
  | .document a, .document b => fieldsEq a b
  | _, _ => false

def itemsEq : List Value → List Value → Bool
  | [], [] => true
  | a :: as, b :: bs => a.partialEq b && itemsEq as bs
  | _, _ => false

def fieldsEq : List (String × Value) → List (String × Value) → Bool
  | [], [] => true
  | (ka, a) :: as, (kb, b) :: bs => ka == kb && a.partialEq b && fieldsEq as bs
  | _, _ => false

end

/-- `Update`: what operators make of a document, or its replacement. -/
inductive Update where
  | ops (change : Document → Except OpError Document)
  | replace (new : Document)

namespace Update

/-- The document after an update. -/
def result (update : Update) (doc : Document) : Except OpError Document :=
  match update with
  | ops change => do
    let after ← change doc
    match doc.get "_id" with
    | none => pure after
    | some old =>
      if (after.get "_id").any old.valuesEqual then pure after
      else .error .immutableId
  | replace new =>
    match doc.get "_id", new.get "_id" with
    | some old, some id =>
      if old.valuesEqual id then .ok (new.insertFirst "_id" old) else .error .immutableId
    | some old, none => .ok (new.insertFirst "_id" old)
    | none, _ => .ok new

/-- `Update::apply`: also whether the update changed anything. -/
def apply (update : Update) (doc : Document) : Except OpError (Document × Bool) := do
  let after ← update.result doc
  pure (after, !fieldsEq after doc)

end Update

/-! ## Documents and their entries -/

/-- The entries of a document in an index. -/
def entriesOf (ix : Index) (id : Value) (keys : List IndexKey) : List (Place × Value) :=
  keys.map fun key => (.entry ix.table key, id)

def insertEntries (ix : Index) (doc : Document) : Calls PUnit := do
  let (keys, _) ← Script.ofExcept (indexKeys ix doc)
  Script.insertAll (entriesOf ix (docId doc) (keys.map Prod.fst))

/-- The loop over the indexes, in each of the three below. -/
def eachIndex (f : Index → Calls PUnit) : List Index → Calls PUnit
  | [] => pure ⟨⟩
  | ix :: rest => do
    f ix
    eachIndex f rest

def insertDoc (indexes : List Index) (doc : Document) : Calls PUnit := do
  let key ← Script.ofExcept (idKey (docId doc))
  Script.put (.document key) (.document doc)
  eachIndex (fun ix => insertEntries ix doc) indexes

/-- The keys of one list that another does not have. -/
def keysBut (keys others : List IndexKey) : List IndexKey :=
  keys.filter fun key => decide (key ∉ others)

/-- One index of `update_doc`: its keys that the document has no longer go, and those that it
has new come. -/
def updateEntries (ix : Index) (old new : Document) : Calls PUnit := do
  let (before, _) ← Script.ofExcept (indexKeys ix old)
  let (after, _) ← Script.ofExcept (indexKeys ix new)
  let beforeKeys := before.map Prod.fst
  let afterKeys := after.map Prod.fst
  Script.removeAll ((keysBut beforeKeys afterKeys).map (Place.entry ix.table))
  Script.insertAll (entriesOf ix (docId new) (keysBut afterKeys beforeKeys))

def updateDoc (indexes : List Index) (old new : Document) : Calls PUnit := do
  eachIndex (fun ix => updateEntries ix old new) indexes
  let key ← Script.ofExcept (idKey (docId new))
  Script.replace (.document key) (.document new)

/-- One index of `delete_doc`. -/
def deleteEntries (ix : Index) (doc : Document) : Calls PUnit := do
  let (keys, _) ← Script.ofExcept (indexKeys ix doc)
  Script.removeAll ((keys.map Prod.fst).map (Place.entry ix.table))

def deleteDoc (indexes : List Index) (doc : Document) : Calls PUnit := do
  eachIndex (fun ix => deleteEntries ix doc) indexes
  let key ← Script.ofExcept (idKey (docId doc))
  Script.drop (.document key)

/-! ## Operations -/

/-- The documents among rows that were found. -/
def foundDocs (rows : List (Place × Value)) : List Document :=
  rows.filterMap fun row =>
    match row.2 with
    | .document doc => some doc
    | _ => none

/-- The rows that are documents. -/
def isDocument : Place → Bool
  | .document _ => true
  | .entry _ _ => false

/-- The documents of `insert_many`. -/
def insertEach (indexes : List Index) : List (Document × ObjectId) → Calls PUnit
  | [] => pure ⟨⟩
  | (doc, fresh) :: rest => do
    let doc ← Script.ofExcept (prepareInsert fresh doc)
    insertDoc indexes doc
    insertEach indexes rest

/-- The documents found by an update. -/
def updateEach (indexes : List Index) (update : Update) : List Document → Calls PUnit
  | [] => pure ⟨⟩
  | old :: rest => do
    let (new, changed) ← Script.ofExcept (update.apply old)
    if changed then updateDoc indexes old new
    updateEach indexes update rest

/-- The documents found by a delete. -/
def deleteEach (indexes : List Index) : List Document → Calls PUnit
  | [] => pure ⟨⟩
  | doc :: rest => do
    deleteDoc indexes doc
    deleteEach indexes rest

/-- A call of a collection.  An upsert has the document that it starts from, and the `ObjectId`
that is made for it. -/
inductive Statement where
  | insertMany (docs : List (Document × ObjectId))
  | update (update : Update) (upsert : Option (Except OpError Document × ObjectId))
  | delete

/-- What is inserted when nothing was found. -/
def upsertDoc (indexes : List Index) :
    Option (Except OpError Document × ObjectId) → Calls PUnit
  | none => pure ⟨⟩
  | some (doc, fresh) => do
    let doc ← Script.ofExcept doc
    let doc ← Script.ofExcept (prepareInsert fresh doc)
    insertDoc indexes doc

namespace Statement

/-- The calls of a statement, in a collection with these indexes. -/
def calls (indexes : List Index) : Statement → Calls PUnit
  | insertMany docs => insertEach indexes docs
  | update u upsert =>
    Script.select isDocument fun rows =>
      match foundDocs rows with
      | [] => upsertDoc indexes upsert
      | docs => updateEach indexes u docs
  | delete => Script.select isDocument fun rows => deleteEach indexes (foundDocs rows)

end Statement

/-- `duplicate` and `From<StoreError>`. -/
def ofStore : Store.StoreError Place → OpError
  | .duplicateKey place => .duplicateKey place
  | .writeConflict _ | .writeConflictTransactionAborted _ => .writeConflict
  | _ => .other

/-- The statements of a collection with these indexes. -/
def language (indexes : List Index) : Language Place Value Empty OpError Statement where
  calls := Statement.calls indexes
  ofStore := ofStore
  missingKey := nofun

/-- The store with the sessions of a collection. -/
abbrev Sessions := Server Place Value Empty OpError

/-- A statement of this session has failed. -/
def failed (s : Sessions) (txn : Nat) : Bool :=
  match s.sessions txn with
  | some ⟨true, some (.done (.error _)), _, _⟩ => true
  | _ => false

/-- One event.  In a session's transaction, a statement that fails rolls it back. -/
def step (indexes : List Index) (s : Sessions) (e : Event Place Value Statement) : Sessions :=
  match e with
  | .call txn rows failsAfter =>
    let after := s.step (language indexes) (.call txn rows failsAfter)
    if failed s txn then after.step (language indexes) (.rollback txn failsAfter) else after
  | e => s.step (language indexes) e

end SquealDb.Doc
