import SquealDb.Doc.Query
import SquealDb.Doc.StoredDocuments

/-!
# Sessions and their transactions

`Session` of `sq-json/src/client.rs`, and how the operations of `sq-json/src/collection.rs` begin,
run and end: what they are given is parsed first, then `run` takes them into their session's
transaction or into one of their own, and an aggregate runs its last stages on what its find gave
it.

Beside the store is the ledger of what was committed, in which an operation that failed does
nothing. A session's slot and the counter change together here.
-/

namespace SquealDb.Doc

open Codec Lib Store

/-! ## Operations -/

/-- What a call runs in a transaction. Of a find it is only said whether it could read the
documents. -/
inductive Work where
  | statement (statement : Statement)
  | find (reading : Except OpError PUnit)

namespace Work

/-- Its calls of the store. -/
def calls (indexes : List Index) : Work → Calls PUnit
  | statement st => st.calls indexes
  | find reading => Script.select isDocument fun _ => Script.ofExcept reading

/-- All work on a collection with these indexes. -/
def language (indexes : List Index) : Language Place Value Empty OpError Work where
  calls := calls indexes
  ofStore := ofStore
  missingKey := nofun

end Work

/-- How filters, updates and pipelines are read and run. -/
structure ClientSetting extends Setting, Stages

/-- A call of a collection, with the documents it is given. `creating` is what comes of making the
collection, where that has to be made, and `reading` what comes of reading its documents. -/
inductive Operation where
  | write (call : Call) (creating : Except OpError PUnit)
  | find (filter : Document) (sort projection : Option Document) (reading : Except OpError PUnit)
  | findAndModify (call : Call) (sort projection : Option Document)
      (creating : Except OpError PUnit)
  | aggregate (pipeline : List Document) (reading : Except OpError PUnit)

namespace Operation

variable (env : ClientSetting)

/-- The options of a find. -/
def readOptions (sort projection : Option Document) : Except OpError PUnit := do
  let _ ← sort.mapM SortSpec.parse
  let _ ← projection.mapM Projection.parse
  pure ⟨⟩

/-- What an operation does before `run`: the work it has for a transaction. -/
def prepare : Operation → Except OpError Work
  | write call creating => do
    let statement ← call.statement env.toSetting
    creating
    pure (.statement statement)
  | find filter sort projection reading => do
    let _ : Filter env.toMatching ← Filter.parse filter
    readOptions sort projection
    pure (.find reading)
  | findAndModify call sort projection creating => do
    let statement ← call.statement env.toSetting
    readOptions sort projection
    creating
    pure (.statement statement)
  | aggregate pipeline reading => do
    let _ : List (Stage env.toStages) ← Stage.parsePipeline pipeline
    pure (.find reading)

end Operation

/-! ## The client -/

/-- The transaction of each session, `open_transactions`, and the store. -/
structure Client where
  tracked : Tracked Place Value Empty OpError
  slots : List (Option Nat)
  opened : Nat

/-- What happens next: a session's call; a call of a collection, in a session or in none; the next
step of an operation that runs in its session's transaction, or in one of its own; the last stages
of an aggregate. A commit may fail, and so may a rollback on its way. -/
inductive ClientEvent (env : ClientSetting) where
  | startSession
  | startTransaction (session : Nat)
  | commitTransaction (session : Nat) (fails : Bool)
  | abortTransaction (session : Nat) (failsAfter : Option Nat)
  | endSession (session : Nat) (failsAfter : Option Nat)
  | operation (on : Option Nat) (operation : Operation)
  | proceed (session : Nat) (rows : List (Place × Value)) (failsAfter : Option Nat)
  | proceedAlone (txn : Nat) (rows : List (Place × Value)) (failsAfter : Option Nat)
      (commitFails : Bool)
  | lastStages (on : Option Nat) (stages : List (Stage env.toStages)) (docs : List Document)
  | maintain (upkeep : Upkeep)

/-- The store goes on without the transaction, which stays open. -/
def abandon (t : Tracked Place Value Empty OpError) (txn : Nat) :
    Tracked Place Value Empty OpError :=
  { t with server := { t.server with sessions := Function.update t.server.sessions txn none } }

/-- What comes of an operation in a transaction of its own, once all its calls were made. -/
def outcome (s : Sessions) (txn : Nat) : Option (Except OpError PUnit) :=
  match s.sessions txn with
  | some ⟨false, some (.done r), _, _⟩ => some r
  | _ => none

namespace Client

/-- No session, over a store. -/
def new (db : Db Place Value) : Client where
  tracked := Tracked.opening db fun _ => none
  slots := []
  opened := 0

/-- The transaction of a session, `SessionInner::txn`. -/
def txn (c : Client) (session : Nat) : Option Nat := c.slots[session]?.join

def inTransaction (c : Client) (session : Nat) : Bool := (c.txn session).isSome

/-- `take`, and what is done with the transaction then. An operation that runs in it is waited
for. -/
def take (c : Client) (session : Nat)
    (f : Nat → Tracked Place Value Empty OpError → Tracked Place Value Empty OpError) : Client :=
  match c.txn session with
  | none => c
  | some t =>
    match c.tracked.server.idle t with
    | none => c
    | some _ => ⟨f t c.tracked, c.slots.set session none, c.opened - 1⟩

variable (indexes : List Index) (env : ClientSetting)

/-- One event of the store. -/
def store (t : Tracked Place Value Empty OpError) (e : Event Place Value Work) :
    Tracked Place Value Empty OpError := t.step (Work.language indexes) e

/-- The next step of an operation in its session's transaction: a failure aborts that,
`abort_after_error`. -/
def proceed (c : Client) (session : Nat) (rows : List (Place × Value)) (failsAfter : Option Nat) :
    Client :=
  match c.txn session with
  | none => c
  | some t =>
    let after := store indexes c.tracked (.call t rows failsAfter)
    if failed c.tracked.server t then
      ⟨store indexes after (.rollback t failsAfter), c.slots.set session none, c.opened - 1⟩
    else { c with tracked := after }

/-- The next step of an operation in a transaction of its own. -/
def proceedAlone (c : Client) (txn : Nat) (rows : List (Place × Value)) (failsAfter : Option Nat)
    (commitFails : Bool) : Client :=
  match c.tracked.server.sessions txn with
  | some ⟨false, _, _, _⟩ =>
    match outcome c.tracked.server txn, commitFails with
    | some (.ok _), true => { c with tracked := abandon c.tracked txn }
    | _, _ => { c with tracked := store indexes c.tracked (.call txn rows failsAfter) }
  | _ => c

variable {env}

/-- One event. -/
def step (c : Client) : ClientEvent env → Client
  | .startSession => { c with slots := c.slots ++ [none] }
  | .startTransaction session =>
    match c.slots[session]? with
    | some none =>
      ⟨store indexes c.tracked .begin,
        c.slots.set session (some (c.tracked.server.db.begin .continueOnConflict).2),
        c.opened + 1⟩
    | _ => c
  | .commitTransaction session fails =>
    c.take session fun t tracked =>
      if fails then abandon tracked t else store indexes tracked (.commit t)
  | .abortTransaction session failsAfter | .endSession session failsAfter =>
    c.take session fun t tracked => store indexes tracked (.rollback t failsAfter)
  | .operation on op =>
    match op.prepare env with
    | .error _ => c
    | .ok work =>
      match on.bind c.txn with
      | some t => { c with tracked := store indexes c.tracked (.start t work) }
      | none => { c with tracked := store indexes c.tracked (.autocommit work) }
  | .proceed session rows failsAfter => c.proceed indexes session rows failsAfter
  | .proceedAlone txn rows failsAfter commitFails =>
    c.proceedAlone indexes txn rows failsAfter commitFails
  | .lastStages _ _ _ => c
  | .maintain upkeep => { c with tracked := store indexes c.tracked (.maintain upkeep) }

/-- Whether an operation returns an error at an event, and the session it was called in. -/
def fails (c : Client) : ClientEvent env → Option (Option Nat)
  | .operation on op =>
    match op.prepare env with
    | .error _ => some on
    | .ok _ => none
  | .proceed session _ _ =>
    match c.txn session with
    | some t => if failed c.tracked.server t then some (some session) else none
    | none => none
  | .proceedAlone txn _ _ commitFails =>
    match outcome c.tracked.server txn with
    | some (.error _) => some none
    | some (.ok _) => if commitFails then some none else none
    | none => none
  | .lastStages on stages docs =>
    match Stage.runAll stages docs with
    | .error _ => some on
    | .ok _ => none
  | _ => none

end Client

end SquealDb.Doc
