import SquealDb.Store.Txn
import SquealDb.Store.Version

/-!
# The store

`Db` of `db.rs`, at the level of rows: the physical row under each key, the
version store, the transaction table, and the log in the order its records
were queued.  Every operation is written as the source has it, from the checks
it makes first to the records it leaves; `step` takes one of them in any
state, so that a list of actions is an interleaving of operations by any
number of transactions and by the maintenance thread.

Left out are the sizes of rows and the pages they are on, `forced_aborts`
(which only chooses between two errors for a finished transaction), and the
degraded mode that refuses every write.  A dropped table is not modelled
either: every key's table exists.
-/

namespace SquealDb.Store

/-- `Decision`: what a write does to the row it was shown. -/
inductive Decision (κ δ : Type*) where
  | insert (tuple : Tuple κ δ)
  | replace (tuple : Tuple κ δ)
  | delete
  | skip

/-- `Walk`: where the walk back along the pre-images ends. -/
inductive Walk (κ δ : Type*) where
  | itself
  | ancestor (tuple : Tuple κ δ)
  | noAncestor
  | missingUndoRecord
  deriving DecidableEq, Repr

/-- `Visible`, of `visible_version`. -/
inductive VisibleVersion (κ δ : Type*) where
  | itself
  | ancestor (tuple : Tuple κ δ)
  | not
  deriving DecidableEq, Repr

/-- `Db`: `purging` holds what the maintenance pass under way was handed by
`vacuum` and has yet to purge. -/
structure Db (κ δ : Type*) where
  txMgr : TransactionManager
  versions : VersionStore κ δ
  rows : κ → Option (Tuple κ δ)
  log : List (LogRecord κ δ)
  purging : List (Tombstone κ)

/-- One operation of a transaction or of the maintenance thread.  An abort
carries how many steps of its revert succeed before one fails, if one does. -/
inductive Action (κ δ : Type*) where
  | begin (policy : ConflictPolicy)
  | insert (txn : Nat) (tuple : Tuple κ δ)
  | update (txn : Nat) (tuple : Tuple κ δ)
  | remove (txn : Nat) (key : κ)
  | commit (txn : Nat)
  | abort (txn : Nat) (failsAfter : Option Nat)
  | retryAbort (txn : Nat) (failsAfter : Option Nat)
  | pruneCommitted
  | vacuum
  | purge

namespace Db

variable {κ δ : Type*} [DecidableEq κ]

/-- A new, empty database. -/
def new : Db κ δ := ⟨.new, .new, fun _ => none, [], []⟩

def nextLsn (db : Db κ δ) : Db κ δ × Nat :=
  ({ db with txMgr := db.txMgr.nextLsn.1 }, db.txMgr.nextLsn.2)

/-- `logger.log`: queues a record. -/
def logRecord (db : Db κ δ) (lsn : Nat) (op : Operation κ δ) : Db κ δ :=
  { db with log := db.log ++ [⟨lsn, op⟩] }

/-- `logger.log_new`: queues a record under an LSN of its own. -/
def logNew (db : Db κ δ) (op : Operation κ δ) : Db κ δ :=
  let (db, lsn) := db.nextLsn
  db.logRecord lsn op

/-- `versions.insert` and `logger.log`, as every write does them. -/
def recordWrite (db : Db κ δ) (lsn : Nat) (op : Operation κ δ) : Db κ δ :=
  { db with versions := db.versions.insert lsn op }.logRecord lsn op

/-- What the tree does with a decision. -/
def applyDecision (db : Db κ δ) (key : κ) : Decision κ δ → Db κ δ
  | .insert tuple | .replace tuple =>
    { db with rows := Function.update db.rows key (some tuple) }
  | .delete => { db with rows := Function.update db.rows key none }
  | .skip => db

/-! ## Reading -/

/-- The loop of `walk_back`.  A turn goes from an LSN to a smaller one, so
the counter's value bounds the turns; running out of `fuel` is given the
outcome that `find_eq` excludes. -/
def walkLoop (versions : VersionStore κ δ) (isVisible : Nat → Bool) :
    Nat → Option Nat → Walk κ δ
  | 0, _ => .missingUndoRecord
  | fuel + 1, preLsn =>
    match preLsn with
    | none => .noAncestor
    | some lsn =>
      match versions.find lsn with
      | none => .missingUndoRecord
      | some next =>
        match next.txnId with
        | none => .noAncestor
        | some nextTxn =>
          if isVisible nextTxn then .ancestor next
          else walkLoop versions isVisible fuel next.preLsn

def walkBack (db : Db κ δ) (tuple : Tuple κ δ) (isVisible : Nat → Bool) :
    Except (StoreError κ) (Walk κ δ) :=
  match tuple.txnId with
  | none => .error .corruption
  | some txn =>
    if isVisible txn then .ok .itself
    else .ok (walkLoop db.versions isVisible (db.txMgr.clock + 1) tuple.preLsn)

/-- Whether a snapshot sees a writer: by itself, or else by the table.  No
transaction is committing between two operations, so one reading of the table
answers. -/
def snapshotSees (db : Db κ δ) (snapshot : Snapshot) (writer : Nat) : Bool :=
  (snapshot.sees writer).getD
    ((TransactionManager.isVisible [db.txMgr] writer snapshot.reader).getD false)

def visibleVersion (db : Db κ δ) (tuple : Tuple κ δ) (snapshot : Snapshot) :
    Except (StoreError κ) (VisibleVersion κ δ) :=
  match db.walkBack tuple (db.snapshotSees snapshot) with
  | .error e => .error e
  | .ok .itself => .ok (if tuple.tombstoned then .not else .itself)
  | .ok (.ancestor t) => .ok (if t.tombstoned then .not else .ancestor t)
  | .ok .noAncestor => .ok .not
  | .ok .missingUndoRecord => .error .corruption

def find (db : Db κ δ) (txn : Nat) (key : κ) :
    Except (StoreError κ) (Option (Tuple κ δ)) :=
  match db.txMgr.snapshot txn with
  | none => .error .transactionAlreadyFinished
  | some snapshot =>
    match db.rows key with
    | none => .ok none
    | some row =>
      match db.visibleVersion row snapshot with
      | .error e => .error e
      | .ok .itself => .ok (some row)
      | .ok (.ancestor t) => .ok (some t)
      | .ok .not => .ok none

def findLastCommitted (db : Db κ δ) (tuple : Tuple κ δ) :
    Except (StoreError κ) (Option (Tuple κ δ)) :=
  match db.walkBack tuple db.txMgr.isCommitted with
  | .error e => .error e
  | .ok .itself => .ok (some tuple)
  | .ok (.ancestor t) => .ok (some t)
  | .ok .noAncestor => .ok none
  | .ok .missingUndoRecord => .ok none

/-! ## Ending a transaction -/

def requireActive (db : Db κ δ) (txn : Nat) : Except (StoreError κ) Unit :=
  if db.txMgr.isTransactionActive txn then .ok ()
  else .error .transactionAlreadyFinished

/-- `begin_with_conflict_policy`. -/
def begin (db : Db κ δ) (policy : ConflictPolicy) : Db κ δ × Nat :=
  ({ db with txMgr := (db.txMgr.createTransaction policy).1 },
   (db.txMgr.createTransaction policy).2)

/-- `commit_id_with`, whose record is queued. -/
def commit (db : Db κ δ) (txn : Nat) : Db κ δ × Except (StoreError κ) Unit :=
  match db.requireActive txn with
  | .error e => (db, .error e)
  | .ok () =>
    if db.versions.hasWrites txn then
      match db.txMgr.beginCommit txn with
      | none => (db, .error .transactionAlreadyFinished)
      | some (mgr, commitLsn) =>
        let db := { db with txMgr := mgr }.logRecord commitLsn (.commit txn)
        ({ db with
           txMgr := db.txMgr.finishCommit txn true
           versions := db.versions.markCommitted txn commitLsn }, .ok ())
    else
      let (db, ts) := db.nextLsn
      match db.txMgr.commit txn ts with
      | none => (db, .error .transactionAlreadyFinished)
      | some mgr => ({ db with txMgr := mgr }, .ok ())

/-- `revert_one`: `remove_if_txn` and `update_if_txn` change the row only if
it still belongs to `txn`. -/
def revertOne (txn : Nat) (db : Db κ δ) (undo : Undo κ δ) : Db κ δ :=
  let (db, _) := db.nextLsn
  match undo, db.rows undo.key with
  | .remove key, some cur =>
    db.applyDecision key (if cur.isSameTxn txn then .delete else .skip)
  | .remove key, none => db.applyDecision key .delete
  | .restore pre, some cur =>
    db.applyDecision pre.id (if cur.isSameTxn txn then .replace pre else .skip)
  | .restore pre, none => db.applyDecision pre.id .skip

/-- `revert`, as far as it gets: every step, newest write first, or the given
number of them. -/
def revert (db : Db κ δ) (txn : Nat) (steps : Option Nat) : Db κ δ :=
  let undo := (db.versions.undoOf txn).reverse
  ((steps.map undo.take).getD undo).foldl (revertOne txn) db

/-- Whether the revert of `txn` fails, given the steps that succeed. -/
def revertFails (db : Db κ δ) (txn : Nat) (failsAfter : Option Nat) : Bool :=
  failsAfter.any fun n => decide (n < (db.versions.undoOf txn).length)

/-- What `finish_abort` does once the revert has succeeded. -/
def completeAbort (db : Db κ δ) (txn : Nat) (wrote : Bool) : Db κ δ :=
  let db := if wrote then db.logNew (.rollback txn) else db
  let (mgr, forgotten) := db.txMgr.abortComplete txn wrote
  let db := { db with txMgr := mgr }
  if forgotten then { db with versions := (db.versions.discard txn).1 } else db

def finishAbort (db : Db κ δ) (txn : Nat) (failsAfter : Option Nat) : Db κ δ :=
  if db.revertFails txn failsAfter then db.revert txn failsAfter
  else (db.revert txn none).completeAbort txn (db.versions.hasWrites txn)

def abort (db : Db κ δ) (txn : Nat) (failsAfter : Option Nat) : Db κ δ :=
  match db.versions.hasWrites txn, db.txMgr.endReadOnly txn with
  | false, some mgr => { db with txMgr := mgr }
  | _, _ =>
    match db.txMgr.abort txn with
    | none => db
    | some mgr => { db with txMgr := mgr }.finishAbort txn failsAfter

/-! ## Writing -/

def checkWriteConflict (db : Db κ δ) (current : Tuple κ δ) (txn : Nat) :
    Except (StoreError κ) Unit :=
  match current.txnId with
  | none => .error .corruption
  | some writer =>
    if db.txMgr.conflicts writer txn then .error (.writeConflict current.id)
    else .ok ()

/-- The version an update or remove replaces, `KeyNotFound` where there is
none or it is a tombstone. -/
def replacedVersion (db : Db κ δ) (key : κ) (txn : Nat) :
    Option (Tuple κ δ) → Except (StoreError κ) (Tuple κ δ)
  | none => .error (.keyNotFound key)
  | some current =>
    match db.checkWriteConflict current txn with
    | .error e => .error e
    | .ok () =>
      let old :=
        if current.txnId = some txn then .ok (some current)
        else db.findLastCommitted current
      match old with
      | .error e => .error e
      | .ok none => .error (.keyNotFound key)
      | .ok (some old) =>
        if old.tombstoned then .error (.keyNotFound key) else .ok old

def insertDecision (db : Db κ δ) (tuple : Tuple κ δ) (txn lsn : Nat) :
    Option (Tuple κ δ) → Except (StoreError κ) (Db κ δ × Decision κ δ)
  | none => .ok (db.recordWrite lsn (.add txn tuple), .insert tuple)
  | some current =>
    if current.tombstoned then
      match db.checkWriteConflict current txn with
      | .error e => .error e
      | .ok () =>
        let revived := { current with
          txnId := some txn, preLsn := some lsn, data := tuple.data,
          tombstoned := false }
        .ok (db.recordWrite lsn (.mod txn current revived), .replace revived)
    else .error (.duplicateKey tuple.id)

/-- What `update` decides under the leaf's lock. -/
def updateDecision (db : Db κ δ) (tuple : Tuple κ δ) (txn lsn : Nat)
    (current : Option (Tuple κ δ)) :
    Except (StoreError κ) (Db κ δ × Decision κ δ) :=
  match db.replacedVersion tuple.id txn current with
  | .error e => .error e
  | .ok old =>
    let updated := { old with
      txnId := some txn, preLsn := some lsn, data := tuple.data }
    .ok (db.recordWrite lsn (.mod txn old updated), .replace updated)

/-- What `remove` decides under the leaf's lock. -/
def removeDecision (db : Db κ δ) (key : κ) (txn lsn : Nat)
    (current : Option (Tuple κ δ)) :
    Except (StoreError κ) (Db κ δ × Decision κ δ) :=
  match db.replacedVersion key txn current with
  | .error e => .error e
  | .ok old =>
    let tombstoned := { old with
      txnId := some txn, tombstoned := true, preLsn := some lsn }
    .ok (db.recordWrite lsn (.del txn old), .replace tombstoned)

/-- `after_write`, of a write that failed: a write conflict takes an
`AbortOnConflict` transaction down. -/
def afterWrite (db : Db κ δ) (txn : Nat) :
    StoreError κ → Db κ δ × StoreError κ
  | .writeConflict key =>
    if db.txMgr.conflictPolicy txn = .abortOnConflict then
      (db.abort txn none, .writeConflictTransactionAborted key)
    else (db, .writeConflict key)
  | e => (db, e)

/-- `write_with_policy`: one write through the tree's single primitive, under
the leaf's lock.  It returns the row that was there.  The pages may still
refuse what has been decided, whose record is then in the log: `refusal` is
the error they answer with. -/
def writeWithPolicy (db : Db κ δ) (key : κ) (txn : Nat)
    (decide : Option (Tuple κ δ) → Except (StoreError κ) (Db κ δ × Decision κ δ))
    (refusal : Option (StoreError κ) := none) :
    Db κ δ × Except (StoreError κ) (Option (Tuple κ δ)) :=
  match decide (db.rows key) with
  | .ok (db', decision) =>
    match refusal with
    | none => (db'.applyDecision key decision, .ok (db.rows key))
    | some e => ((db'.afterWrite txn e).1, .error (db'.afterWrite txn e).2)
  | .error e => ((db.afterWrite txn e).1, .error (db.afterWrite txn e).2)

/-- The tuple an insert stamps before it is decided. -/
def stamped (tuple : Tuple κ δ) (txn : Nat) : Tuple κ δ :=
  { tuple with txnId := some txn, preLsn := none, tombstoned := false }

def insert (db : Db κ δ) (txn : Nat) (tuple : Tuple κ δ)
    (refusal : Option (StoreError κ) := none) : Db κ δ × Except (StoreError κ) Unit :=
  match db.requireActive txn with
  | .error e => (db, .error e)
  | .ok () =>
    let (db, lsn) := db.nextLsn
    let (db, result) :=
      db.writeWithPolicy tuple.id txn (db.insertDecision (stamped tuple txn) txn lsn) refusal
    (db, result.map fun _ => ())

def update (db : Db κ δ) (txn : Nat) (tuple : Tuple κ δ)
    (refusal : Option (StoreError κ) := none) : Db κ δ × Except (StoreError κ) Unit :=
  match db.requireActive txn with
  | .error e => (db, .error e)
  | .ok () =>
    let (db, lsn) := db.nextLsn
    let (db, result) :=
      db.writeWithPolicy tuple.id txn (db.updateDecision tuple txn lsn) refusal
    (db, result.map fun _ => ())

/-- `remove`: also the row removed. -/
def remove (db : Db κ δ) (txn : Nat) (key : κ)
    (refusal : Option (StoreError κ) := none) :
    Db κ δ × Except (StoreError κ) (Tuple κ δ) :=
  match db.requireActive txn with
  | .error e => (db, .error e)
  | .ok () =>
    let (db, lsn) := db.nextLsn
    let (db, result) := db.writeWithPolicy key txn (db.removeDecision key txn lsn) refusal
    match result with
    | .ok (some old) => (db, .ok old)
    | .ok none => (db, .error (.keyNotFound key))
    | .error e => (db, .error e)

/-! ## Maintenance -/

/-- The maintenance pass retries an abort whose revert failed. -/
def retryAbort (db : Db κ δ) (txn : Nat) (failsAfter : Option Nat) : Db κ δ :=
  if db.txMgr.states txn = some .aborting then db.finishAbort txn failsAfter else db

/-- `prune_committed`, and the records of the aborted transactions it
forgot. -/
def pruneCommitted (db : Db κ δ) : Db κ δ :=
  let (mgr, aborted) := db.txMgr.pruneCommitted
  { db with
    txMgr := mgr
    versions := aborted.foldl (fun versions txn => (versions.discard txn).1) db.versions }

/-- `versions.vacuum(Some(horizon))`. -/
def vacuum (db : Db κ δ) : Db κ δ :=
  let (versions, vacuumed) := db.versions.vacuum (some db.txMgr.horizon)
  { db with versions := versions, purging := db.purging ++ vacuumed.tombstones }

/-- Whether `purge` removes what it finds: the same transaction's tombstone,
or an entry with no row behind it. -/
def purges (db : Db κ δ) (t : Tombstone κ) : Bool :=
  match db.rows t.key with
  | some c => c.tombstoned && c.isSameTxn t.txn
  | none => true

/-- `purge`, of the next tombstone of the pass. -/
def purge (db : Db κ δ) : Db κ δ :=
  match db.purging with
  | [] => db
  | t :: rest =>
    let (db, _) := { db with purging := rest }.nextLsn
    if db.purges t then (db.logNew (.purge t.txn t.key)).applyDecision t.key .delete
    else db.applyDecision t.key .skip

/-! ## Interleavings -/

/-- One step of the store. -/
def step (db : Db κ δ) : Action κ δ → Db κ δ
  | .begin policy => (db.begin policy).1
  | .insert txn tuple => (db.insert txn tuple).1
  | .update txn tuple => (db.update txn tuple).1
  | .remove txn key => (db.remove txn key).1
  | .commit txn => (db.commit txn).1
  | .abort txn failsAfter => db.abort txn failsAfter
  | .retryAbort txn failsAfter => db.retryAbort txn failsAfter
  | .pruneCommitted => db.pruneCommitted
  | .vacuum => db.vacuum
  | .purge => db.purge

/-- A write that comes to a decision leaves a record in the log, before the
pages are asked to take it. -/
def isDecided (db : Db κ δ) : Action κ δ → Bool
  | .insert txn tuple => (db.requireActive txn).isOk &&
      (db.nextLsn.1.insertDecision (stamped tuple txn) txn db.nextLsn.2 (db.rows tuple.id)).isOk
  | .update txn tuple => (db.requireActive txn).isOk &&
      (db.nextLsn.1.updateDecision tuple txn db.nextLsn.2 (db.rows tuple.id)).isOk
  | .remove txn key => (db.requireActive txn).isOk &&
      (db.nextLsn.1.removeDecision key txn db.nextLsn.2 (db.rows key)).isOk
  | _ => false

/-- The step of a write whose decision the pages refuse. -/
def refusedStep (db : Db κ δ) (a : Action κ δ) (refusal : StoreError κ) : Db κ δ :=
  match a with
  | .insert txn tuple => (db.insert txn tuple (some refusal)).1
  | .update txn tuple => (db.update txn tuple (some refusal)).1
  | .remove txn key => (db.remove txn key (some refusal)).1
  | a => db.step a

theorem writeWithPolicy_of_error (db : Db κ δ) {key : κ} {txn : Nat}
    {decide : Option (Tuple κ δ) → Except (StoreError κ) (Db κ δ × Decision κ δ)}
    (h : (decide (db.rows key)).isOk = false) (refusal : Option (StoreError κ)) :
    db.writeWithPolicy key txn decide refusal = db.writeWithPolicy key txn decide := by
  unfold writeWithPolicy
  cases hdecision : decide (db.rows key) with
  | error e => rfl
  | ok d =>
    rw [hdecision] at h
    cases h

/-- Pages that are not asked refuse nothing. -/
theorem refusedStep_of_not_isDecided {db : Db κ δ} {a : Action κ δ}
    (h : db.isDecided a = false) (refusal : StoreError κ) :
    db.refusedStep a refusal = db.step a := by
  cases a with
  | insert txn tuple =>
    simp only [refusedStep, step, insert]
    cases hactive : db.requireActive txn with
    | error e => rfl
    | ok _ =>
      simp only [isDecided, hactive] at h
      dsimp only
      rw [writeWithPolicy_of_error db.nextLsn.1 h]
  | update txn tuple =>
    simp only [refusedStep, step, update]
    cases hactive : db.requireActive txn with
    | error e => rfl
    | ok _ =>
      simp only [isDecided, hactive] at h
      dsimp only
      rw [writeWithPolicy_of_error db.nextLsn.1 h]
  | remove txn key =>
    simp only [refusedStep, step, remove]
    cases hactive : db.requireActive txn with
    | error e => rfl
    | ok _ =>
      simp only [isDecided, hactive] at h
      dsimp only
      rw [writeWithPolicy_of_error db.nextLsn.1 h]
  | begin _ | commit _ | abort _ _ | retryAbort _ _ | pruneCommitted | vacuum | purge => rfl

end Db

end SquealDb.Store
