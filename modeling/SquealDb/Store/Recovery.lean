import SquealDb.Lib.Fallible
import SquealDb.Lib.Run
import SquealDb.Store.Db
import SquealDb.Store.History

/-!
# Checkpoints and recovery

`checkpoint`, `retention_floor` and `process_log` of `db.rs`, with
`insert_if_needed` and `update_if_needed` of the tree, at the level of rows.

`Durable` is a database together with what a crash leaves of it: the rows of
the last checkpoint's page image, the floor and the counter in its header, and
how much of the log has been synced.  The log's queue order is the order its
records reach the disk in, so after a crash some prefix of it that contains
everything synced is there; of that, recovery replays the records at or above
the floor.

A checkpoint is one instant here: its pages are written together.
-/

namespace SquealDb.Store

/-- `already_applied`: whether the row is already the version a redo record
would write. -/
def alreadyApplied {κ δ : Type*} [DecidableEq δ] (current redo : Tuple κ δ) : Bool :=
  decide (current.data = redo.data) && current.tombstoned == redo.tombstoned &&
    current.txnId == redo.txnId

namespace Db

variable {κ δ : Type*} [DecidableEq κ] [DecidableEq δ]

/-! ## Replaying the log -/

/-- What `insert_if_needed` decides: the redo of an `Add`. -/
def addDecision (tuple : Tuple κ δ) : Option (Tuple κ δ) → Decision κ δ
  | none => .insert tuple
  | some c => if alreadyApplied c tuple then .skip else .replace tuple

/-- What `update_if_needed` decides: the redo of a `Mod` or a `Del`. -/
def modDecision (tuple : Tuple κ δ) : Option (Tuple κ δ) → Decision κ δ
  | some c => if alreadyApplied c tuple then .skip else .replace tuple
  | none => .skip

/-- What `revert_one` decides. -/
def undoDecision (txn : Nat) : Undo κ δ → Option (Tuple κ δ) → Decision κ δ
  | .remove _, some cur => if cur.isSameTxn txn then .delete else .skip
  | .remove _, none => .delete
  | .restore pre, some cur => if cur.isSameTxn txn then .replace pre else .skip
  | .restore _, none => .skip

/-- A write of the replay, which the tree may refuse. -/
def replayWrite (db : Db κ δ) (key : κ) (decide : Option (Tuple κ δ) → Decision κ δ)
    (refusal : Option (StoreError κ)) : Except (StoreError κ) (Db κ δ) :=
  let (db, _) := db.nextLsn
  match refusal with
  | none => .ok (db.applyDecision key (decide (db.rows key)))
  | some e => .error e

def insertIfNeeded (db : Db κ δ) (tuple : Tuple κ δ) (refusal : Option (StoreError κ)) :
    Except (StoreError κ) (Db κ δ) :=
  db.replayWrite tuple.id (addDecision tuple) refusal

def updateIfNeeded (db : Db κ δ) (tuple : Tuple κ δ) (refusal : Option (StoreError κ)) :
    Except (StoreError κ) (Db κ δ) :=
  db.replayWrite tuple.id (modDecision tuple) refusal

/-- What the tree answers to the writes of a replay: an error, or nothing where it takes
them. -/
structure Refusals (κ δ : Type*) where
  redo : LogRecord κ δ → Option (StoreError κ)
  undo : LogRecord κ δ → Option (StoreError κ)

/-- The redo pass of `process_log`, of one record.  A `Purge` record belongs
to none of the transactions the pass looks for, and is passed over. -/
def redoOne (committed : List Nat) (refusals : Refusals κ δ) (db : Db κ δ) (r : LogRecord κ δ) :
    Except (StoreError κ) (Db κ δ) :=
  match r.operation with
  | .add txn post =>
    if txn ∈ committed then db.insertIfNeeded post (refusals.redo r) else .ok db
  | .mod txn _ post =>
    if txn ∈ committed then db.updateIfNeeded post (refusals.redo r) else .ok db
  | .del txn pre =>
    if txn ∈ committed then
      db.updateIfNeeded { pre with
        txnId := some txn, preLsn := some r.lsn, tombstoned := true } (refusals.redo r)
    else .ok db
  | _ => .ok db

/-- The undo pass of `process_log`, of one record. -/
def undoOne (committed : List Nat) (refusals : Refusals κ δ) (db : Db κ δ) (r : LogRecord κ δ) :
    Except (StoreError κ) (Db κ δ) :=
  let revertOne txn undo :=
    db.replayWrite undo.key (undoDecision txn undo) (refusals.undo r)
  match r.operation with
  | .add txn post => if txn ∈ committed then .ok db else revertOne txn (.remove post.id)
  | .mod txn pre _ => if txn ∈ committed then .ok db else revertOne txn (.restore pre)
  | .del txn pre => if txn ∈ committed then .ok db else revertOne txn (.restore pre)
  | _ => .ok db

/-- The largest number a record shows to have been issued: its LSN or its
transaction's id. -/
def lastIssued (r : LogRecord κ δ) : Nat :=
  match r.operation with
  | .add txn _ | .mod txn _ _ | .del txn _ | .commit txn | .rollback txn
  | .purge txn _ => max r.lsn txn

def advanceCounterPast (db : Db κ δ) (lsn : Nat) : Db κ δ :=
  { db with txMgr := { db.txMgr with clock := max db.txMgr.clock (lsn + 1) } }

/-- The end of `process_log`: the counter is past every number of the records. -/
def advancePast (db : Db κ δ) (records : List (LogRecord κ δ)) : Db κ δ :=
  match (records.map lastIssued).max? with
  | none => db
  | some lsn => db.advanceCounterPast lsn

/-- `process_log`: which transactions committed; their records again, in log
order; the others' records undone, newest first.  A write that the tree refuses ends it. -/
def processLog (db : Db κ δ) (records : List (LogRecord κ δ)) (refusals : Refusals κ δ) :
    Except (StoreError κ) (Db κ δ) := do
  let committed := records.filterMap fun r => r.operation.commits
  let db ← records.foldlM (redoOne committed refusals) db
  let db ← records.reverse.foldlM (undoOne committed refusals) db
  return db.advancePast records

/-! ### A replay that is not refused -/

/-- The redo of an `Add`. -/
def insertVersion (db : Db κ δ) (tuple : Tuple κ δ) : Db κ δ :=
  let (db, _) := db.nextLsn
  db.applyDecision tuple.id (addDecision tuple (db.rows tuple.id))

/-- The redo of a `Mod` or a `Del`. -/
def updateVersion (db : Db κ δ) (tuple : Tuple κ δ) : Db κ δ :=
  let (db, _) := db.nextLsn
  db.applyDecision tuple.id (modDecision tuple (db.rows tuple.id))

/-- The redo of a record. -/
def redoRecord (committed : List Nat) (db : Db κ δ) (r : LogRecord κ δ) : Db κ δ :=
  match r.operation with
  | .add txn post => if txn ∈ committed then db.insertVersion post else db
  | .mod txn _ post => if txn ∈ committed then db.updateVersion post else db
  | .del txn pre =>
    if txn ∈ committed then
      db.updateVersion { pre with
        txnId := some txn, preLsn := some r.lsn, tombstoned := true }
    else db
  | _ => db

/-- The undo of a record. -/
def undoRecord (committed : List Nat) (db : Db κ δ) (r : LogRecord κ δ) : Db κ δ :=
  match r.operation with
  | .add txn post => if txn ∈ committed then db else db.revertOne txn (.remove post.id)
  | .mod txn pre _ => if txn ∈ committed then db else db.revertOne txn (.restore pre)
  | .del txn pre => if txn ∈ committed then db else db.revertOne txn (.restore pre)
  | _ => db

/-- What `process_log` comes to. -/
def replay (db : Db κ δ) (records : List (LogRecord κ δ)) : Db κ δ :=
  let committed := records.filterMap fun r => r.operation.commits
  let db := records.foldl (redoRecord committed) db
  (records.reverse.foldl (undoRecord committed) db).advancePast records

/-- The tree takes every write of a replay of the records. -/
def Refusals.NoneOf (refusals : Refusals κ δ) (records : List (LogRecord κ δ)) : Prop :=
  ∀ r ∈ records, refusals.redo r = none ∧ refusals.undo r = none

instance (refusals : Refusals κ δ) (records : List (LogRecord κ δ)) :
    Decidable (refusals.NoneOf records) :=
  List.decidableBAll (fun r => refusals.redo r = none ∧ refusals.undo r = none) records

variable {refusals : Refusals κ δ}

theorem redoOne_eq (committed : List Nat) (db : Db κ δ) {r : LogRecord κ δ}
    (h : refusals.redo r = none) :
    db.redoOne committed refusals r = .ok (db.redoRecord committed r) := by
  unfold redoOne redoRecord insertIfNeeded updateIfNeeded
  rw [h]
  cases r.operation with
  | add txn post => dsimp only; split <;> rfl
  | mod txn pre post => dsimp only; split <;> rfl
  | del txn pre => dsimp only; split <;> rfl
  | commit txn => rfl
  | rollback txn => rfl
  | purge txn key => rfl

omit [DecidableEq δ] in
theorem replayWrite_undo (db : Db κ δ) (txn : Nat) (undo : Undo κ δ) :
    db.replayWrite undo.key (undoDecision txn undo) none = .ok (db.revertOne txn undo) := by
  unfold replayWrite revertOne
  cases undo with
  | remove key => dsimp only [Undo.key]; cases db.nextLsn.1.rows key <;> rfl
  | restore pre => dsimp only [Undo.key]; cases db.nextLsn.1.rows pre.id <;> rfl

omit [DecidableEq δ] in
theorem undoOne_eq (committed : List Nat) (db : Db κ δ) {r : LogRecord κ δ}
    (h : refusals.undo r = none) :
    db.undoOne committed refusals r = .ok (db.undoRecord committed r) := by
  unfold undoOne undoRecord
  rw [h]
  cases r.operation with
  | add txn post => dsimp only; rw [replayWrite_undo]; split <;> rfl
  | mod txn pre post => dsimp only; rw [replayWrite_undo]; split <;> rfl
  | del txn pre => dsimp only; rw [replayWrite_undo]; split <;> rfl
  | commit txn => rfl
  | rollback txn => rfl
  | purge txn key => rfl

/-- A replay that is not refused. -/
theorem processLog_eq (db : Db κ δ) {records : List (LogRecord κ δ)}
    (h : refusals.NoneOf records) :
    db.processLog records refusals = .ok (db.replay records) := by
  have hredo := Lib.foldlM_eq_foldl fun r hr db =>
    redoOne_eq (records.filterMap fun r => r.operation.commits) db (h r hr).1
  have hundo := Lib.foldlM_eq_foldl fun r hr db =>
    undoOne_eq (records.filterMap fun r => r.operation.commits) db
      (h r (List.mem_reverse.mp hr)).2
  unfold processLog replay
  dsimp only
  rw [hredo]
  dsimp only [bind, Except.bind]
  rw [hundo]
  rfl

/-- `retention_floor`: the LSN below which no record is needed once the
checkpoint completes. -/
def retentionFloor (db : Db κ δ) : Nat :=
  match db.txMgr.oldestInFlight with
  | some id => min id db.txMgr.clock
  | none => db.txMgr.clock

end Db

/-! ## What a crash leaves -/

/-- A database and its durable state: the page image of the last checkpoint,
`checkpoint_lsn` and `counter` of the header, and the synced part of the
log. -/
structure Durable (κ δ : Type*) where
  db : Db κ δ
  disk : κ → Option (Tuple κ δ)
  floor : Nat
  counter : Nat
  synced : Nat

/-- A step of a database that may crash: an operation, a write that the pages refuse
after it was decided, a checkpoint, or a sync of the log up to a number of its records. -/
inductive DurableAction (κ δ : Type*) where
  | operate (a : Action κ δ)
  | refused (a : Action κ δ) (refusal : StoreError κ)
  | checkpoint
  | sync (records : Nat)

namespace Durable

variable {κ δ : Type*} [DecidableEq κ]

/-- A database as it was created. -/
def new : Durable κ δ := ⟨.new, fun _ => none, 0, 1, 0⟩

/-- `checkpoint`: the log is synced, then the image and the header are
written. -/
def checkpoint (s : Durable κ δ) : Durable κ δ :=
  { s with
    disk := s.db.rows
    floor := s.db.retentionFloor
    counter := s.db.txMgr.clock
    synced := s.db.log.length }

def step (s : Durable κ δ) : DurableAction κ δ → Durable κ δ
  | .operate a => { s with db := s.db.step a }
  | .refused a refusal => { s with db := s.db.refusedStep a refusal }
  | .checkpoint => s.checkpoint
  | .sync n => { s with synced := max s.synced (min n s.db.log.length) }

/-- The pages take what has been decided. -/
def Takes (s : Durable κ δ) : DurableAction κ δ → Prop
  | .refused a _ => s.db.isDecided a = false
  | _ => True

instance : ∀ (s : Durable κ δ) a, Decidable (s.Takes a)
  | s, .refused a _ => inferInstanceAs (Decidable (s.db.isDecided a = false))
  | _, .operate _ | _, .checkpoint | _, .sync _ => .isTrue trivial

/-- Where the pages take what has been decided, a write they refuse is one that fails
before. -/
theorem Takes.cases {s : Durable κ δ} {a : DurableAction κ δ} (h : s.Takes a) :
    (∃ b, s.step a = s.step (.operate b)) ∨ s.step a = s.step .checkpoint ∨
      ∃ n, s.step a = s.step (.sync n) := by
  cases a with
  | operate b => exact .inl ⟨b, rfl⟩
  | refused b refusal =>
    refine .inl ⟨b, ?_⟩
    have heq := Db.refusedStep_of_not_isDecided h refusal
    simp only [step, heq]
  | checkpoint => exact .inr (.inl rfl)
  | sync n => exact .inr (.inr ⟨n, rfl⟩)

/-- The states that interleavings of operations, checkpoints and syncs lead
to, whose writes the pages take. -/
def Reachable : Durable κ δ → Prop := Lib.Reachable step Takes new

/-- The records recovery replays, if the first `n` records of the log
survived. -/
def survivors (s : Durable κ δ) (n : Nat) : List (LogRecord κ δ) :=
  (s.db.log.take n).filter fun r => decide (s.floor ≤ r.lsn)

/-- The database as `open_using_with` finds it: the rows on disk, the
header's counter, and nothing in memory. -/
def opened (s : Durable κ δ) (n : Nat) : Db κ δ where
  txMgr := { TransactionManager.new with clock := s.counter }
  versions := .new
  rows := s.disk
  log := s.survivors n
  purging := []

variable [DecidableEq δ]

/-- The database after a crash that left the first `n` records of the log, if it opens. -/
def recover (s : Durable κ δ) (n : Nat) (refusals : Db.Refusals κ δ) :
    Except (StoreError κ) (Db κ δ) :=
  (s.opened n).processLog (s.survivors n) refusals

/-- The database that a replay leaves which is not refused. -/
def recovered (s : Durable κ δ) (n : Nat) : Db κ δ := (s.opened n).replay (s.survivors n)

theorem recover_eq (s : Durable κ δ) (n : Nat) {refusals : Db.Refusals κ δ}
    (h : refusals.NoneOf (s.survivors n)) : s.recover n refusals = .ok (s.recovered n) :=
  Db.processLog_eq _ h

end Durable

end SquealDb.Store
