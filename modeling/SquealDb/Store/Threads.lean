import SquealDb.Lib.Run
import SquealDb.Store.Decision
import SquealDb.Store.Invariant

/-!
# Writes and aborts, step by step

In `Db` a write call is one step, and so is an abort.  Here a call of
`insert`, `update` or `remove` is two: the `require_active` check, which also
mints the call's LSN, and the tree write under the leaf's lock, any time
later.  An abort is a thread of its own, which goes through `abort` and
`finish_abort` one read or write of the shared tables at a time; the
maintenance thread aborts the transactions of others (`enforce_snapshot_limits`)
and retries aborts that did not finish, so several may be at work on one
transaction, whose owner may be in the middle of a call.

A commit takes the `Transaction` by value, so none of its calls is under way
then.
-/

namespace SquealDb.Store

open Lib

/-- A call of `insert`, `update` or `remove`. -/
inductive WriteCall (κ δ : Type*) where
  | insert (txn : Nat) (tuple : Tuple κ δ)
  | update (txn : Nat) (tuple : Tuple κ δ)
  | remove (txn : Nat) (key : κ)
  deriving DecidableEq, Repr

/-- How far an abort has come. -/
inductive AbortPhase (κ δ : Type*) where
  /-- `abort` has asked whether the transaction wrote. -/
  | checked (wrote : Bool)
  /-- The transaction is `Aborting`; `finish_abort` begins. -/
  | aborting
  /-- `finish_abort` has asked whether the transaction wrote. -/
  | finishing (wrote : Bool)
  /-- `revert` has read the undo list, and has this much of it left. -/
  | reverting (wrote : Bool) (todo : List (Undo κ δ))
  /-- The writes are reverted, and the `Rollback` record is queued. -/
  | reverted (wrote : Bool)
  /-- `abort_complete` has forgotten the transaction; its records are left. -/
  | forgotten
  deriving DecidableEq, Repr

/-- An abort under way. -/
structure AbortTask (κ δ : Type*) where
  txn : Nat
  phase : AbortPhase κ δ
  deriving DecidableEq, Repr

/-- The store, the calls past their check and short of the leaf, each with
its LSN, and the aborts under way. -/
structure Threads (κ δ : Type*) where
  db : Db κ δ
  calls : List (WriteCall κ δ × Nat)
  aborts : List (AbortTask κ δ)

/-- One step of some thread. -/
inductive ThreadAction (κ δ : Type*) where
  | begin (policy : ConflictPolicy)
  | check (call : WriteCall κ δ)
  | land (i : Nat)
  | commit (txn : Nat)
  | abort (txn : Nat)
  | retryAbort (txn : Nat)
  | abortStep (i : Nat)
  | abortFails (i : Nat)
  | pruneCommitted
  | vacuum
  | purge

namespace WriteCall

variable {κ δ : Type*} [DecidableEq κ]

def txn : WriteCall κ δ → Nat
  | .insert txn _ | .update txn _ | .remove txn _ => txn

def key : WriteCall κ δ → κ
  | .insert _ tuple | .update _ tuple => tuple.id
  | .remove _ key => key

/-- What the call decides of the row it finds under the leaf's lock. -/
def decide (call : WriteCall κ δ) (db : Db κ δ) (lsn : Nat) :
    Except (StoreError κ) (Db κ δ × Decision κ δ) :=
  match call with
  | .insert txn tuple =>
    db.insertDecision (Db.stamped tuple txn) txn lsn (db.rows tuple.id)
  | .update txn tuple => db.updateDecision tuple txn lsn (db.rows tuple.id)
  | .remove txn key => db.removeDecision key txn lsn (db.rows key)

end WriteCall

namespace Threads

variable {κ δ : Type*} [DecidableEq κ]

def new : Threads κ δ := ⟨.new, [], []⟩

/-- The first half of a write call: `require_active`, and the LSN. -/
def check (s : Threads κ δ) (call : WriteCall κ δ) : Threads κ δ :=
  match s.db.requireActive call.txn with
  | .error _ => s
  | .ok () => { s with db := s.db.nextLsn.1, calls := s.calls ++ [(call, s.db.nextLsn.2)] }

/-- `abort`, up to its first answer. -/
def startAbort (s : Threads κ δ) (txn : Nat) : Threads κ δ :=
  { s with aborts := s.aborts ++ [⟨txn, .checked (s.db.versions.hasWrites txn)⟩] }

/-- The second half of a write call: the tree write, and `after_write`. -/
def land (s : Threads κ δ) (i : Nat) : Threads κ δ :=
  match s.calls[i]? with
  | none => s
  | some (call, lsn) =>
    let s := { s with calls := s.calls.eraseIdx i }
    match call.decide s.db lsn with
    | .ok (db, decision) => { s with db := db.applyDecision call.key decision }
    | .error (.writeConflict _) =>
      if s.db.txMgr.conflictPolicy call.txn = .abortOnConflict then s.startAbort call.txn
      else s
    | .error _ => s

/-- `commit`, which owns its `Transaction`. -/
def commit (s : Threads κ δ) (txn : Nat) : Threads κ δ :=
  if s.calls.any fun c => c.1.txn == txn then s else { s with db := (s.db.commit txn).1 }

/-- An abort of a transaction that has begun. -/
def abort (s : Threads κ δ) (txn : Nat) : Threads κ δ :=
  if txn < s.db.txMgr.clock then s.startAbort txn else s

/-- The maintenance pass finishes what it finds `Aborting`. -/
def retryAbort (s : Threads κ δ) (txn : Nat) : Threads κ δ :=
  if s.db.txMgr.states txn = some .aborting then
    { s with aborts := s.aborts ++ [⟨txn, .aborting⟩] }
  else s

/-- The next step of an abort: the store, and the phase it is in then, if it
is not done. -/
def abortNext (db : Db κ δ) (a : AbortTask κ δ) : Db κ δ × Option (AbortPhase κ δ) :=
  match a.phase with
  | .checked wrote =>
    match wrote, db.txMgr.endReadOnly a.txn with
    | false, some mgr => ({ db with txMgr := mgr }, none)
    | _, _ =>
      match db.txMgr.abort a.txn with
      | none => (db, none)
      | some mgr => ({ db with txMgr := mgr }, some .aborting)
  | .aborting => (db, some (.finishing (db.versions.hasWrites a.txn)))
  | .finishing wrote => (db, some (.reverting wrote (db.versions.undoOf a.txn).reverse))
  | .reverting wrote (u :: todo) => (Db.revertOne a.txn db u, some (.reverting wrote todo))
  | .reverting wrote [] =>
    (if wrote then db.logNew (.rollback a.txn) else db, some (.reverted wrote))
  | .reverted wrote =>
    let (mgr, forgotten) := db.txMgr.abortComplete a.txn wrote
    ({ db with txMgr := mgr }, if forgotten then some .forgotten else none)
  | .forgotten => ({ db with versions := (db.versions.discard a.txn).1 }, none)

def abortStep (s : Threads κ δ) (i : Nat) : Threads κ δ :=
  match s.aborts[i]? with
  | none => s
  | some a =>
    let (db, phase) := abortNext s.db a
    { s with
      db := db
      aborts := match phase with
        | none => s.aborts.eraseIdx i
        | some phase => s.aborts.set i ⟨a.txn, phase⟩ }

/-- A step of a revert fails: the transaction stays `Aborting`. -/
def abortFails (s : Threads κ δ) (i : Nat) : Threads κ δ :=
  match s.aborts[i]? with
  | some ⟨_, .reverting _ (_ :: _)⟩ => { s with aborts := s.aborts.eraseIdx i }
  | _ => s

def step (s : Threads κ δ) : ThreadAction κ δ → Threads κ δ
  | .begin policy => { s with db := (s.db.begin policy).1 }
  | .check call => s.check call
  | .land i => s.land i
  | .commit txn => s.commit txn
  | .abort txn => s.abort txn
  | .retryAbort txn => s.retryAbort txn
  | .abortStep i => s.abortStep i
  | .abortFails i => s.abortFails i
  | .pruneCommitted => { s with db := s.db.pruneCommitted }
  | .vacuum => { s with db := s.db.vacuum }
  | .purge => { s with db := s.db.purge }

/-! ## What is taken for committed -/

/-- The version `v` of a key is taken for committed by `r`: the walk of a
read or a scan stops at it, at the row or at a pre-image of it, or the check
for write conflicts lets `r` write over it. -/
inductive TakenAsCommitted (db : Db κ δ) (r : Nat) (key : κ) (v : Tuple κ δ) : Prop
  | row (p : ConflictPolicy) (sn : Snapshot) (w : Nat) :
      db.txMgr.states r = some (.active p) → db.txMgr.snapshot r = some sn →
      db.rows key = some v → v.txnId = some w → db.snapshotSees sn w = true →
      TakenAsCommitted db r key v
  | ancestor (p : ConflictPolicy) (sn : Snapshot) (row : Tuple κ δ) (fuel : Nat) :
      db.txMgr.states r = some (.active p) → db.txMgr.snapshot r = some sn →
      db.rows key = some row →
      Db.walkLoop db.versions (db.snapshotSees sn) fuel row.preLsn = .ancestor v →
      TakenAsCommitted db r key v
  | overwritten : db.rows key = some v → db.checkWriteConflict v r = .ok () →
      TakenAsCommitted db r key v

/-! ## Writes that land in time -/

/-- The abort has already read what there is to revert, or that there is
nothing. -/
def hasRead : AbortPhase κ δ → Bool
  | .checked wrote => !wrote
  | .aborting | .finishing _ => false
  | .reverting _ _ | .reverted _ | .forgotten => true

/-- The transaction is active or aborting, and no abort of it has read what
there is to revert. -/
def InTime (s : Threads κ δ) (txn : Nat) : Prop :=
  InFlight s.db.txMgr txn ∧ ∀ a ∈ s.aborts, a.txn = txn → hasRead a.phase = false

/-- A tree write that goes through lands in time. -/
def LandsInTime (s : Threads κ δ) : ThreadAction κ δ → Prop
  | .land i => ∀ call lsn db decision, s.calls[i]? = some (call, lsn) →
      call.decide s.db lsn = .ok (db, decision) → s.InTime call.txn
  | _ => True

end Threads

end SquealDb.Store
