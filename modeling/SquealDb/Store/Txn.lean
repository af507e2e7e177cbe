import SquealDb.Store.Record
import Mathlib.Logic.Function.Basic

/-!
# The transaction table

`TransactionManager` of `txn.rs`: one entry for each transaction the engine
still has to remember, and one `Snapshot` for each transaction that is
`Active`.  An id that is absent from the table is taken to have committed
before every active reader began.

The table is a `BTreeMap` over ids, and every id in it was drawn from the
clock; it is a function here, and an iteration in key order is one over
`List.range clock`.  `clock` is the next number `LsnClock::next_lsn` hands
out, shared with the log.  Every function below runs under the table's lock
in the source and is one step here; `isVisible` reads the table once per turn
of its loop, so it is given the tables it happens to read.
-/

namespace SquealDb.Store

inductive ConflictPolicy where
  | continueOnConflict
  | abortOnConflict
  deriving DecidableEq, Repr

inductive TxnState where
  | active (policy : ConflictPolicy)
  | aborting
  | committed (commitTs : Nat)
  | committing (commitTs : Nat) (policy : ConflictPolicy)
  | aborted (endedAt : Nat)
  deriving DecidableEq, Repr

/-- `matches!(s, TxnState::Active { .. })`. -/
def TxnState.isActive : TxnState → Bool
  | .active _ => true
  | _ => false

/-- The states `oldest_in_flight` counts. -/
def TxnState.isInFlight : TxnState → Bool
  | .active _ | .committing _ _ | .aborting => true
  | _ => false

/-- `Snapshot`: what was unfinished, and what was committing, as `reader`
began. -/
structure Snapshot where
  reader : Nat
  unfinished : List Nat
  committing : List Nat
  active : Bool
  deriving DecidableEq, Repr

/-- `Snapshot::sees`: `none` for a writer that was committing as the reader
began, whose outcome decides. -/
def Snapshot.sees (s : Snapshot) (writer : Nat) : Option Bool :=
  if writer = s.reader then some true
  else if writer > s.reader ∨ writer ∈ s.unfinished then some false
  else if writer ∈ s.committing then none
  else some true

structure TransactionManager where
  clock : Nat
  states : Nat → Option TxnState
  snapshots : Nat → Option Snapshot

namespace TransactionManager

/-- `TransactionManager::new` over a fresh `LsnClock`, whose counter starts
at one. -/
def new : TransactionManager := ⟨1, fun _ => none, fun _ => none⟩

def nextLsn (m : TransactionManager) : TransactionManager × Nat :=
  ({ m with clock := m.clock + 1 }, m.clock)

def isTransactionActive (m : TransactionManager) (txn : Nat) : Bool :=
  (m.states txn).any TxnState.isActive

def oldestActive (m : TransactionManager) : Option Nat :=
  (List.range m.clock).find? m.isTransactionActive

/-- `horizon`: the oldest active id, or with none active the next id to be
minted. -/
def horizon (m : TransactionManager) : Nat := m.oldestActive.getD m.clock

def oldestInFlight (m : TransactionManager) : Option Nat :=
  (List.range m.clock).find? fun id => (m.states id).any TxnState.isInFlight

def abortingIds (m : TransactionManager) : List Nat :=
  (List.range m.clock).filter fun id => m.states id == some .aborting

/-- The ids `create_transaction` files under `unfinished`. -/
def unfinishedIds (m : TransactionManager) : List Nat :=
  (List.range m.clock).filter fun id =>
    match m.states id with
    | none | some (.committed _) | some (.committing _ _) => false
    | some _ => true

/-- The ids `create_transaction` files under `committing`. -/
def committingIds (m : TransactionManager) : List Nat :=
  (List.range m.clock).filter fun id =>
    match m.states id with
    | some (.committing _ _) => true
    | _ => false

def createTransaction (m : TransactionManager) (policy : ConflictPolicy) :
    TransactionManager × Nat :=
  let txn := m.clock
  ({ clock := m.clock + 1
     states := Function.update m.states txn (some (.active policy))
     snapshots := Function.update m.snapshots txn
       (some ⟨txn, m.unfinishedIds, m.committingIds, true⟩) }, txn)

/-- `snapshot`: the snapshot `txn` reads with, while it is active. -/
def snapshot (m : TransactionManager) (txn : Nat) : Option Snapshot :=
  (m.snapshots txn).filter Snapshot.active

/-- A write of one entry of `states`: `insert`, `remove`, or an assignment
through `get_mut`. -/
def setState (m : TransactionManager) (txn : Nat)
    (state : Option TxnState) : TransactionManager :=
  { m with states := Function.update m.states txn state }

def setActive (m : TransactionManager) (txn : Nat)
    (active forGood : Bool) : TransactionManager :=
  let kept :=
    if forGood then none
    else (m.snapshots txn).map fun s => { s with active := active }
  { m with snapshots := Function.update m.snapshots txn kept }

def conflictPolicy (m : TransactionManager) (txn : Nat) :
    ConflictPolicy :=
  match m.states txn with
  | some (.active policy) => policy
  | _ => .continueOnConflict

/-- `is_committed`: committed at all, absence meaning long ago. -/
def isCommitted (m : TransactionManager) (txn : Nat) : Bool :=
  match m.states txn with
  | none | some (.committed _) => true
  | _ => false

/-- One turn of `is_visible`'s loop: `none` where it reads the table again. -/
def isVisibleOnce (m : TransactionManager) (writer reader : Nat) :
    Option Bool :=
  if writer = reader then some true
  else match m.states writer with
    | none => some true
    | some (.committed commitTs) => some (decide (commitTs < reader))
    | some (.committing commitTs _) => if commitTs > reader then some false else none
    | some _ => some false

/-- `is_visible`, given the tables its turns read one after another: the first
that decides. -/
def isVisible (tables : List TransactionManager)
    (writer reader : Nat) : Option Bool :=
  tables.findSome? fun m => m.isVisibleOnce writer reader

/-- `conflicts`: first committer wins. -/
def conflicts (m : TransactionManager) (writer me : Nat) : Bool :=
  if writer = me then false
  else match m.states writer with
    | none => false
    | some (.committed commitTs) => decide (commitTs > me)
    | some _ => true

def beginCommit (m : TransactionManager) (txn : Nat) :
    Option (TransactionManager × Nat) :=
  match m.states txn with
  | some (.active policy) =>
    let (m, commitTs) := m.nextLsn
    some ((m.setState txn (some (.committing commitTs policy))).setActive txn
      false false, commitTs)
  | _ => none

def finishCommit (m : TransactionManager) (txn : Nat) (logged : Bool) :
    TransactionManager :=
  match m.states txn with
  | some (.committing commitTs policy) =>
    (m.setState txn
      (some (if logged then .committed commitTs else .active policy))).setActive
        txn (!logged) logged
  | _ => m

/-- `commit`, of a transaction that wrote nothing. -/
def commit (m : TransactionManager) (txn : Nat) (commitTs : Nat) :
    Option TransactionManager :=
  match m.states txn with
  | some (.active _) =>
    some ((m.setState txn (some (.committed commitTs))).setActive txn false true)
  | _ => none

/-- What `prune_committed` keeps of an entry, given the oldest active id. -/
def keptByPrune (oldest : Option Nat) : TxnState → Bool
  | .committed commitTs =>
    match oldest with
    | some h => decide (commitTs ≥ h)
    | none => false
  | .aborted endedAt => oldest.any fun h => decide (h < endedAt)
  | _ => true

/-- `prune_committed`: also the aborted transactions it forgot. -/
def pruneCommitted (m : TransactionManager) :
    TransactionManager × List Nat :=
  ({ m with states := fun id => (m.states id).filter (keptByPrune m.oldestActive) },
   (List.range m.clock).filter fun id =>
     match m.states id with
     | some (.aborted endedAt) => !keptByPrune m.oldestActive (.aborted endedAt)
     | _ => false)

/-- `abort`: flips an active transaction to `Aborting`. -/
def abort (m : TransactionManager) (txn : Nat) :
    Option TransactionManager :=
  match m.states txn with
  | some (.active _) =>
    some ((m.setState txn (some .aborting)).setActive txn false true)
  | _ => none

def endReadOnly (m : TransactionManager) (txn : Nat) :
    Option TransactionManager :=
  match m.states txn with
  | some (.active _) =>
    some ((m.setState txn none).setActive txn false true)
  | _ => none

/-- `abort_complete`: also whether the transaction was forgotten outright. -/
def abortComplete (m : TransactionManager) (txn : Nat) (wrote : Bool) :
    TransactionManager × Bool :=
  let readers := (List.range m.clock).any fun id =>
    decide (id ≠ txn) && m.isTransactionActive id
  if wrote && readers && (m.states txn).isSome then
    (m.setState txn (some (.aborted m.clock)), false)
  else
    ((m.setState txn none).setActive txn false true, true)

/-! ## Reading the table after a write to it -/

section Fields

variable (m : TransactionManager) (txn id : Nat)

@[simp] theorem setState_clock (state : Option TxnState) :
    (m.setState txn state).clock = m.clock := rfl

@[simp] theorem setState_states (state : Option TxnState) :
    (m.setState txn state).states = Function.update m.states txn state := rfl

@[simp] theorem setState_snapshots (state : Option TxnState) :
    (m.setState txn state).snapshots = m.snapshots := rfl

@[simp] theorem setActive_clock (active forGood : Bool) :
    (m.setActive txn active forGood).clock = m.clock := rfl

@[simp] theorem setActive_states (active forGood : Bool) :
    (m.setActive txn active forGood).states = m.states := rfl

theorem setActive_snapshots_of_ne (active forGood : Bool) (h : id ≠ txn) :
    (m.setActive txn active forGood).snapshots id = m.snapshots id := by
  simp [setActive, h]

@[simp] theorem nextLsn_snd : m.nextLsn.2 = m.clock := rfl

@[simp] theorem nextLsn_clock : m.nextLsn.1.clock = m.clock + 1 := rfl

@[simp] theorem nextLsn_states : m.nextLsn.1.states = m.states := rfl

@[simp] theorem nextLsn_snapshots : m.nextLsn.1.snapshots = m.snapshots := rfl

theorem isTransactionActive_iff :
    m.isTransactionActive txn = true ↔ ∃ policy, m.states txn = some (.active policy) := by
  unfold isTransactionActive
  cases h : m.states txn with
  | none => simp
  | some state => cases state <;> simp [TxnState.isActive]

end Fields

end TransactionManager

end SquealDb.Store
