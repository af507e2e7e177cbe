import Mathlib.Data.List.Basic

/-!
# Tuples, operations and log records

The data the transaction layer moves around (`tuple.rs`, `logger.rs`).

A key `κ` stands for a row's address: the table's id together with the row's
id in it, which every record names as a pair.  The row's bytes are a type `δ`
that nothing here looks into.  A transaction's id (`TransactionId`) is
the counter's value as it began, an LSN (`LsnId`) the counter's value as the write was
made; with commit timestamps they are drawn from one counter (`LsnClock`) and
are all plain natural numbers here.  The counter is 64 bits wide in the
source, and nothing below depends on it wrapping.
-/

namespace SquealDb.Store

/-- `Tuple`: one version of a row, as its page holds it. -/
structure Tuple (κ δ : Type*) where
  id : κ
  data : δ
  /-- The transaction that wrote this version. -/
  txnId : Option Nat
  /-- The LSN its pre-image is kept under; `none` for a fresh insert. -/
  preLsn : Option Nat
  tombstoned : Bool
  deriving DecidableEq, Repr

namespace Tuple

variable {κ δ : Type*}

def isSameTxn (t : Tuple κ δ) (txn : Nat) : Bool := t.txnId == some txn

@[simp] theorem isSameTxn_iff (t : Tuple κ δ) (txn : Nat) :
    t.isSameTxn txn = true ↔ t.txnId = some txn := by
  simp [isSameTxn]

end Tuple

/-- `Operation`: what a log record says.  `Sequence` records belong to the
generator and are modelled with it. -/
inductive Operation (κ δ : Type*) where
  | add (txn : Nat) (post : Tuple κ δ)
  | mod (txn : Nat) (pre post : Tuple κ δ)
  | del (txn : Nat) (pre : Tuple κ δ)
  | commit (txn : Nat)
  | rollback (txn : Nat)
  | purge (txn : Nat) (key : κ)
  deriving DecidableEq, Repr

structure LogRecord (κ δ : Type*) where
  lsn : Nat
  operation : Operation κ δ
  deriving DecidableEq, Repr

/-- `StoreError`, the errors the modelled calls return. -/
inductive StoreError (κ : Type*) where
  | transactionAlreadyFinished
  | duplicateKey (key : κ)
  | keyNotFound (key : κ)
  | writeConflict (key : κ)
  | writeConflictTransactionAborted (key : κ)
  | tupleTooLarge (actual budget : Nat)
  | pageCapacityError
  | corruption
  | unknownError
  deriving DecidableEq, Repr

end SquealDb.Store
