import SquealDb.Store.Version

/-!
# What the log says

The log in queue order is the history of the store: which versions were
written to a key and by whom, which transactions committed and when, and how
each write is undone.  The functions here read that history; the invariant of
the store and the statements about reads, aborts and recovery are in their
terms.
-/

namespace SquealDb.Store

variable {κ δ : Type*}

namespace Operation

/-- The transaction a write record belongs to. -/
def writer : Operation κ δ → Option Nat
  | .add txn _ | .mod txn _ _ | .del txn _ => some txn
  | _ => none

/-- The transaction a `Commit` record commits. -/
def commits : Operation κ δ → Option Nat
  | .commit txn => some txn
  | _ => none

/-- The version a write record left on its page; a `Del` record keeps only
the version it replaced. -/
def written (lsn : Nat) : Operation κ δ → Option (Tuple κ δ)
  | .add _ post => some post
  | .mod _ _ post => some post
  | .del txn pre =>
    some { pre with txnId := some txn, preLsn := some lsn, tombstoned := true }
  | _ => none

/-- How a write record is undone. -/
def undo : Operation κ δ → Option (Undo κ δ)
  | .add _ post => some (.remove post.id)
  | .mod _ pre _ => some (.restore pre)
  | .del _ pre => some (.restore pre)
  | _ => none

end Operation

/-- The version a record left on its page. -/
def LogRecord.written (r : LogRecord κ δ) : Option (Tuple κ δ) := r.operation.written r.lsn

/-- The commit timestamp of a transaction: the LSN of its `Commit` record. -/
def commitTs (log : List (LogRecord κ δ)) (txn : Nat) : Option Nat :=
  log.findSome? fun r => if r.operation.commits = some txn then some r.lsn else none

/-- The transaction has a write in the log. -/
def Wrote (log : List (LogRecord κ δ)) (txn : Nat) : Prop :=
  ∃ r ∈ log, r.operation.writer = some txn

/-- How the writes of a transaction are undone, in the order they were made. -/
def undosOf (log : List (LogRecord κ δ)) (txn : Nat) : List (Undo κ δ) :=
  log.filterMap fun r => if r.operation.writer = some txn then r.operation.undo else none

/-- A version was written by a transaction that has a commit timestamp. -/
def CommittedBy (ts : Nat → Option Nat) (v : Tuple κ δ) : Prop :=
  (v.txnId.bind ts).isSome = true

instance (ts : Nat → Option Nat) (v : Tuple κ δ) : Decidable (CommittedBy ts v) :=
  inferInstanceAs (Decidable (_ = true))

variable {v : Tuple κ δ}

theorem committedBy_iff {ts : Nat → Option Nat} {w : Nat} (hw : v.txnId = some w) :
    CommittedBy ts v ↔ ∃ c, ts w = some c := by
  unfold CommittedBy
  rw [hw, Option.bind_some, Option.isSome_iff_exists]

/-- The row a version stands for: none if it is a tombstone. -/
def asRow (v : Option (Tuple κ δ)) : Option (Tuple κ δ) :=
  v.filter fun t => !t.tombstoned

section Key

variable [DecidableEq κ]

/-- The versions ever written to a key, oldest first. -/
def versionsOf (log : List (LogRecord κ δ)) (key : κ) : List (Tuple κ δ) :=
  log.filterMap fun r => r.written.filter fun v => decide (v.id = key)

/-- The versions of a key written by transactions that committed. -/
def committedVersions (log : List (LogRecord κ δ)) (key : κ) : List (Tuple κ δ) :=
  (versionsOf log key).filter fun v => decide (CommittedBy (commitTs log) v)

/-- The last committed version of a key. -/
def lastCommitted (log : List (LogRecord κ δ)) (key : κ) : Option (Tuple κ δ) :=
  (committedVersions log key).getLast?

/-- The versions of a key written by one transaction. -/
def ownVersions (log : List (LogRecord κ δ)) (txn : Nat) (key : κ) :
    List (Tuple κ δ) :=
  (versionsOf log key).filter fun v => decide (v.txnId = some txn)

/-- How the writes of a transaction to one key are undone. -/
def undosOn (log : List (LogRecord κ δ)) (txn : Nat) (key : κ) : List (Undo κ δ) :=
  (undosOf log txn).filter fun u => decide (u.key = key)

end Key

@[simp] theorem asRow_none : asRow (none : Option (Tuple κ δ)) = none := rfl

theorem asRow_tombstoned (h : v.tombstoned = true) :
    asRow (some v) = none := by
  simp [asRow, Option.filter_some, h]

theorem asRow_live (h : v.tombstoned = false) :
    asRow (some v) = some v := by
  simp [asRow, Option.filter_some, h]

/-! ## Appending a record -/

/-- A commit stays one as the log grows. -/
theorem CommittedBy.append {log log' : List (LogRecord κ δ)} (h : CommittedBy (commitTs log) v) :
    CommittedBy (commitTs (log ++ log')) v := by
  unfold CommittedBy at h ⊢
  cases hw : v.txnId with
  | none => rw [hw] at h; cases h
  | some w =>
    rw [hw, Option.bind_some, Option.isSome_iff_exists] at h
    obtain ⟨c, hc⟩ := h
    have hc' : commitTs (log ++ log') w = some c := by
      unfold commitTs at hc ⊢
      rw [List.findSome?_append, hc]
      rfl
    simp [hc']

section Append

variable (log : List (LogRecord κ δ)) (r : LogRecord κ δ)

theorem commitTs_append_other (h : r.operation.commits = none) :
    commitTs (log ++ [r]) = commitTs log := by
  funext txn
  unfold commitTs
  rw [List.findSome?_append]
  simp [h]

variable {txn : Nat} {u : Undo κ δ} {key : κ}

theorem commitTs_append_commit {lsn : Nat} (hnone : commitTs log txn = none) :
    commitTs (log ++ [⟨lsn, .commit txn⟩]) =
      Function.update (commitTs log) txn (some lsn) := by
  funext id
  by_cases h : id = txn
  · subst h
    rw [Function.update_self]
    unfold commitTs at hnone ⊢
    rw [List.findSome?_append, hnone]
    simp [Operation.commits]
  · rw [Function.update_of_ne h]
    unfold commitTs
    rw [List.findSome?_append]
    simp [Operation.commits, Ne.symm h]

theorem wrote_append_iff (txn : Nat) :
    Wrote (log ++ [r]) txn ↔ Wrote log txn ∨ r.operation.writer = some txn := by
  simp [Wrote, or_and_right, exists_or]

theorem wrote_append_other (h : r.operation.writer = none) :
    Wrote (log ++ [r]) = Wrote log := by
  funext txn
  simp [wrote_append_iff, h]

theorem wrote_append_write (h : r.operation.writer = some txn) :
    Wrote (log ++ [r]) = fun id => Wrote log id ∨ id = txn := by
  funext id
  simp [wrote_append_iff, h, eq_comm]

theorem undosOf_append_of_ne (h : r.operation.writer ≠ some txn) :
    undosOf (log ++ [r]) txn = undosOf log txn := by
  simp [undosOf, h]

theorem undosOf_append_self (h : r.operation.writer = some txn) (hu : r.operation.undo = some u) :
    undosOf (log ++ [r]) txn = undosOf log txn ++ [u] := by
  simp [undosOf, h, hu]

variable [DecidableEq κ]

theorem versionsOf_append (log' : List (LogRecord κ δ)) (key : κ) :
    versionsOf (log ++ log') key = versionsOf log key ++ versionsOf log' key :=
  List.filterMap_append

theorem undosOn_append (log' : List (LogRecord κ δ)) (txn : Nat) (key : κ) :
    undosOn (log ++ log') txn key = undosOn log txn key ++ undosOn log' txn key := by
  simp [undosOn, undosOf]

theorem versionsOf_append_other (key : κ) (h : r.written = none) :
    versionsOf (log ++ [r]) key = versionsOf log key := by
  simp [versionsOf, h]

theorem versionsOf_append_self {v : Tuple κ δ} (h : r.written = some v) (hkey : v.id = key) :
    versionsOf (log ++ [r]) key = versionsOf log key ++ [v] := by
  simp [versionsOf, Option.filter_some, h, hkey]

theorem versionsOf_append_of_ne {v : Tuple κ δ} (h : r.written = some v) (hkey : v.id ≠ key) :
    versionsOf (log ++ [r]) key = versionsOf log key := by
  simp [versionsOf, h, hkey]

theorem undosOn_append_of_ne_key (hu : r.operation.undo = some u) (hkey : u.key ≠ key) :
    undosOn (log ++ [r]) txn key = undosOn log txn key := by
  unfold undosOn
  by_cases h : r.operation.writer = some txn
  · rw [undosOf_append_self log r h hu]
    simp [hkey]
  · rw [undosOf_append_of_ne log r h]

theorem undosOn_append_of_ne (h : r.operation.writer ≠ some txn) :
    undosOn (log ++ [r]) txn key = undosOn log txn key := by
  unfold undosOn
  rw [undosOf_append_of_ne log r h]

theorem undosOn_append_self (h : r.operation.writer = some txn) (hu : r.operation.undo = some u)
    (hkey : u.key = key) :
    undosOn (log ++ [r]) txn key = undosOn log txn key ++ [u] := by
  unfold undosOn
  rw [undosOf_append_self log r h hu]
  simp [hkey]

end Append

end SquealDb.Store
