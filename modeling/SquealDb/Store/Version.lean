import SquealDb.Store.Record
import Mathlib.Logic.Function.Basic

/-!
# The version store

`VersionStore` of `version.rs`: what readers and rollback need of the past,
kept in memory.  A pre-image is kept under the LSN that its successor's
`pre_lsn` points at; each transaction's writes are kept in order for its
rollback; two queues wait for the horizon.

The sharded maps are functions here, and a `WriteLog`, which encodes its
entries one after another, is the list of them.
-/

namespace SquealDb.Store

/-- `Tombstone`: a committed delete awaiting physical purge. -/
structure Tombstone (κ : Type*) where
  commitTs : Nat
  key : κ
  txn : Nat
  deriving DecidableEq, Repr

/-- `Undo`: what rolling back one write does. -/
inductive Undo (κ δ : Type*) where
  | remove (key : κ)
  | restore (pre : Tuple κ δ)
  deriving DecidableEq, Repr

/-- `PreImage`: the version an update or delete replaced. -/
structure PreImage (κ δ : Type*) where
  tuple : Tuple κ δ
  /-- Replaced by a delete. -/
  deleted : Bool
  deriving DecidableEq, Repr

/-- `Written`: one write, as its transaction's rollback needs it. -/
inductive Written (κ : Type*) where
  | inserted (key : κ)
  | replaced (lsn : Nat)
  deriving DecidableEq, Repr

/-- The LSN an entry's pre-image is kept under. -/
def Written.lsn? {κ : Type*} : Written κ → Option Nat
  | .inserted _ => none
  | .replaced lsn => some lsn

/-- The LSNs of the pre-images a write log keeps. -/
def replacedLsns {κ : Type*} (written : List (Written κ)) : List Nat :=
  written.filterMap Written.lsn?

structure VersionStore (κ δ : Type*) where
  preImages : Nat → Option (PreImage κ δ)
  byTxn : Nat → Option (List (Written κ))
  /-- Committed transactions not yet forgotten: commit timestamp, id, and the
  pre-images kept. -/
  committed : List (Nat × Nat × Nat)
  retained : Nat
  tombstones : List (Tombstone κ)

/-- `Vacuumed`: what one vacuum pass reclaimed and handed back. -/
structure Vacuumed (κ : Type*) where
  transactionsForgotten : Nat
  recordsDiscarded : Nat
  tombstones : List (Tombstone κ)

namespace Undo

variable {κ δ : Type*}

/-- The row an undo is about. -/
def key : Undo κ δ → κ
  | .remove key => key
  | .restore pre => pre.id

/-- What the undo leaves on the page. -/
def target : Undo κ δ → Option (Tuple κ δ)
  | .remove _ => none
  | .restore pre => some pre

end Undo

namespace VersionStore

variable {κ δ : Type*}

def new : VersionStore κ δ := ⟨fun _ => none, fun _ => none, [], 0, []⟩

/-- The writes registered for `txn`. -/
def writtenBy (s : VersionStore κ δ) (txn : Nat) : List (Written κ) :=
  (s.byTxn txn).getD []

/-- `by_txn.with_entry_or_default(txn, push)`. -/
def push (s : VersionStore κ δ) (txn : Nat) (w : Written κ) : VersionStore κ δ :=
  { s with byTxn := Function.update s.byTxn txn (some (s.writtenBy txn ++ [w])) }

def keepPreImage (s : VersionStore κ δ) (lsn : Nat) (tuple : Tuple κ δ)
    (deleted : Bool) : VersionStore κ δ :=
  { s with preImages := Function.update s.preImages lsn (some ⟨tuple, deleted⟩) }

/-- `insert`: records a write. -/
def insert (s : VersionStore κ δ) (lsn : Nat) : Operation κ δ → VersionStore κ δ
  | .add txn post => s.push txn (.inserted post.id)
  | .mod txn pre _ => (s.keepPreImage lsn pre false).push txn (.replaced lsn)
  | .del txn pre => (s.keepPreImage lsn pre true).push txn (.replaced lsn)
  | _ => s

/-- `find`: the version a tuple's `pre_lsn` points at. -/
def find (s : VersionStore κ δ) (lsn : Nat) : Option (Tuple κ δ) :=
  (s.preImages lsn).map PreImage.tuple

/-- How one write is rolled back; nothing if its pre-image is gone. -/
def undoEntry (s : VersionStore κ δ) : Written κ → Option (Undo κ δ)
  | .inserted key => some (.remove key)
  | .replaced lsn => (s.find lsn).map .restore

/-- `undo_of`: in the order the writes were made. -/
def undoOf (s : VersionStore κ δ) (txn : Nat) : List (Undo κ δ) :=
  (s.writtenBy txn).filterMap s.undoEntry

def hasWrites (s : VersionStore κ δ) (txn : Nat) : Bool := (s.byTxn txn).isSome

/-- `discard`: also how many writes there were. -/
def discard (s : VersionStore κ δ) (txn : Nat) : VersionStore κ δ × Nat :=
  match s.byTxn txn with
  | none => (s, 0)
  | some written =>
    let kept := fun lsn =>
      if lsn ∈ replacedLsns written then none else s.preImages lsn
    ({ s with preImages := kept, byTxn := Function.update s.byTxn txn none },
     written.length)

/-- The tombstones a committed write log leaves behind. -/
def tombstonesOf (s : VersionStore κ δ) (txn commitTs : Nat) (lsns : List Nat) :
    List (Tombstone κ) :=
  lsns.filterMap fun lsn =>
    match s.preImages lsn with
    | some p => if p.deleted then some ⟨commitTs, p.tuple.id, txn⟩ else none
    | none => none

def markCommitted (s : VersionStore κ δ) (txn commitTs : Nat) : VersionStore κ δ :=
  match s.byTxn txn with
  | none => s
  | some written =>
    let lsns := replacedLsns written
    let kept := written.filter fun w => w.lsn?.isSome
    { s with
      byTxn := Function.update s.byTxn txn (if lsns = [] then none else some kept)
      retained := s.retained + lsns.length
      committed :=
        if lsns = [] then s.committed else s.committed ++ [(commitTs, txn, lsns.length)]
      tombstones := s.tombstones ++ s.tombstonesOf txn commitTs lsns }

/-- The retention rule of `vacuum`. -/
def reclaimable (horizon : Option Nat) (commitTs : Nat) : Bool :=
  match horizon with
  | some h => decide (commitTs < h)
  | none => true

/-- `vacuum` of one committed transaction. -/
def forget (s : VersionStore κ δ) (entry : Nat × Nat × Nat) : VersionStore κ δ :=
  let s' := (s.discard entry.2.1).1
  { s' with retained := s'.retained - entry.2.2 }

/-- The committed transactions `vacuum` forgets, one after another, with the
number of records discarded so far. -/
def forgetAll (s : VersionStore κ δ) :
    List (Nat × Nat × Nat) → VersionStore κ δ × Nat
  | [] => (s, 0)
  | entry :: rest =>
    let (s', n) := (s.forget entry).forgetAll rest
    (s', (s.discard entry.2.1).2 + n)

def vacuum (s : VersionStore κ δ) (horizon : Option Nat) :
    VersionStore κ δ × Vacuumed κ :=
  let done := s.committed.filter fun e => reclaimable horizon e.1
  let keep := s.committed.filter fun e => !reclaimable horizon e.1
  let released := s.tombstones.filter fun t => reclaimable horizon t.commitTs
  let waiting := s.tombstones.filter fun t => !reclaimable horizon t.commitTs
  let (s', discarded) := { s with committed := keep, tombstones := waiting }.forgetAll done
  (s', ⟨done.length, discarded, released⟩)

/-! ## Reading the store after a write to it -/

section Fields

variable (s : VersionStore κ δ) (txn lsn : Nat)

@[simp] theorem find_push (w : Written κ) : (s.push txn w).find = s.find := rfl

theorem find_keepPreImage (t : Tuple κ δ) (deleted : Bool) :
    (s.keepPreImage lsn t deleted).find = Function.update s.find lsn (some t) := by
  funext l
  unfold find keepPreImage
  by_cases h : l = lsn
  · subst h
    simp
  · simp [h]

@[simp] theorem writtenBy_keepPreImage (t : Tuple κ δ) (deleted : Bool) :
    (s.keepPreImage lsn t deleted).writtenBy txn = s.writtenBy txn := rfl

@[simp] theorem writtenBy_push_self (w : Written κ) :
    (s.push txn w).writtenBy txn = s.writtenBy txn ++ [w] := by
  simp [push, writtenBy]

theorem writtenBy_push_of_ne {id : Nat} (w : Written κ) (h : id ≠ txn) :
    (s.push txn w).writtenBy id = s.writtenBy id := by
  simp [push, writtenBy, h]

@[simp] theorem mem_replacedLsns {written : List (Written κ)} :
    lsn ∈ replacedLsns written ↔ .replaced lsn ∈ written := by
  unfold replacedLsns
  rw [List.mem_filterMap]
  constructor
  · rintro ⟨w, hw, heq⟩
    cases w with
    | inserted key => cases heq
    | replaced l =>
      cases heq
      exact hw
  · intro h
    exact ⟨_, h, rfl⟩

theorem find_discard :
    (s.discard txn).1.find lsn =
      if lsn ∈ replacedLsns (s.writtenBy txn) then none else s.find lsn := by
  unfold discard writtenBy find
  cases h : s.byTxn txn with
  | none => simp
  | some written =>
    by_cases hm : Written.replaced lsn ∈ written
    · simp [hm]
    · simp [hm]

theorem byTxn_discard : (s.discard txn).1.byTxn = Function.update s.byTxn txn none := by
  unfold discard
  cases h : s.byTxn txn with
  | none => simp [h]
  | some written => rfl

@[simp] theorem committed_discard : (s.discard txn).1.committed = s.committed := by
  unfold discard
  cases h : s.byTxn txn with
  | none => rfl
  | some written => rfl

@[simp] theorem tombstones_discard : (s.discard txn).1.tombstones = s.tombstones := by
  unfold discard
  cases h : s.byTxn txn with
  | none => rfl
  | some written => rfl

@[simp] theorem find_markCommitted (commitTs : Nat) :
    (s.markCommitted txn commitTs).find = s.find := by
  unfold markCommitted
  split
  · rfl
  · rfl

theorem byTxn_markCommitted_of_ne {id : Nat} (commitTs : Nat) (h : id ≠ txn) :
    (s.markCommitted txn commitTs).byTxn id = s.byTxn id := by
  unfold markCommitted
  split
  · rfl
  · simp [h]

/-- What undoes a transaction is told by its writes and their pre-images. -/
theorem undoOf_congr {s s' : VersionStore κ δ} {t : Nat} (hwritten : s'.writtenBy t = s.writtenBy t)
    (hfind : ∀ l, .replaced l ∈ s.writtenBy t → s'.find l = s.find l) :
    s'.undoOf t = s.undoOf t := by
  rw [undoOf, hwritten]
  refine List.filterMap_congr fun w hw => ?_
  cases w with
  | inserted key => rfl
  | replaced l => simp only [undoEntry, hfind l hw]

theorem hasWrites_markCommitted_of_ne {id : Nat} (commitTs : Nat) (h : id ≠ txn) :
    (s.markCommitted txn commitTs).hasWrites id = s.hasWrites id := by
  rw [hasWrites, byTxn_markCommitted_of_ne s txn commitTs h, hasWrites]

theorem undoOf_markCommitted_of_ne {id : Nat} (commitTs : Nat) (h : id ≠ txn) :
    (s.markCommitted txn commitTs).undoOf id = s.undoOf id := by
  refine undoOf_congr ?_ fun l _ => congrFun (find_markCommitted s txn commitTs) l
  rw [writtenBy, byTxn_markCommitted_of_ne s txn commitTs h, writtenBy]

/-- A commit keeps, of the committed transaction's writes, those that have a
pre-image. -/
theorem replaced_mem_markCommitted {id : Nat} (commitTs : Nat)
    (h : .replaced lsn ∈ (s.markCommitted txn commitTs).writtenBy id) :
    .replaced lsn ∈ s.writtenBy id := by
  by_cases hid : id = txn
  · subst hid
    unfold markCommitted writtenBy at h
    split at h
    · exact h
    · next written hw =>
        simp only [Function.update_self] at h
        unfold writtenBy
        split at h
        · simp at h
        · rw [Option.getD_some, List.mem_filter] at h
          rw [hw]
          exact h.1
  · unfold writtenBy at h ⊢
    rwa [byTxn_markCommitted_of_ne s txn commitTs hid] at h

theorem hasWrites_of_markCommitted {id : Nat} (commitTs : Nat)
    (h : (s.markCommitted txn commitTs).hasWrites id = true) : s.hasWrites id = true := by
  by_cases hid : id = txn
  · subst hid
    unfold markCommitted hasWrites at h
    split at h
    · next hw => simp [hw] at h
    · next written hw => simp [hasWrites, hw]
  · unfold hasWrites at h ⊢
    rwa [byTxn_markCommitted_of_ne s txn commitTs hid] at h

theorem mem_committed_markCommitted (commitTs : Nat) {e : Nat × Nat × Nat}
    (h : e ∈ (s.markCommitted txn commitTs).committed) :
    e ∈ s.committed ∨ e.1 = commitTs ∧ e.2.1 = txn := by
  unfold markCommitted at h
  split at h
  · exact Or.inl h
  · dsimp only at h
    split at h
    · exact Or.inl h
    · rw [List.mem_append, List.mem_singleton] at h
      rcases h with h | rfl
      · exact Or.inl h
      · exact Or.inr ⟨rfl, rfl⟩

theorem mem_tombstones_markCommitted (commitTs : Nat) {t : Tombstone κ}
    (h : t ∈ (s.markCommitted txn commitTs).tombstones) :
    t ∈ s.tombstones ∨ t.commitTs = commitTs ∧ t.txn = txn := by
  unfold markCommitted at h
  split at h
  · exact Or.inl h
  · rw [List.mem_append] at h
    refine h.imp_right fun h => ?_
    obtain ⟨l, -, hl⟩ := List.mem_filterMap.mp h
    split at hl
    · split at hl
      · cases hl
        exact ⟨rfl, rfl⟩
      · cases hl
    · cases hl

end Fields

end VersionStore

end SquealDb.Store
