import SquealDb.Lib.Run
import SquealDb.Store.History
import SquealDb.Store.Txn
import SquealDb.Store.Version

/-!
# What is kept, and for whom

The calls on the transaction table and on the version store, one at a time as
`Db` makes them: `mark_committed` comes some time after `finish_commit`, and the
records of a transaction that the table forgot are discarded some time after.
Every decision about what to keep (`horizon`, `prune_committed`,
`abort_complete`) asks for active transactions only.

`EntryStep` says once what a step can do to the entry of one transaction, and
`Inv` is the invariant that ties the entries to the write logs and pre-images of
the version store.
-/

namespace SquealDb.Store

/-- The transaction table and the version store, with what the calls under way
have still to do: committed transactions to be marked with their timestamps,
and forgotten ones to be discarded.  `wrote` and `committedAt` are the history
the answers are about. -/
structure Retention (κ δ : Type*) where
  mgr : TransactionManager
  versions : VersionStore κ δ
  marking : List (Nat × Nat)
  discarding : List Nat
  wrote : Nat → Bool
  committedAt : Nat → Option Nat

/-- One call. -/
inductive RetentionAction (κ δ : Type*) where
  | begin (policy : ConflictPolicy)
  | write (op : Operation κ δ)
  | beginCommit (txn : Nat)
  | finishCommit (txn : Nat) (logged : Bool)
  | markCommitted (txn : Nat)
  | commitReadOnly (txn : Nat)
  | abort (txn : Nat)
  | abortComplete (txn : Nat)
  | endReadOnly (txn : Nat)
  | discard (txn : Nat)
  | pruneCommitted
  | vacuum

namespace Retention

variable {κ δ : Type*}

def init : Retention κ δ := ⟨.new, .new, [], [], fun _ => false, fun _ => none⟩

/-- A write of an active transaction, under an LSN of its own. -/
def write (s : Retention κ δ) (op : Operation κ δ) : Retention κ δ :=
  match op.writer with
  | none => s
  | some txn =>
    if s.mgr.isTransactionActive txn then
      { s with
        mgr := s.mgr.nextLsn.1
        versions := s.versions.insert s.mgr.nextLsn.2 op
        wrote := Function.update s.wrote txn true }
    else s

/-- `begin_commit`, which `commit_id_with` calls for a transaction that
wrote. -/
def beginCommit (s : Retention κ δ) (txn : Nat) : Retention κ δ :=
  if s.versions.hasWrites txn then
    match s.mgr.beginCommit txn with
    | some (mgr, _) => { s with mgr := mgr }
    | none => s
  else s

/-- `finish_commit`; with its record queued, the transaction is to be marked
as committed. -/
def finishCommit (s : Retention κ δ) (txn : Nat) (logged : Bool) : Retention κ δ :=
  match s.mgr.states txn, logged with
  | some (.committing c _), true =>
    { s with
      mgr := s.mgr.finishCommit txn true
      marking := s.marking ++ [(txn, c)]
      committedAt := Function.update s.committedAt txn (some c) }
  | _, _ => { s with mgr := s.mgr.finishCommit txn logged }

/-- `mark_committed`, by the thread that finished the commit. -/
def markCommitted (s : Retention κ δ) (txn : Nat) : Retention κ δ :=
  match s.marking.find? fun e => e.1 == txn with
  | some e =>
    { s with
      versions := s.versions.markCommitted e.1 e.2
      marking := s.marking.erase e }
  | none => s

/-- `commit`, of a transaction that wrote nothing. -/
def commitReadOnly (s : Retention κ δ) (txn : Nat) : Retention κ δ :=
  if s.versions.hasWrites txn then s
  else match s.mgr.nextLsn.1.commit txn s.mgr.nextLsn.2 with
    | some mgr => { s with mgr := mgr }
    | none => { s with mgr := s.mgr.nextLsn.1 }

/-- `abort_complete`, of a transaction whose writes have been reverted. -/
def abortComplete (s : Retention κ δ) (txn : Nat) : Retention κ δ :=
  match s.mgr.states txn with
  | some .aborting | some (.aborted _) =>
    let (mgr, forgotten) := s.mgr.abortComplete txn (s.versions.hasWrites txn)
    { s with mgr := mgr, discarding := if forgotten then txn :: s.discarding else s.discarding }
  | _ => s

/-- One step; a call the caller's own checks refuse changes nothing. -/
def step (s : Retention κ δ) : RetentionAction κ δ → Retention κ δ
  | .begin policy => { s with mgr := (s.mgr.createTransaction policy).1 }
  | .write op => s.write op
  | .beginCommit txn => s.beginCommit txn
  | .finishCommit txn logged => s.finishCommit txn logged
  | .markCommitted txn => s.markCommitted txn
  | .commitReadOnly txn => s.commitReadOnly txn
  | .abort txn =>
    match s.mgr.abort txn with
    | some mgr => { s with mgr := mgr }
    | none => s
  | .abortComplete txn => s.abortComplete txn
  | .endReadOnly txn =>
    if s.versions.hasWrites txn then s
    else match s.mgr.endReadOnly txn with
      | some mgr => { s with mgr := mgr }
      | none => s
  | .discard txn =>
    if txn ∈ s.discarding then
      { s with
        versions := (s.versions.discard txn).1
        discarding := s.discarding.erase txn }
    else s
  | .pruneCommitted =>
    { s with
      mgr := s.mgr.pruneCommitted.1
      discarding := s.discarding ++ s.mgr.pruneCommitted.2 }
  | .vacuum => { s with versions := (s.versions.vacuum (some s.mgr.horizon)).1 }

/-- The states every order of calls leads to. -/
def Reachable : Retention κ δ → Prop := Lib.Reachable step (fun _ _ => True) init

/-- A writer that aborted and was forgotten. -/
def Lost (s : Retention κ δ) (w : Nat) : Prop :=
  s.mgr.states w = none ∧ s.committedAt w = none

/-! ## What a step does to the table -/

/-- What one step `a` that leaves the clock at `now` can do to the entry of
`w`. -/
inductive EntryStep (s : Retention κ δ) (a : RetentionAction κ δ) (now w : Nat) :
    Option TxnState → Option TxnState → Prop
  | same (st : Option TxnState) : EntryStep s a now w st st
  | beginCommit (p : ConflictPolicy) : s.mgr.clock < now →
      EntryStep s a now w (some (.active p)) (some (.committing s.mgr.clock p))
  | logged (c : Nat) (p : ConflictPolicy) : a = .finishCommit w true →
      EntryStep s a now w (some (.committing c p)) (some (.committed c))
  | failed (c : Nat) (p : ConflictPolicy) : a = .finishCommit w false →
      EntryStep s a now w (some (.committing c p)) (some (.active p))
  | commitReadOnly (p : ConflictPolicy) : s.versions.hasWrites w = false → s.mgr.clock < now →
      EntryStep s a now w (some (.active p)) (some (.committed s.mgr.clock))
  | endReadOnly (p : ConflictPolicy) : s.versions.hasWrites w = false →
      EntryStep s a now w (some (.active p)) none
  | abort (p : ConflictPolicy) : EntryStep s a now w (some (.active p)) (some .aborting)
  | aborted (st : TxnState) (at' : Nat) : (st = .aborting ∨ ∃ b, st = .aborted b) →
      EntryStep s a now w (some st) (some (.aborted at'))
  | forgotten (st : TxnState) : (st = .aborting ∨ ∃ b, st = .aborted b) →
      EntryStep s a now w (some st) none
  | pruned (c : Nat) : a = .pruneCommitted →
      TransactionManager.keptByPrune s.mgr.oldestActive (.committed c) = false →
      EntryStep s a now w (some (.committed c)) none

/-- The entry of a transaction that will not read again. -/
def Closed (st : Option TxnState) : Prop :=
  (∀ p, st ≠ some (.active p)) ∧ ∀ c p, st ≠ some (.committing c p)

/-- A table's snapshot of `w` after a call: as it was, with `active` set to what
the entry says, or of no more use. -/
def SnapshotStep (m m' : TransactionManager) (w : Nat) : Prop :=
  (m'.states w = m.states w ∧ m'.snapshots w = m.snapshots w) ∨
    (m'.snapshots w =
      (m.snapshots w).map fun sn => { sn with active := m'.isTransactionActive w }) ∨
    Closed (m'.states w)

/-- What a step that begins no transaction does to the table. -/
structure TableStep (s : Retention κ δ) (a : RetentionAction κ δ) (m : TransactionManager) :
    Prop where
  clock : s.mgr.clock ≤ m.clock
  entry : ∀ w, EntryStep s a m.clock w (s.mgr.states w) (m.states w)
  snapshot : ∀ w, SnapshotStep s.mgr m w

namespace TableStep

variable {s : Retention κ δ} {a : RetentionAction κ δ} {m : TransactionManager}

theorem refl (s : Retention κ δ) (a : RetentionAction κ δ) : TableStep s a s.mgr :=
  ⟨Nat.le_refl _, fun _ => .same _, fun _ => Or.inl ⟨rfl, rfl⟩⟩

theorem nextLsn (s : Retention κ δ) (a : RetentionAction κ δ) : TableStep s a s.mgr.nextLsn.1 :=
  ⟨Nat.le_succ _, fun _ => .same _, fun _ => Or.inl ⟨rfl, rfl⟩⟩

variable {txn : Nat}

/-- A call that writes one entry. -/
theorem ofUpdate {old new : Option TxnState} (hold : s.mgr.states txn = old)
    (hclock : s.mgr.clock ≤ m.clock) (hstates : m.states = Function.update s.mgr.states txn new)
    (hother : ∀ w, w ≠ txn → m.snapshots w = s.mgr.snapshots w) (hself : SnapshotStep s.mgr m txn)
    (h : EntryStep s a m.clock txn old new) : TableStep s a m := by
  have hne : ∀ w, w ≠ txn → m.states w = s.mgr.states w := by
    intro w hw
    rw [hstates, Function.update_of_ne hw]
  refine ⟨hclock, fun w => ?_, fun w => ?_⟩
  · by_cases heq : w = txn
    · subst heq
      rw [hstates, Function.update_self, hold]
      exact h
    · rw [hne w heq]
      exact .same _
  · by_cases heq : w = txn
    · subst heq
      exact hself
    · exact Or.inl ⟨hne w heq, hother w heq⟩

/-- A call that closes one entry. -/
theorem ofClosed {old new : Option TxnState} (hold : s.mgr.states txn = old)
    (hclosed : Closed new) (hclock : s.mgr.clock ≤ m.clock)
    (hstates : m.states = Function.update s.mgr.states txn new)
    (hother : ∀ w, w ≠ txn → m.snapshots w = s.mgr.snapshots w)
    (h : EntryStep s a m.clock txn old new) : TableStep s a m := by
  refine ofUpdate hold hclock hstates hother (Or.inr (Or.inr ?_)) h
  rw [hstates, Function.update_self]
  exact hclosed

theorem beginCommit {c : Nat} (hm : s.mgr.beginCommit txn = some (m, c)) :
    TableStep s a m := by
  unfold TransactionManager.beginCommit at hm
  split at hm
  · next p hst =>
      cases hm
      refine ofUpdate hst (Nat.le_succ _) rfl
        (fun w hw => TransactionManager.setActive_snapshots_of_ne _ _ _ _ _ hw)
        (Or.inr (Or.inl ?_)) (.beginCommit p (Nat.lt_succ_self _))
      simp [TransactionManager.setActive, TransactionManager.isTransactionActive,
        TxnState.isActive]
  · cases hm

theorem finishCommit (s : Retention κ δ) (txn : Nat) (logged : Bool) :
    TableStep s (.finishCommit txn logged) (s.mgr.finishCommit txn logged) := by
  unfold TransactionManager.finishCommit
  split
  · next c p hst =>
      have hother := fun w hw => s.mgr.setActive_snapshots_of_ne txn w (!logged) logged hw
      cases logged with
      | true =>
        exact ofClosed hst (by simp [Closed]) (Nat.le_refl _) rfl hother (.logged c p rfl)
      | false =>
        refine ofUpdate hst (Nat.le_refl _) rfl hother (Or.inr (Or.inl ?_)) (.failed c p rfl)
        simp [TransactionManager.setActive, TransactionManager.isTransactionActive,
          TxnState.isActive]
  · exact refl s _

theorem commit (hread : ¬ s.versions.hasWrites txn = true)
    (hm : s.mgr.nextLsn.1.commit txn s.mgr.nextLsn.2 = some m) : TableStep s a m := by
  unfold TransactionManager.commit at hm
  split at hm
  · next p hst =>
      cases hm
      exact ofClosed hst (by simp [Closed]) (Nat.le_succ _) rfl
        (fun w hw => TransactionManager.setActive_snapshots_of_ne _ _ _ _ _ hw)
        (.commitReadOnly p (Bool.eq_false_iff.mpr hread) (Nat.lt_succ_self _))
  · cases hm

theorem abort (hm : s.mgr.abort txn = some m) : TableStep s a m := by
  unfold TransactionManager.abort at hm
  split at hm
  · next p hst =>
      cases hm
      exact ofClosed hst (by simp [Closed]) (Nat.le_refl _) rfl
        (fun w hw => TransactionManager.setActive_snapshots_of_ne _ _ _ _ _ hw) (.abort p)
  · cases hm

theorem endReadOnly (hread : ¬ s.versions.hasWrites txn = true)
    (hm : s.mgr.endReadOnly txn = some m) : TableStep s a m := by
  unfold TransactionManager.endReadOnly at hm
  split at hm
  · next p hst =>
      cases hm
      exact ofClosed hst (by simp [Closed]) (Nat.le_refl _) rfl
        (fun w hw => TransactionManager.setActive_snapshots_of_ne _ _ _ _ _ hw)
        (.endReadOnly p (Bool.eq_false_iff.mpr hread))
  · cases hm

theorem abortComplete {st : TxnState} (wrote : Bool) (hst : s.mgr.states txn = some st)
    (hkind : st = .aborting ∨ ∃ b, st = .aborted b) :
    TableStep s a (s.mgr.abortComplete txn wrote).1 := by
  unfold TransactionManager.abortComplete
  dsimp only
  split
  · exact ofClosed hst (by simp [Closed]) (Nat.le_refl _) rfl (fun _ _ => rfl)
      (.aborted st _ hkind)
  · exact ofClosed hst (by simp [Closed]) (Nat.le_refl _) rfl
      (fun w hw => TransactionManager.setActive_snapshots_of_ne _ _ _ _ _ hw)
      (.forgotten st hkind)

theorem pruneCommitted (s : Retention κ δ) :
    TableStep s .pruneCommitted s.mgr.pruneCommitted.1 := by
  have hcases : ∀ w, s.mgr.pruneCommitted.1.states w = s.mgr.states w ∨
      s.mgr.pruneCommitted.1.states w = none ∧ ∃ st, s.mgr.states w = some st ∧
        TransactionManager.keptByPrune s.mgr.oldestActive st = false := by
    intro w
    simp only [TransactionManager.pruneCommitted]
    cases hst : s.mgr.states w with
    | none => exact Or.inl rfl
    | some st =>
      cases hk : TransactionManager.keptByPrune s.mgr.oldestActive st with
      | true => exact Or.inl (by simp [hk])
      | false => exact Or.inr ⟨by simp [hk], st, rfl, hk⟩
  refine ⟨Nat.le_refl _, fun w => ?_, fun w => ?_⟩
  · rcases hcases w with heq | ⟨hnone, st, hst, hk⟩
    · rw [heq]
      exact .same _
    · rw [hnone, hst]
      cases st with
      | committed c => exact .pruned c rfl hk
      | aborted b => exact .forgotten _ (Or.inr ⟨b, rfl⟩)
      | active p => cases hk
      | aborting => cases hk
      | committing c p => cases hk
  · rcases hcases w with heq | ⟨hnone, -⟩
    · exact Or.inl ⟨heq, rfl⟩
    · exact Or.inr (Or.inr (by simp [Closed, hnone]))

end TableStep

theorem finishCommit_mgr (s : Retention κ δ) (txn : Nat) (logged : Bool) :
    (s.finishCommit txn logged).mgr = s.mgr.finishCommit txn logged := by
  unfold finishCommit
  split
  · rfl
  · rfl

/-- Every step but `begin` is one of these. -/
theorem step_table (s : Retention κ δ) (a : RetentionAction κ δ)
    (hb : ∀ policy, a ≠ .begin policy) : TableStep s a (step s a).mgr := by
  cases a with
  | begin policy => exact absurd rfl (hb policy)
  | write op =>
    simp only [step, write]
    split
    · exact .refl s _
    · split
      · exact .nextLsn s _
      · exact .refl s _
  | beginCommit txn =>
    simp only [step, beginCommit]
    split
    · split
      · next hm => exact .beginCommit hm
      · exact .refl s _
    · exact .refl s _
  | finishCommit txn logged =>
    simp only [step, finishCommit_mgr]
    exact .finishCommit s txn logged
  | markCommitted txn =>
    simp only [step, markCommitted]
    split
    · exact .refl s _
    · exact .refl s _
  | commitReadOnly txn =>
    simp only [step, commitReadOnly]
    split
    · exact .refl s _
    · next hread =>
        split
        · next hm => exact .commit hread hm
        · exact .nextLsn s _
  | abort txn =>
    simp only [step]
    split
    · next hm => exact .abort hm
    · exact .refl s _
  | abortComplete txn =>
    simp only [step, abortComplete]
    split
    · next hst => exact .abortComplete _ hst (Or.inl rfl)
    · next b hst => exact .abortComplete _ hst (Or.inr ⟨b, rfl⟩)
    · exact .refl s _
  | endReadOnly txn =>
    simp only [step]
    split
    · exact .refl s _
    · next hread =>
        split
        · next hm => exact .endReadOnly hread hm
        · exact .refl s _
  | discard txn =>
    simp only [step]
    split
    · exact .refl s _
    · exact .refl s _
  | pruneCommitted => exact .pruneCommitted s
  | vacuum => exact .refl s _

/-! ## The invariant -/

/-- A transaction that reads, or may read again, has its snapshot. -/
structure HasSnapshot (m : TransactionManager) (w : Nat) : Prop where
  active : ∀ p, m.states w = some (.active p) →
    ∃ sn, m.snapshots w = some sn ∧ sn.active = true
  committing : ∀ c p, m.states w = some (.committing c p) → ∃ sn, m.snapshots w = some sn

/-- What ties the table, the version store and the history together. -/
structure Inv (s : Retention κ δ) : Prop where
  idLt : ∀ w, s.mgr.states w ≠ none → w < s.mgr.clock
  snapshot : ∀ w, HasSnapshot s.mgr w
  wroteLt : ∀ w, s.wrote w = true → w < s.mgr.clock
  /-- Ids and timestamps come from one counter. -/
  stamp : ∀ w c, (s.mgr.states w = some (.committed c) ∨
      ∃ p, s.mgr.states w = some (.committing c p)) →
    c < s.mgr.clock ∧ ∀ r, s.mgr.states r ≠ none → c ≠ r
  openTs : ∀ w st, s.mgr.states w = some st → (∀ c, st ≠ .committed c) → s.committedAt w = none
  committedTs : ∀ w c, s.wrote w = true → s.mgr.states w = some (.committed c) →
    s.committedAt w = some c
  committedLt : ∀ w c, s.committedAt w = some c → w < s.mgr.clock
  hasWrites : ∀ w, s.versions.hasWrites w = true → s.wrote w = true
  /-- The writes of a transaction in the table are registered until it has
  committed. -/
  registered : ∀ w, s.wrote w = true → s.committedAt w = none → s.mgr.states w ≠ none →
    s.versions.hasWrites w = true
  marking : ∀ e ∈ s.marking, s.committedAt e.1 = some e.2
  queue : ∀ e ∈ s.versions.committed, s.committedAt e.2.1 = some e.1
  discarding : ∀ w ∈ s.discarding, w < s.mgr.clock ∧ s.Lost w
  /-- A pre-image belongs to one writer. -/
  owner : ∀ w lsn, .replaced lsn ∈ s.versions.writtenBy w →
    lsn < s.mgr.clock ∧ (s.versions.find lsn).isSome = true ∧
      ∀ w', .replaced lsn ∈ s.versions.writtenBy w' → w' = w

theorem inv_init : Inv (init : Retention κ δ) where
  idLt w hw := absurd rfl hw
  snapshot w := ⟨(fun _ hw => nomatch hw), (fun _ _ hw => nomatch hw)⟩
  wroteLt w hw := nomatch hw
  stamp w c hw := by simp [init, TransactionManager.new] at hw
  openTs w st hw := nomatch hw
  committedTs w c hw := nomatch hw
  committedLt w c hw := nomatch hw
  hasWrites w hw := nomatch hw
  registered w hw := nomatch hw
  marking e he := nomatch he
  queue e he := nomatch he
  discarding w hw := nomatch hw
  owner w lsn hw := nomatch hw

theorem HasSnapshot.table {s : Retention κ δ} {a : RetentionAction κ δ}
    {m : TransactionManager} {w : Nat} (h : HasSnapshot s.mgr w) (hstep : TableStep s a m) :
    HasSnapshot m w := by
  -- an entry that may read was one already
  have hold : ¬ Closed (m.states w) → ∃ sn, s.mgr.snapshots w = some sn := by
    intro hopen
    have he := hstep.entry w
    generalize hst : s.mgr.states w = old at he
    generalize m.states w = new at he hopen
    cases he with
    | same =>
      rw [Closed, not_and_or] at hopen
      push Not at hopen
      rcases hopen with ⟨p, hp⟩ | ⟨c, p, hp⟩
      · obtain ⟨sn, hsn, -⟩ := h.active p (hst.trans hp)
        exact ⟨sn, hsn⟩
      · exact h.committing c p (hst.trans hp)
    | beginCommit p =>
      obtain ⟨sn, hsn, -⟩ := h.active p hst
      exact ⟨sn, hsn⟩
    | failed c p => exact h.committing c p hst
    | logged c p => exact absurd (by simp [Closed]) hopen
    | commitReadOnly p => exact absurd (by simp [Closed]) hopen
    | endReadOnly p => exact absurd (by simp [Closed]) hopen
    | abort p => exact absurd (by simp [Closed]) hopen
    | aborted st a => exact absurd (by simp [Closed]) hopen
    | forgotten st => exact absurd (by simp [Closed]) hopen
    | pruned c => exact absurd (by simp [Closed]) hopen
  constructor
  · intro p hp
    rcases hstep.snapshot w with ⟨hsame, hsn⟩ | hsn | hclosed
    · rw [hsn]
      exact h.active p (hsame ▸ hp)
    · obtain ⟨sn, hsome⟩ := hold fun hclosed => hclosed.1 p hp
      rw [hsn, hsome]
      exact ⟨_, rfl, (m.isTransactionActive_iff w).mpr ⟨p, hp⟩⟩
    · exact absurd hp (hclosed.1 p)
  · intro c p hp
    rcases hstep.snapshot w with ⟨hsame, hsn⟩ | hsn | hclosed
    · rw [hsn]
      exact h.committing c p (hsame ▸ hp)
    · obtain ⟨sn, hsome⟩ := hold fun hclosed => hclosed.2 c p hp
      rw [hsn, hsome]
      exact ⟨_, rfl⟩
    · exact absurd hp (hclosed.2 c p)

namespace Inv

variable {s : Retention κ δ}

/-- A call on the table that begins no transaction; a commit that is finished
gets its timestamp. -/
theorem table (h : Inv s) {a : RetentionAction κ δ} {m : TransactionManager}
    {at' : Nat → Option Nat} (hstep : TableStep s a m)
    (hat : ∀ w, (at' w = s.committedAt w ∧
        ∀ c, m.states w = some (.committed c) → ∀ p, s.mgr.states w ≠ some (.committing c p)) ∨
      ∃ c p, s.mgr.states w = some (.committing c p) ∧ m.states w = some (.committed c) ∧
        at' w = some c) :
    Inv { s with mgr := m, committedAt := at' } := by
  have hlive : ∀ w, m.states w ≠ none → s.mgr.states w ≠ none := by
    intro w hw
    have he := hstep.entry w
    cases hst : s.mgr.states w with
    | some st => simp
    | none =>
      rw [hst] at he
      generalize hnew : m.states w = new at he
      cases he
      exact absurd hnew hw
  have hsame : ∀ w, s.mgr.states w = none → at' w = s.committedAt w := by
    intro w hw
    rcases hat w with ⟨heq, -⟩ | ⟨c, p, hst, -, -⟩
    · exact heq
    · rw [hw] at hst
      cases hst
  have hkeep : ∀ w c, s.committedAt w = some c → at' w = some c := by
    intro w c hc
    rcases hat w with ⟨heq, -⟩ | ⟨c', p, hst, -, -⟩
    · exact heq.trans hc
    · have hnone := h.openTs w _ hst (by simp)
      rw [hnone] at hc
      cases hc
  refine
    { idLt := fun w hw => Nat.lt_of_lt_of_le (h.idLt w (hlive w hw)) hstep.clock
      snapshot := fun w => (h.snapshot w).table hstep
      wroteLt := fun w hw => Nat.lt_of_lt_of_le (h.wroteLt w hw) hstep.clock
      stamp := ?_
      openTs := ?_
      committedTs := ?_
      committedLt := ?_
      hasWrites := h.hasWrites
      registered := ?_
      marking := fun e he => hkeep _ _ (h.marking e he)
      queue := fun e he => hkeep _ _ (h.queue e he)
      discarding := ?_
      owner := fun w lsn hw => ?_ }
  · intro w c hc
    -- an old timestamp, or the clock's value
    have hold : (c < s.mgr.clock ∧ ∀ r, s.mgr.states r ≠ none → c ≠ r) ∨
        (c = s.mgr.clock ∧ c < m.clock) := by
      have he := hstep.entry w
      generalize hst : s.mgr.states w = old at he
      dsimp only at hc
      generalize hnew : m.states w = new at he hc
      cases he with
      | same => exact Or.inl (h.stamp w c (by rw [hst]; exact hc))
      | beginCommit p hlt =>
        rcases hc with hc | ⟨q, hc⟩
        · cases hc
        · cases hc
          exact Or.inr ⟨rfl, hlt⟩
      | logged c' p =>
        rcases hc with hc | ⟨q, hc⟩
        · cases hc
          exact Or.inl (h.stamp w c (Or.inr ⟨p, hst⟩))
        · cases hc
      | failed c' p => rcases hc with hc | ⟨q, hc⟩ <;> cases hc
      | commitReadOnly p _ hlt =>
        rcases hc with hc | ⟨q, hc⟩
        · cases hc
          exact Or.inr ⟨rfl, hlt⟩
        · cases hc
      | endReadOnly p => rcases hc with hc | ⟨q, hc⟩ <;> cases hc
      | abort p => rcases hc with hc | ⟨q, hc⟩ <;> cases hc
      | aborted st a => rcases hc with hc | ⟨q, hc⟩ <;> cases hc
      | forgotten st => rcases hc with hc | ⟨q, hc⟩ <;> cases hc
      | pruned c' => rcases hc with hc | ⟨q, hc⟩ <;> cases hc
    rcases hold with ⟨hlt, hne⟩ | ⟨rfl, hlt⟩
    · exact ⟨Nat.lt_of_lt_of_le hlt hstep.clock, fun r hr => hne r (hlive r hr)⟩
    · exact ⟨hlt, fun r hr => (Nat.ne_of_lt (h.idLt r (hlive r hr))).symm⟩
  · intro w st hst hopen
    dsimp only at hst ⊢
    rcases hat w with ⟨heq, -⟩ | ⟨c, p, -, hnew, -⟩
    · rw [heq]
      have he := hstep.entry w
      rw [hst] at he
      generalize hold : s.mgr.states w = old at he
      cases he with
      | same => exact h.openTs w st hold hopen
      | beginCommit p => exact h.openTs w _ hold (by simp)
      | logged c p => exact absurd rfl (hopen c)
      | failed c p => exact h.openTs w _ hold (by simp)
      | commitReadOnly p => exact absurd rfl (hopen _)
      | abort p => exact h.openTs w _ hold (by simp)
      | aborted st' a hkind =>
        refine h.openTs w st' hold fun c => ?_
        rcases hkind with rfl | ⟨b, rfl⟩ <;> simp
    · rw [hnew] at hst
      cases hst
      exact absurd rfl (hopen c)
  · intro w c hw hst
    dsimp only at hst ⊢
    rcases hat w with ⟨heq, hnot⟩ | ⟨c', p, -, hnew, hc⟩
    · rw [heq]
      have he := hstep.entry w
      have hnot := hnot c hst
      rw [hst] at he
      generalize hold : s.mgr.states w = old at he
      cases he with
      | same => exact h.committedTs w c hw hold
      | logged c' p => exact absurd hold (hnot p)
      | commitReadOnly p hread =>
        have hreg := h.registered w hw (h.openTs w _ hold (by simp)) (by simp [hold])
        rw [hread] at hreg
        cases hreg
    · rw [hst] at hnew
      cases hnew
      exact hc
  · intro w c hc
    rcases hat w with ⟨heq, -⟩ | ⟨c', p, hst, -, -⟩
    · exact Nat.lt_of_lt_of_le (h.committedLt w c (heq.symm.trans hc)) hstep.clock
    · exact Nat.lt_of_lt_of_le (h.idLt w (by simp [hst])) hstep.clock
  · intro w hw hnone hst
    dsimp only at hnone
    refine h.registered w hw ?_ (hlive w hst)
    cases hc : s.committedAt w with
    | none => rfl
    | some c =>
      rw [hkeep w c hc] at hnone
      cases hnone
  · intro w hw
    obtain ⟨hlt, hgone, hnone⟩ := h.discarding w hw
    refine ⟨Nat.lt_of_lt_of_le hlt hstep.clock, ?_, (hsame w hgone).trans hnone⟩
    by_contra hne
    exact hlive w hne hgone
  · obtain ⟨hlt, hsome, howner⟩ := h.owner w lsn hw
    exact ⟨Nat.lt_of_lt_of_le hlt hstep.clock, hsome, howner⟩

/-- A call on the table that finishes no commit. -/
theorem tableOnly (h : Inv s) {a : RetentionAction κ δ} {m : TransactionManager}
    (hstep : TableStep s a m) (ha : ∀ txn, a ≠ .finishCommit txn true) :
    Inv { s with mgr := m } := by
  refine h.table hstep fun w => Or.inl ⟨rfl, fun c hnew p hold => ?_⟩
  have he := hstep.entry w
  rw [hold, hnew] at he
  cases he with
  | logged _ _ heq => exact ha w heq

theorem begin (h : Inv s) (policy : ConflictPolicy) :
    Inv { s with mgr := (s.mgr.createTransaction policy).1 } := by
  have hfresh : s.mgr.states s.mgr.clock = none := by
    by_contra hne
    exact absurd (h.idLt _ hne) (Nat.lt_irrefl _)
  have hunwritten : s.wrote s.mgr.clock = false := by
    cases hw : s.wrote s.mgr.clock with
    | false => rfl
    | true => exact absurd (h.wroteLt _ hw) (Nat.lt_irrefl _)
  have hne : ∀ w, w ≠ s.mgr.clock →
      (s.mgr.createTransaction policy).1.states w = s.mgr.states w := by
    intro w hw
    simp [TransactionManager.createTransaction, hw]
  have hnew : (s.mgr.createTransaction policy).1.states s.mgr.clock =
      some (.active policy) := by
    simp [TransactionManager.createTransaction]
  have hclock : (s.mgr.createTransaction policy).1.clock = s.mgr.clock + 1 := rfl
  -- an entry that is not the new one was there
  have hold : ∀ w st, st ≠ .active policy →
      (s.mgr.createTransaction policy).1.states w = some st → s.mgr.states w = some st := by
    intro w st hst hw
    by_cases heq : w = s.mgr.clock
    · subst heq
      rw [hnew] at hw
      exact absurd (Option.some.inj hw).symm hst
    · rwa [hne w heq] at hw
  refine { h with
    idLt := ?_
    snapshot := ?_
    wroteLt := fun w hw => Nat.lt_succ_of_lt (h.wroteLt w hw)
    stamp := ?_
    openTs := ?_
    committedTs := fun w c hw hst => h.committedTs w c hw (hold w _ (by simp) hst)
    committedLt := fun w c hc => Nat.lt_succ_of_lt (h.committedLt w c hc)
    registered := ?_
    discarding := ?_
    owner := ?_ }
  · intro w hw
    dsimp only at hw ⊢
    by_cases heq : w = s.mgr.clock
    · omega
    · rw [hne w heq] at hw
      exact Nat.lt_succ_of_lt (h.idLt w hw)
  · intro w
    by_cases heq : w = s.mgr.clock
    · subst heq
      refine ⟨fun p _ => ⟨_, Function.update_self _ _ _, rfl⟩, fun c p hp => ?_⟩
      rw [hnew] at hp
      cases hp
    · have hsn : (s.mgr.createTransaction policy).1.snapshots w = s.mgr.snapshots w :=
        Function.update_of_ne heq _ _
      constructor
      · intro p hp
        rw [hne w heq] at hp
        rw [hsn]
        exact (h.snapshot w).active p hp
      · intro c p hp
        rw [hne w heq] at hp
        rw [hsn]
        exact (h.snapshot w).committing c p hp
  · intro w c hc
    have hc' : s.mgr.states w = some (.committed c) ∨
        ∃ p, s.mgr.states w = some (.committing c p) := by
      rcases hc with hc | ⟨p, hc⟩
      · exact Or.inl (hold w _ (by simp) hc)
      · exact Or.inr ⟨p, hold w _ (by simp) hc⟩
    obtain ⟨hlt, hother⟩ := h.stamp w c hc'
    refine ⟨Nat.lt_succ_of_lt hlt, fun r hr => ?_⟩
    dsimp only at hr
    by_cases heq : r = s.mgr.clock
    · omega
    · rw [hne r heq] at hr
      exact hother r hr
  · intro w st hst hopen
    dsimp only at hst ⊢
    by_cases heq : w = s.mgr.clock
    · subst heq
      cases hc : s.committedAt s.mgr.clock with
      | none => rfl
      | some c => exact absurd (h.committedLt _ c hc) (Nat.lt_irrefl _)
    · rw [hne w heq] at hst
      exact h.openTs w st hst hopen
  · intro w hw hnone hst
    dsimp only at hst
    by_cases heq : w = s.mgr.clock
    · subst heq
      rw [hunwritten] at hw
      cases hw
    · rw [hne w heq] at hst
      exact h.registered w hw hnone hst
  · intro w hw
    obtain ⟨hlt, hgone, hnone⟩ := h.discarding w hw
    exact ⟨Nat.lt_succ_of_lt hlt, (hne w (Nat.ne_of_lt hlt)).trans hgone, hnone⟩
  · intro w lsn hw
    obtain ⟨hlt, hsome, howner⟩ := h.owner w lsn hw
    exact ⟨Nat.lt_succ_of_lt hlt, hsome, howner⟩

/-- The records of a transaction that is lost, or committed and no longer in
the queue, may go. -/
theorem discard (h : Inv s) {w : Nat} (hgone : s.mgr.states w = none ∨ s.committedAt w ≠ none) :
    Inv { s with versions := (s.versions.discard w).1 } := by
  have hwritten : ∀ w' lsn, .replaced lsn ∈ (s.versions.discard w).1.writtenBy w' →
      w' ≠ w ∧ .replaced lsn ∈ s.versions.writtenBy w' := by
    intro w' lsn hlsn
    unfold VersionStore.writtenBy at hlsn ⊢
    rw [VersionStore.byTxn_discard] at hlsn
    by_cases heq : w' = w
    · subst heq
      simp at hlsn
    · rw [Function.update_of_ne heq] at hlsn
      exact ⟨heq, hlsn⟩
  have hhas : ∀ w', w' ≠ w →
      (s.versions.discard w).1.hasWrites w' = s.versions.hasWrites w' := by
    intro w' hne
    unfold VersionStore.hasWrites
    rw [VersionStore.byTxn_discard, Function.update_of_ne hne]
  refine { h with
    hasWrites := ?_
    registered := ?_
    queue := by simpa using h.queue
    owner := ?_ }
  · intro w' hw'
    by_cases heq : w' = w
    · subst heq
      simp [VersionStore.hasWrites, VersionStore.byTxn_discard] at hw'
    · exact h.hasWrites w' (hhas w' heq ▸ hw')
  · intro w' hw' hnone hst
    by_cases heq : w' = w
    · subst heq
      rcases hgone with hgone | hgone
      · exact absurd hgone hst
      · exact absurd hnone hgone
    · exact (hhas w' heq).trans (h.registered w' hw' hnone hst)
  · intro w' lsn hlsn
    obtain ⟨hne, hlsn'⟩ := hwritten w' lsn hlsn
    obtain ⟨hlt, hsome, howner⟩ := h.owner w' lsn hlsn'
    refine ⟨hlt, ?_, fun w'' hw'' => howner w'' (hwritten w'' lsn hw'').2⟩
    have hnot : ¬ lsn ∈ replacedLsns (s.versions.writtenBy w) := by
      rw [VersionStore.mem_replacedLsns]
      exact fun hmem => hne (howner w hmem).symm
    rw [VersionStore.find_discard, if_neg hnot]
    exact hsome

/-- Who has a pre-image has written. -/
theorem wrote_of_mem (h : Inv s) {w lsn : Nat} (hlsn : .replaced lsn ∈ s.versions.writtenBy w) :
    s.wrote w = true := by
  refine h.hasWrites w ?_
  cases hby : s.versions.byTxn w with
  | none => simp [VersionStore.writtenBy, hby] at hlsn
  | some written => simp [VersionStore.hasWrites, hby]

/-- Only the write logs, the pre-images and the queue of the version store
matter. -/
theorem congrVersions (h : Inv s) {v : VersionStore κ δ} (hby : v.byTxn = s.versions.byTxn)
    (hpre : v.preImages = s.versions.preImages)
    (hqueue : ∀ e ∈ v.committed, s.committedAt e.2.1 = some e.1) :
    Inv { s with versions := v } := by
  have hwritten : v.writtenBy = s.versions.writtenBy := by
    funext w
    unfold VersionStore.writtenBy
    rw [hby]
  have hhas : v.hasWrites = s.versions.hasWrites := by
    funext w
    unfold VersionStore.hasWrites
    rw [hby]
  have hfind : v.find = s.versions.find := by
    funext lsn
    unfold VersionStore.find
    rw [hpre]
  exact { h with
    hasWrites := by
      dsimp only
      rw [hhas]
      exact h.hasWrites
    registered := by
      dsimp only
      rw [hhas]
      exact h.registered
    queue := hqueue
    owner := by
      dsimp only
      rw [hwritten, hfind]
      exact h.owner }

theorem forgetAll (h : Inv s) (es : List (Nat × Nat × Nat))
    (hes : ∀ e ∈ es, s.committedAt e.2.1 ≠ none) :
    Inv { s with versions := (s.versions.forgetAll es).1 } := by
  induction es generalizing s with
  | nil => exact h
  | cons e es ih =>
    have hdiscard : Inv { s with versions := (s.versions.discard e.2.1).1 } :=
      h.discard (Or.inr (hes e List.mem_cons_self))
    have hforget : Inv { s with versions := s.versions.forget e } :=
      hdiscard.congrVersions rfl rfl hdiscard.queue
    exact ih hforget fun e' he' => hes e' (List.mem_cons_of_mem _ he')

theorem vacuum (h : Inv s) (horizon : Option Nat) :
    Inv { s with versions := (s.versions.vacuum horizon).1 } := by
  unfold VersionStore.vacuum
  have hkept := h.congrVersions rfl rfl
    (v := { s.versions with
      committed := s.versions.committed.filter fun e => !VersionStore.reclaimable horizon e.1
      tombstones := s.versions.tombstones.filter fun t =>
        !VersionStore.reclaimable horizon t.commitTs })
    fun e he => h.queue e (List.mem_filter.mp he).1
  refine hkept.forgetAll (s.versions.committed.filter fun e =>
    VersionStore.reclaimable horizon e.1) fun e he => ?_
  have hts := h.queue e (List.mem_filter.mp he).1
  simp [hts]

theorem markCommitted (h : Inv s) (txn : Nat) : Inv (s.markCommitted txn) := by
  unfold Retention.markCommitted
  split
  · next e he =>
      have hts := h.marking e (List.mem_of_find?_eq_some he)
      have hhas : ∀ w, s.committedAt w = none →
          (s.versions.markCommitted e.1 e.2).hasWrites w = s.versions.hasWrites w := by
        intro w hw
        have hne : w ≠ e.1 := by
          rintro rfl
          rw [hts] at hw
          cases hw
        unfold VersionStore.hasWrites
        rw [VersionStore.byTxn_markCommitted_of_ne _ _ _ hne]
      refine { h with
        hasWrites := fun w hw => h.hasWrites w (VersionStore.hasWrites_of_markCommitted _ _ _ hw)
        registered := fun w hw hnone hst => (hhas w hnone).trans (h.registered w hw hnone hst)
        marking := fun e' he' => h.marking e' (List.mem_of_mem_erase he')
        queue := ?_
        owner := ?_ }
      · intro e' he'
        rcases VersionStore.mem_committed_markCommitted _ _ _ he' with he' | ⟨hc, ht⟩
        · exact h.queue e' he'
        · rw [hc, ht]
          exact hts
      · intro w lsn hw
        obtain ⟨hlt, hsome, howner⟩ :=
          h.owner w lsn (VersionStore.replaced_mem_markCommitted _ _ _ _ hw)
        refine ⟨hlt, ?_, fun w' hw' =>
          howner w' (VersionStore.replaced_mem_markCommitted _ _ _ _ hw')⟩
        rw [VersionStore.find_markCommitted]
        exact hsome
  · exact h

/-- What a write registers: an entry for its transaction, and under its LSN at
most a pre-image. -/
theorem insert_spec (v : VersionStore κ δ) (lsn : Nat) {op : Operation κ δ} {txn : Nat}
    (hop : op.writer = some txn) :
    (∃ e, (e = .replaced lsn ∨ e.lsn? = none) ∧
      (v.insert lsn op).byTxn = Function.update v.byTxn txn (some (v.writtenBy txn ++ [e])) ∧
      (e = .replaced lsn → ((v.insert lsn op).find lsn).isSome = true)) ∧
      (v.insert lsn op).committed = v.committed ∧
      ∀ l, l ≠ lsn → (v.insert lsn op).find l = v.find l := by
  have hkeep : ∀ pre deleted l, l ≠ lsn → (v.keepPreImage lsn pre deleted).find l = v.find l := by
    intro pre deleted l hl
    rw [VersionStore.find_keepPreImage, Function.update_of_ne hl]
  have hhave : ∀ pre deleted, ((v.keepPreImage lsn pre deleted).find lsn).isSome = true := by
    intro pre deleted
    rw [VersionStore.find_keepPreImage, Function.update_self]
    rfl
  cases op with
  | add t post =>
    cases hop
    exact ⟨⟨.inserted post.id, Or.inr rfl, rfl, nofun⟩, rfl, fun _ _ => rfl⟩
  | mod t pre post =>
    cases hop
    exact ⟨⟨.replaced lsn, Or.inl rfl, rfl, fun _ => hhave pre false⟩, rfl, hkeep pre false⟩
  | del t pre =>
    cases hop
    exact ⟨⟨.replaced lsn, Or.inl rfl, rfl, fun _ => hhave pre true⟩, rfl, hkeep pre true⟩
  | commit t => cases hop
  | rollback t => cases hop
  | purge t key => cases hop

theorem write (h : Inv s) (op : Operation κ δ) : Inv (s.write op) := by
  unfold Retention.write
  split
  · exact h
  · next txn hop =>
      split
      · next hact =>
          obtain ⟨p, hp⟩ := (s.mgr.isTransactionActive_iff txn).mp hact
          obtain ⟨⟨e, hkind, hby, hsome⟩, hqueue, hfind⟩ :=
            insert_spec s.versions s.mgr.nextLsn.2 hop
          have hlive : s.mgr.states txn ≠ none := by simp [hp]
          have hlsn : s.mgr.nextLsn.2 = s.mgr.clock := rfl
          -- the entries of a write log afterwards
          have hmem : ∀ w lsn,
              .replaced lsn ∈ (s.versions.insert s.mgr.nextLsn.2 op).writtenBy w →
              .replaced lsn ∈ s.versions.writtenBy w ∨
                (w = txn ∧ lsn = s.mgr.clock ∧ e = .replaced s.mgr.clock) := by
            intro w lsn hw
            unfold VersionStore.writtenBy at hw
            rw [hby] at hw
            by_cases heq : w = txn
            · subst heq
              rw [Function.update_self, Option.getD_some, List.mem_append,
                List.mem_singleton] at hw
              rcases hw with hw | rfl
              · exact Or.inl hw
              · rcases hkind with hkind | hkind
                · have hclock : lsn = s.mgr.clock := by injection hkind
                  exact Or.inr ⟨rfl, hclock, hkind⟩
                · nomatch hkind
            · rw [Function.update_of_ne heq] at hw
              exact Or.inl hw
          have hhas : ∀ w, (s.versions.insert s.mgr.nextLsn.2 op).hasWrites w = true ↔
              s.versions.hasWrites w = true ∨ w = txn := by
            intro w
            unfold VersionStore.hasWrites
            rw [hby]
            by_cases heq : w = txn
            · simp [heq]
            · simp [heq]
          have hwrote : ∀ w, Function.update s.wrote txn true w = true ↔
              s.wrote w = true ∨ w = txn := by
            intro w
            by_cases heq : w = txn
            · simp [heq]
            · simp [heq]
          have hnext := h.tableOnly (.nextLsn s (.write op)) (by simp)
          refine { hnext with
            wroteLt := ?_
            committedTs := ?_
            hasWrites := ?_
            registered := ?_
            queue := ?_
            owner := ?_ }
          · intro w hw
            rcases (hwrote w).mp hw with hw | rfl
            · exact hnext.wroteLt w hw
            · exact hnext.idLt w hlive
          · intro w c hw hst
            rcases (hwrote w).mp hw with hw | rfl
            · exact h.committedTs w c hw hst
            · rw [show s.mgr.nextLsn.1.states w = s.mgr.states w from rfl, hp] at hst
              cases hst
          · intro w hw
            exact (hwrote w).mpr (((hhas w).mp hw).imp_left (h.hasWrites w))
          · intro w hw hnone hst
            refine (hhas w).mpr (((hwrote w).mp hw).imp_left fun hw => ?_)
            exact h.registered w hw hnone hst
          · dsimp only
            rw [hqueue]
            exact h.queue
          · intro w lsn hw
            have hne : ∀ w' l, .replaced l ∈ s.versions.writtenBy w' → l ≠ s.mgr.clock :=
              fun w' l hl => Nat.ne_of_lt (h.owner w' l hl).1
            rcases hmem w lsn hw with hold | ⟨rfl, rfl, he⟩
            · obtain ⟨hlt, hpre, howner⟩ := h.owner w lsn hold
              refine ⟨Nat.lt_succ_of_lt hlt, ?_, fun w' hw' => ?_⟩
              · dsimp only
                rw [hfind lsn (hne w lsn hold)]
                exact hpre
              · rcases hmem w' lsn hw' with hold' | ⟨-, heq, -⟩
                · exact howner w' hold'
                · exact absurd heq (hne w lsn hold)
            · refine ⟨Nat.lt_succ_self _, hsome he, fun w' hw' => ?_⟩
              rcases hmem w' _ hw' with hold' | ⟨heq, -, -⟩
              · exact absurd rfl (hne w' _ hold')
              · exact heq
      · exact h

/-- More transactions to be discarded, all of them lost. -/
theorem discardMore (h : Inv s) {ws : List Nat}
    (hws : ∀ w ∈ ws, w < s.mgr.clock ∧ s.Lost w) : Inv { s with discarding := ws } :=
  { h with discarding := hws }

theorem finishCommit (h : Inv s) (txn : Nat) (logged : Bool) : Inv (s.finishCommit txn logged) := by
  have htable := TableStep.finishCommit s txn logged
  unfold Retention.finishCommit
  split
  · next c p hst =>
      have hnew : (s.mgr.finishCommit txn true).states =
          Function.update s.mgr.states txn (some (.committed c)) := by
        simp [TransactionManager.finishCommit, hst]
      have hinv : Inv { s with
          mgr := s.mgr.finishCommit txn true
          committedAt := Function.update s.committedAt txn (some c) } := by
        refine h.table htable fun w => ?_
        by_cases heq : w = txn
        · subst heq
          exact Or.inr ⟨c, p, hst, by rw [hnew, Function.update_self], Function.update_self _ _ _⟩
        · refine Or.inl ⟨Function.update_of_ne heq _ _, fun c' hc' p' hp' => ?_⟩
          rw [hnew, Function.update_of_ne heq, hp'] at hc'
          cases hc'
      refine { hinv with marking := fun e he => ?_ }
      rcases List.mem_append.mp he with he | he
      · exact hinv.marking e he
      · rw [List.mem_singleton] at he
        subst he
        exact Function.update_self _ _ _
  · next hnot =>
      refine h.table htable fun w => Or.inl ⟨rfl, fun c hnew p hold => ?_⟩
      have he := htable.entry w
      rw [hold, hnew] at he
      cases he with
      | logged _ _ heq =>
        cases heq
        exact hnot c p hold rfl

theorem abortComplete (h : Inv s) (txn : Nat) : Inv (s.abortComplete txn) := by
  have hend : ∀ st, s.mgr.states txn = some st → (st = .aborting ∨ ∃ b, st = .aborted b) →
      Inv { s with
        mgr := (s.mgr.abortComplete txn (s.versions.hasWrites txn)).1
        discarding :=
          if (s.mgr.abortComplete txn (s.versions.hasWrites txn)).2 then txn :: s.discarding
          else s.discarding } := by
    intro st hst hkind
    have htable : TableStep s (.abortComplete txn) _ :=
      .abortComplete (s.versions.hasWrites txn) hst hkind
    have hinv := h.tableOnly htable (by simp)
    refine hinv.discardMore fun w hw => ?_
    split at hw
    · next hforgot =>
        rcases List.mem_cons.mp hw with rfl | hw
        · have hlt := h.idLt w (by simp [hst])
          refine ⟨Nat.lt_of_lt_of_le hlt htable.clock, ?_, h.openTs w st hst fun c => ?_⟩
          · unfold TransactionManager.abortComplete at hforgot ⊢
            dsimp only at hforgot ⊢
            split at hforgot
            · cases hforgot
            · next hno =>
                rw [if_neg hno]
                exact Function.update_self _ _ _
          · rcases hkind with rfl | ⟨b, rfl⟩ <;> simp
        · exact hinv.discarding w hw
    · exact hinv.discarding w hw
  unfold Retention.abortComplete
  split
  · next hst => exact hend _ hst (Or.inl rfl)
  · next b hst => exact hend _ hst (Or.inr ⟨b, rfl⟩)
  · exact h

theorem pruneCommitted (h : Inv s) : Inv (Retention.step s .pruneCommitted) := by
  have hinv := h.tableOnly (.pruneCommitted s) (by simp)
  refine hinv.discardMore fun w hw => ?_
  rcases List.mem_append.mp hw with hw | hw
  · exact hinv.discarding w hw
  · simp only [TransactionManager.pruneCommitted, List.mem_filter, List.mem_range] at hw
    obtain ⟨hlt, hab⟩ := hw
    cases hst : s.mgr.states w with
    | none => simp [hst] at hab
    | some st =>
      cases st with
      | aborted b =>
        refine ⟨hlt, ?_, h.openTs w _ hst (by simp)⟩
        simp only [hst, Bool.not_eq_true'] at hab
        simp [TransactionManager.pruneCommitted, hst, hab]
      | active p => simp [hst] at hab
      | aborting => simp [hst] at hab
      | committed c => simp [hst] at hab
      | committing c p => simp [hst] at hab

end Inv

theorem inv_step (s : Retention κ δ) (a : RetentionAction κ δ) (h : Inv s) : Inv (step s a) := by
  cases a with
  | begin policy => exact h.begin policy
  | write op => exact h.write op
  | beginCommit txn =>
    simp only [step, beginCommit]
    split
    · split
      · next hm => exact h.tableOnly (a := .beginCommit txn) (.beginCommit hm) (by simp)
      · exact h
    · exact h
  | finishCommit txn logged => exact h.finishCommit txn logged
  | markCommitted txn => exact h.markCommitted txn
  | commitReadOnly txn =>
    simp only [step, commitReadOnly]
    split
    · exact h
    · next hread =>
        split
        · next hm => exact h.tableOnly (a := .commitReadOnly txn) (.commit hread hm) (by simp)
        · exact h.tableOnly (a := .commitReadOnly txn) (.nextLsn s _) (by simp)
  | abort txn =>
    simp only [step]
    split
    · next hm => exact h.tableOnly (a := .abort txn) (.abort hm) (by simp)
    · exact h
  | abortComplete txn => exact h.abortComplete txn
  | endReadOnly txn =>
    simp only [step]
    split
    · exact h
    · next hread =>
        split
        · next hm => exact h.tableOnly (a := .endReadOnly txn) (.endReadOnly hread hm) (by simp)
        · exact h
  | discard txn =>
    simp only [step]
    split
    · next hmem =>
        have hdiscard := h.discard (Or.inl (h.discarding txn hmem).2.1)
        exact hdiscard.discardMore fun w hw => h.discarding w (List.mem_of_mem_erase hw)
    · exact h
  | pruneCommitted => exact h.pruneCommitted
  | vacuum => exact h.vacuum _

theorem inv_of_reachable {s : Retention κ δ} (h : Reachable s) : Inv s :=
  h.invariant inv_init fun s a hs _ => inv_step s a hs

end Retention

end SquealDb.Store
