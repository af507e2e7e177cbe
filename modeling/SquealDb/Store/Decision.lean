import SquealDb.Store.Db
import SquealDb.Store.History

/-!
# What a write decides

`insert`, `update` and `remove` decide under the leaf's lock, each in its own
way, and then do the same: register the write, log it, and put the new version
on the page.  `WriteSpec` says once what they have in common, and `WriteStep`
what any of the three calls can do to the store; nothing after this module
looks into the decisions again.
-/

namespace SquealDb.Store

variable {κ δ : Type*}

/-- What a write by `txn` at `lsn` over the row `current` of `key` records
(`op`) and leaves on the page (`v`). -/
structure WriteSpec (m : TransactionManager) (txn lsn : Nat) (key : κ)
    (current : Option (Tuple κ δ)) (op : Operation κ δ) (v : Tuple κ δ) : Prop where
  writer : op.writer = some txn
  written : op.written lsn = some v
  id : v.id = key
  txnId : v.txnId = some txn
  undo : ∃ u, op.undo = some u ∧ u.key = key ∧ u.target = current
  /-- Either a fresh insert, or a version over one that does not conflict. -/
  replaces : (current = none ∧ v.preLsn = none ∧
      ∀ s : VersionStore κ δ, s.insert lsn op = s.push txn (.inserted key)) ∨
    ∃ c w, current = some c ∧ c.txnId = some w ∧ m.conflicts w txn = false ∧
      v.preLsn = some lsn ∧ ∃ deleted, ∀ s : VersionStore κ δ,
        s.insert lsn op = (s.keepPreImage lsn c deleted).push txn (.replaced lsn)
  /-- Only a remove leaves a tombstone. -/
  tombstone : v.tombstoned = true → ∃ pre, op = .del txn pre

namespace Db

/-- A write of `key` by `txn` meets another's version that conflicts, which takes down a
transaction of its policy. -/
structure TakesDown (db : Db κ δ) (txn : Nat) (key : κ) : Prop where
  policy : db.txMgr.conflictPolicy txn = .abortOnConflict
  conflict : ∃ c w, db.rows key = some c ∧ c.txnId = some w ∧ db.txMgr.conflicts w txn = true

variable [DecidableEq κ]

/-- A write that went through. -/
def write (db : Db κ δ) (lsn : Nat) (key : κ) (op : Operation κ δ)
    (v : Tuple κ δ) : Db κ δ :=
  { db.recordWrite lsn op with rows := Function.update db.rows key (some v) }

variable {db : Db κ δ} {c tuple : Tuple κ δ} {txn : Nat} {key : κ} {current : Option (Tuple κ δ)}
  {d : Decision κ δ}

omit [DecidableEq κ] in
theorem checkWriteConflict_ok (h : db.checkWriteConflict c txn = .ok ()) :
    ∃ w, c.txnId = some w ∧ db.txMgr.conflicts w txn = false := by
  unfold checkWriteConflict at h
  split at h
  · cases h
  · next w hw =>
      split at h
      · cases h
      · next hc => exact ⟨w, hw, by simpa using hc⟩

/-- A writer that does not conflict, other than the caller, has committed. -/
theorem isCommitted_of_not_conflicts {m : TransactionManager} {w : Nat} (hne : w ≠ txn)
    (h : m.conflicts w txn = false) : m.isCommitted w = true := by
  unfold TransactionManager.conflicts at h
  rw [if_neg hne] at h
  unfold TransactionManager.isCommitted
  split at h
  · next hst => simp [hst]
  · next c hst => simp [hst]
  · cases h

omit [DecidableEq κ] in
/-- A row that does not conflict is its own last committed version. -/
theorem replacedVersion_eq (h : db.checkWriteConflict c txn = .ok ()) :
    db.replacedVersion key txn (some c) =
      if c.tombstoned then .error (.keyNotFound key) else .ok c := by
  obtain ⟨w, hw, hnc⟩ := checkWriteConflict_ok h
  have hold : (if c.txnId = some txn then Except.ok (some c)
      else db.findLastCommitted c) = .ok (some c) := by
    split
    · rfl
    · next hne =>
        have hne' : w ≠ txn := by
          rintro rfl
          exact hne hw
        simp [findLastCommitted, walkBack, hw, isCommitted_of_not_conflicts hne' hnc]
  simp only [replacedVersion, h, hold]

omit [DecidableEq κ] in
/-- What an update or remove replaces is the row itself. -/
theorem replacedVersion_ok {old : Tuple κ δ} (h : db.replacedVersion key txn current = .ok old) :
    current = some old ∧ old.tombstoned = false ∧
      ∃ w, old.txnId = some w ∧ db.txMgr.conflicts w txn = false := by
  cases current with
  | none => cases h
  | some c =>
    cases hcheck : db.checkWriteConflict c txn with
    | error e => simp [replacedVersion, hcheck] at h
    | ok u =>
      rw [replacedVersion_eq hcheck] at h
      split at h
      · cases h
      · next ht =>
          cases h
          exact ⟨rfl, by simpa using ht, checkWriteConflict_ok hcheck⟩

theorem insertDecision_spec {db' : Db κ δ} {lsn : Nat}
    (hid : ∀ c, current = some c → c.id = tuple.id)
    (h : db.insertDecision (stamped tuple txn) txn lsn current = .ok (db', d)) :
    ∃ op v, WriteSpec db.txMgr txn lsn tuple.id current op v ∧
      db'.applyDecision tuple.id d = db.write lsn tuple.id op v := by
  cases current with
  | none =>
    cases h
    exact ⟨.add txn (stamped tuple txn), stamped tuple txn,
      ⟨rfl, rfl, rfl, rfl, ⟨_, rfl, rfl, rfl⟩, Or.inl ⟨rfl, rfl, fun _ => rfl⟩, nofun⟩, rfl⟩
  | some c =>
    simp only [insertDecision] at h
    split at h
    · split at h
      · cases h
      · next hcheck =>
          obtain ⟨w, hw, hnc⟩ := checkWriteConflict_ok hcheck
          have hc := hid c rfl
          cases h
          refine ⟨_, _, ?_, rfl⟩
          exact ⟨rfl, rfl, hc, rfl, ⟨.restore c, rfl, hc, rfl⟩,
            Or.inr ⟨c, w, rfl, hw, hnc, rfl, false, fun _ => rfl⟩, nofun⟩
    · cases h

theorem updateDecision_spec {db' : Db κ δ} {lsn : Nat}
    (hid : ∀ c, current = some c → c.id = tuple.id)
    (h : db.updateDecision tuple txn lsn current = .ok (db', d)) :
    ∃ op v, WriteSpec db.txMgr txn lsn tuple.id current op v ∧
      db'.applyDecision tuple.id d = db.write lsn tuple.id op v := by
  unfold updateDecision at h
  split at h
  · cases h
  · next old hold =>
      obtain ⟨rfl, hlive, w, hw, hnc⟩ := replacedVersion_ok hold
      have hc := hid old rfl
      cases h
      refine ⟨_, _, ?_, rfl⟩
      exact ⟨rfl, rfl, hc, rfl, ⟨.restore old, rfl, hc, rfl⟩,
        Or.inr ⟨old, w, rfl, hw, hnc, rfl, false, fun _ => rfl⟩,
        fun htomb => absurd (hlive.symm.trans htomb) nofun⟩

theorem removeDecision_spec {db' : Db κ δ} {lsn : Nat} (hid : ∀ c, current = some c → c.id = key)
    (h : db.removeDecision key txn lsn current = .ok (db', d)) :
    ∃ op v, WriteSpec db.txMgr txn lsn key current op v ∧
      db'.applyDecision key d = db.write lsn key op v := by
  unfold removeDecision at h
  split at h
  · cases h
  · next old hold =>
      obtain ⟨rfl, -, w, hw, hnc⟩ := replacedVersion_ok hold
      have hc := hid old rfl
      cases h
      refine ⟨_, _, ?_, rfl⟩
      exact ⟨rfl, rfl, hc, rfl, ⟨.restore old, rfl, hc, rfl⟩,
        Or.inr ⟨old, w, rfl, hw, hnc, rfl, true, fun _ => rfl⟩, fun _ => ⟨old, rfl⟩⟩

omit [DecidableEq κ] in
theorem checkWriteConflict_conflict {k : κ}
    (h : db.checkWriteConflict c txn = .error (.writeConflict k)) :
    ∃ w, c.txnId = some w ∧ db.txMgr.conflicts w txn = true := by
  unfold checkWriteConflict at h
  split at h
  · cases h
  · next w hw =>
      split at h
      · next hc => exact ⟨w, hw, hc⟩
      · cases h

/-- What a call of `insert`, `update` or `remove` by an active transaction
can do: write, fail and spend an LSN, or fail on a conflict that takes the
transaction down. -/
inductive WriteStep (db : Db κ δ) (txn : Nat) (key : κ) : Db κ δ → Prop
  | wrote {op : Operation κ δ} {v : Tuple κ δ} :
      WriteSpec db.nextLsn.1.txMgr txn db.nextLsn.2 key (db.rows key) op v →
      WriteStep db txn key (db.nextLsn.1.write db.nextLsn.2 key op v)
  | failed : WriteStep db txn key db.nextLsn.1
  | aborted : TakesDown db txn key → WriteStep db txn key (db.nextLsn.1.abort txn none)

omit [DecidableEq κ] in
theorem insertDecision_conflict {lsn : Nat} {k : κ}
    (h : db.insertDecision tuple txn lsn current = .error (.writeConflict k)) :
    ∃ c w, current = some c ∧ c.txnId = some w ∧ db.txMgr.conflicts w txn = true := by
  cases current with
  | none => cases h
  | some c =>
    simp only [insertDecision] at h
    split at h
    · split at h
      · next e he =>
          cases h
          obtain ⟨w, hw, hc⟩ := checkWriteConflict_conflict he
          exact ⟨c, w, rfl, hw, hc⟩
      · cases h
    · cases h

omit [DecidableEq κ] in
theorem replacedVersion_conflict {k : κ}
    (h : db.replacedVersion key txn current = .error (.writeConflict k)) :
    ∃ c w, current = some c ∧ c.txnId = some w ∧ db.txMgr.conflicts w txn = true := by
  cases current with
  | none => cases h
  | some c =>
    cases hcheck : db.checkWriteConflict c txn with
    | error e =>
      simp only [replacedVersion, hcheck] at h
      cases h
      obtain ⟨w, hw, hc⟩ := checkWriteConflict_conflict hcheck
      exact ⟨c, w, rfl, hw, hc⟩
    | ok u =>
      rw [replacedVersion_eq hcheck] at h
      split at h <;> cases h

theorem writeWithPolicy_step
    {decide : Option (Tuple κ δ) → Except (StoreError κ) (Db κ δ × Decision κ δ)}
    (hspec : ∀ db' d, decide (db.rows key) = .ok (db', d) →
      ∃ op v, WriteSpec db.nextLsn.1.txMgr txn db.nextLsn.2 key (db.rows key) op v ∧
        db'.applyDecision key d = db.nextLsn.1.write db.nextLsn.2 key op v)
    (hconf : ∀ k, decide (db.rows key) = .error (.writeConflict k) →
      ∃ c w, db.rows key = some c ∧ c.txnId = some w ∧ db.txMgr.conflicts w txn = true) :
    WriteStep db txn key (db.nextLsn.1.writeWithPolicy key txn decide).1 := by
  unfold writeWithPolicy
  have hrows : db.nextLsn.1.rows key = db.rows key := rfl
  rw [hrows]
  split
  · next db' d hd =>
      obtain ⟨op, v, hw, heq⟩ := hspec db' d hd
      dsimp only
      rw [heq]
      exact WriteStep.wrote hw
  · next e he =>
      cases e with
      | writeConflict k =>
        simp only [afterWrite]
        split
        · next hpolicy => exact WriteStep.aborted ⟨hpolicy, hconf k he⟩
        · exact WriteStep.failed
      | transactionAlreadyFinished => exact WriteStep.failed
      | duplicateKey k => exact WriteStep.failed
      | keyNotFound k => exact WriteStep.failed
      | writeConflictTransactionAborted k => exact WriteStep.failed
      | tupleTooLarge actual budget => exact WriteStep.failed
      | pageCapacityError => exact WriteStep.failed
      | corruption => exact WriteStep.failed
      | unknownError => exact WriteStep.failed

omit [DecidableEq κ] in
theorem requireActive_ok (h : db.requireActive txn = .ok ()) :
    db.txMgr.isTransactionActive txn = true := by
  unfold requireActive at h
  split at h
  · assumption
  · cases h

section Calls

variable {db : Db κ δ} (hid : ∀ key c, db.rows key = some c → c.id = key) (txn : Nat)

include hid

theorem insert_step (tuple : Tuple κ δ) :
    (db.insert txn tuple).1 = db ∨ db.txMgr.isTransactionActive txn = true ∧
      WriteStep db txn tuple.id (db.insert txn tuple).1 := by
  unfold insert
  cases hr : db.requireActive txn with
  | error e => exact Or.inl rfl
  | ok u =>
    refine Or.inr ⟨requireActive_ok hr, writeWithPolicy_step ?_ ?_⟩
    · intro db' d hd
      exact insertDecision_spec (hid tuple.id) hd
    · intro k hk
      obtain ⟨c, w, hcur, hw, hc⟩ := insertDecision_conflict hk
      exact ⟨c, w, hcur, hw, hc⟩

theorem update_step (tuple : Tuple κ δ) :
    (db.update txn tuple).1 = db ∨ db.txMgr.isTransactionActive txn = true ∧
      WriteStep db txn tuple.id (db.update txn tuple).1 := by
  unfold update
  cases hr : db.requireActive txn with
  | error e => exact Or.inl rfl
  | ok u =>
    refine Or.inr ⟨requireActive_ok hr, writeWithPolicy_step ?_ ?_⟩
    · intro db' d hd
      exact updateDecision_spec (hid tuple.id) hd
    · intro k hk
      unfold updateDecision at hk
      split at hk
      · next e he =>
          cases hk
          obtain ⟨c, w, hcur, hw, hc⟩ := replacedVersion_conflict he
          exact ⟨c, w, hcur, hw, hc⟩
      · cases hk

theorem remove_step (key : κ) :
    (db.remove txn key).1 = db ∨ db.txMgr.isTransactionActive txn = true ∧
      WriteStep db txn key (db.remove txn key).1 := by
  unfold remove
  cases hr : db.requireActive txn with
  | error e => exact Or.inl rfl
  | ok u =>
    refine Or.inr ⟨requireActive_ok hr, ?_⟩
    have hstep : WriteStep db txn key (db.nextLsn.1.writeWithPolicy key txn
        (db.nextLsn.1.removeDecision key txn db.nextLsn.2)).1 :=
      writeWithPolicy_step (fun db' d hd => removeDecision_spec (hid key) hd) fun k hk => by
        unfold removeDecision at hk
        split at hk
        · next e he =>
            cases hk
            obtain ⟨c, w, hcur, hw, hc⟩ := replacedVersion_conflict he
            exact ⟨c, w, hcur, hw, hc⟩
        · cases hk
    dsimp only
    split
    · exact hstep
    · exact hstep
    · exact hstep

end Calls

/-! ## What a commit and an abort do -/

/-- A commit leaves a transaction that is not active, logs its record for one that wrote, and
only ends one that did not. -/
inductive CommitStep (db : Db κ δ) (txn : Nat) : Db κ δ → Prop
  | refused : (∀ p, db.txMgr.states txn ≠ some (.active p)) → CommitStep db txn db
  | logged {p : ConflictPolicy} {m : TransactionManager} :
      db.txMgr.states txn = some (.active p) → db.versions.hasWrites txn = true →
      db.txMgr.beginCommit txn = some (m, db.txMgr.clock) →
      (m.finishCommit txn true).clock = db.txMgr.clock + 1 →
      (m.finishCommit txn true).states =
        Function.update db.txMgr.states txn (some (.committed db.txMgr.clock)) →
      CommitStep db txn { db with
        txMgr := m.finishCommit txn true
        versions := db.versions.markCommitted txn db.txMgr.clock
        log := db.log ++ [⟨db.txMgr.clock, .commit txn⟩] }
  | silent {p : ConflictPolicy} {m : TransactionManager} :
      db.txMgr.states txn = some (.active p) → db.versions.hasWrites txn = false →
      db.nextLsn.1.txMgr.commit txn db.txMgr.clock = some m → m.clock = db.txMgr.clock + 1 →
      m.states = Function.update db.txMgr.states txn (some (.committed db.txMgr.clock)) →
      CommitStep db txn { db with txMgr := m }

/-- An abort leaves a transaction that is not active, forgets one that did not write, and
reverts one that did. -/
inductive AbortStep (db : Db κ δ) (txn : Nat) (failsAfter : Option Nat) : Db κ δ → Prop
  | refused : (∀ p, db.txMgr.states txn ≠ some (.active p)) → AbortStep db txn failsAfter db
  | forgotten {p : ConflictPolicy} {m : TransactionManager} :
      db.txMgr.states txn = some (.active p) → db.versions.hasWrites txn = false →
      db.txMgr.endReadOnly txn = some m → m.clock = db.txMgr.clock →
      m.states = Function.update db.txMgr.states txn none →
      AbortStep db txn failsAfter { db with txMgr := m }
  | reverted {p : ConflictPolicy} {m : TransactionManager} :
      db.txMgr.states txn = some (.active p) → db.versions.hasWrites txn = true →
      db.txMgr.abort txn = some m → m.clock = db.txMgr.clock →
      m.states = Function.update db.txMgr.states txn (some .aborting) →
      AbortStep db txn failsAfter ({ db with txMgr := m }.finishAbort txn failsAfter)

omit [DecidableEq κ] in
theorem commit_cases (db : Db κ δ) (txn : Nat) :
    ∃ db', (db.commit txn).1 = db' ∧ CommitStep db txn db' := by
  refine ⟨_, rfl, ?_⟩
  by_cases hactive : ∃ p, db.txMgr.states txn = some (.active p)
  · obtain ⟨p, hp⟩ := hactive
    have hreq : db.requireActive txn = .ok () :=
      if_pos ((db.txMgr.isTransactionActive_iff txn).mpr ⟨p, hp⟩)
    cases hhas : db.versions.hasWrites txn with
    | true =>
      have hbegin : db.txMgr.beginCommit txn =
          some ((db.txMgr.nextLsn.1.setState txn
            (some (.committing db.txMgr.clock p))).setActive txn false false,
            db.txMgr.clock) := by
        simp [TransactionManager.beginCommit, hp]
      simp only [commit, hreq, hhas, if_true, hbegin]
      refine .logged hp hhas hbegin ?_ ?_
      · simp [TransactionManager.finishCommit, TransactionManager.nextLsn, logRecord]
      · simp [TransactionManager.finishCommit, logRecord]
    | false =>
      have hcommit : db.nextLsn.1.txMgr.commit txn db.nextLsn.2 =
          some ((db.nextLsn.1.txMgr.setState txn
            (some (.committed db.nextLsn.2))).setActive txn false true) := by
        simp [TransactionManager.commit, nextLsn, hp]
      simp only [commit, hreq, hhas, Bool.false_eq_true, if_false, hcommit]
      exact .silent hp hhas hcommit rfl rfl
  · have hno : ∀ p, db.txMgr.states txn ≠ some (.active p) := fun p hp => hactive ⟨p, hp⟩
    have hreq : db.requireActive txn = .error .transactionAlreadyFinished :=
      if_neg fun h => hactive ((db.txMgr.isTransactionActive_iff txn).mp h)
    simp only [commit, hreq]
    exact .refused hno

theorem abort_cases (db : Db κ δ) (txn : Nat) (failsAfter : Option Nat) :
    ∃ db', db.abort txn failsAfter = db' ∧ AbortStep db txn failsAfter db' := by
  refine ⟨_, rfl, ?_⟩
  by_cases hactive : ∃ p, db.txMgr.states txn = some (.active p)
  · obtain ⟨p, hp⟩ := hactive
    have hend : db.txMgr.endReadOnly txn =
        some ((db.txMgr.setState txn none).setActive txn false true) := by
      simp [TransactionManager.endReadOnly, hp]
    have habort : db.txMgr.abort txn =
        some ((db.txMgr.setState txn (some .aborting)).setActive txn false true) := by
      simp [TransactionManager.abort, hp]
    cases hhas : db.versions.hasWrites txn with
    | true =>
      simp only [abort, hhas, hend, habort]
      exact .reverted hp hhas habort rfl rfl
    | false =>
      simp only [abort, hhas, hend]
      exact .forgotten hp hhas hend rfl rfl
  · have hno : ∀ p, db.txMgr.states txn ≠ some (.active p) := fun p hp => hactive ⟨p, hp⟩
    have hend : db.txMgr.endReadOnly txn = none := by
      unfold TransactionManager.endReadOnly
      split
      · next p hp => exact absurd hp (hno p)
      · rfl
    have habort : db.txMgr.abort txn = none := by
      unfold TransactionManager.abort
      split
      · next p hp => exact absurd hp (hno p)
      · rfl
    simp only [abort, hend, habort]
    cases db.versions.hasWrites txn with
    | true => exact .refused hno
    | false => exact .refused hno

end Db

end SquealDb.Store
