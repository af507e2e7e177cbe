import SquealDb.Lib.Run
import SquealDb.Store.Writing
import SquealDb.Store.Ending

/-!
# Interleavings of the store

The invariant holds in every state that an interleaving of operations leads
to, and `StepSpec` says, once for all operations, what a step does to the log
and to the readers that are active after it.
-/

namespace SquealDb.Store

open Lib

variable {κ δ : Type*} [DecidableEq κ]

namespace Db

/-- The states that interleavings of operations lead to. -/
def Reachable : Db κ δ → Prop := Lib.Reachable step (fun _ _ => True) new

theorem inv_new : DbInv (new : Db κ δ) := by
  have hstored : ∀ v, ¬ Stored (new : Db κ δ) v := by
    rintro v (⟨key, hk⟩ | ⟨l, hl⟩)
    · cases hk
    · cases hl
  have hfl : ∀ t, ¬ InFlight (new : Db κ δ).txMgr t := by
    rintro t (⟨p, hp⟩ | hp)
    · cases hp
    · cases hp
  have hact : ∀ t p, (new : Db κ δ).txMgr.states t ≠ some (.active p) := fun t p => by
    simp [new, TransactionManager.new]
  constructor
  · exact {
      idLt := fun id hid => absurd rfl hid
      wroteLt := fun id hid => by simp [Wrote, new] at hid
      tsWrote := fun id c hc => by cases hc
      tsBound := fun id c hc => by cases hc
      tsNe := fun id c r hc => by cases hc
      committedTs := fun id c hw => by simp [Wrote, new] at hw
      committingTs := fun id c p hst => by cases hst
      activeTs := fun id p hst => by cases hst
      abortingTs := fun id hst => by cases hst
      abortedTs := fun id a hst => by cases hst
      absentTs := fun id c hst hc => by cases hc
      snapshot := fun r p hr => by cases hr }
  · intro id c p hs
    cases hs
  · intro r hr
    cases hr
  · exact List.Pairwise.nil
  · intro r hr
    cases hr
  · intro key
    refine ⟨[], [], [], Path.nil _, Chain.nil, by simp, rfl, by simp, Or.inl rfl, by simp,
      by simp, ?_, ?_⟩
    · exact fun t p hp => absurd hp (hact t p)
    · intro t v _ hv
      cases hv
  · intro l v hl
    cases hl
  · exact fun v l hv => absurd hv (hstored v)
  · intro t l hl
    cases hl
  · exact fun v l t hv => absurd hv (hstored v)
  · intro l t t' hl
    cases hl
  · intro t ht
    cases ht
  · exact fun t ht => absurd ht (hfl t)
  · exact fun t ht => absurd ht (hfl t)
  · intro t key u rest hu
    cases hu
  · intro e he
    cases he
  · intro t ht
    cases ht
  · intro t ht
    cases ht

theorem inv_writeStep {db db' : Db κ δ} {txn : Nat} {key : κ} (h : DbInv db)
    (hact : db.txMgr.isTransactionActive txn = true) (hstep : WriteStep db txn key db') :
    DbInv db' := by
  obtain ⟨p, hp⟩ := (db.txMgr.isTransactionActive_iff txn).mp hact
  cases hstep with
  | wrote hw => exact h.write hw hp
  | failed => exact h.nextLsn
  | aborted => exact h.nextLsn.abort txn none

theorem inv_step (db : Db κ δ) (a : Action κ δ) (h : DbInv db) : DbInv (db.step a) := by
  have hcall : ∀ db' txn key, (db' = db ∨ db.txMgr.isTransactionActive txn = true ∧
      WriteStep db txn key db') → DbInv db' := by
    rintro db' txn key (rfl | ⟨hact, hstep⟩)
    · exact h
    · exact inv_writeStep h hact hstep
  cases a with
  | begin policy => exact h.begin policy
  | insert txn tuple => exact hcall _ txn _ (insert_step h.row_id txn tuple)
  | update txn tuple => exact hcall _ txn _ (update_step h.row_id txn tuple)
  | remove txn key => exact hcall _ txn _ (remove_step h.row_id txn key)
  | commit txn => exact h.commit txn
  | abort txn failsAfter => exact h.abort txn failsAfter
  | retryAbort txn failsAfter => exact h.retryAbort txn failsAfter
  | pruneCommitted => exact h.pruneCommitted
  | vacuum => exact h.vacuum
  | purge => exact h.purge

/-- The invariant holds in every reachable state. -/
theorem inv_of_reachable {db : Db κ δ} (h : Reachable db) : DbInv db :=
  h.invariant inv_new fun db a hdb _ => inv_step db a hdb

theorem inv_run {db : Db κ δ} (h : DbInv db) (as : List (Action κ δ)) :
    DbInv (Lib.run step db as) :=
  Lib.run_induction inv_step h as

/-! ## What a step does to the log and to the readers -/

/-- A record that a step appends: a write by an active transaction over the
row that was there, the commit of one, or neither. -/
structure RecordSpec (db : Db κ δ) (r : LogRecord κ δ) : Prop where
  lsn : db.txMgr.clock ≤ r.lsn
  commit : ∀ t, r.operation.commits = some t → ∃ p, db.txMgr.states t = some (.active p)
  write : ∀ t, r.operation.writer = some t → (∃ p, db.txMgr.states t = some (.active p)) ∧
    ∃ v u, r.written = some v ∧ v.txnId = some t ∧ r.operation.undo = some u ∧
      u.key = v.id ∧ u.target = db.rows v.id

structure StepSpec (db db' : Db κ δ) : Prop where
  clock : db.txMgr.clock ≤ db'.txMgr.clock
  reader : ∀ r p, db'.txMgr.states r = some (.active p) →
    r = db.txMgr.clock ∨ db.txMgr.states r = some (.active p)
  log : db'.log = db.log ∨ ∃ r, db'.log = db.log ++ [r] ∧ RecordSpec db r

/-- A step that begins nothing, writes nothing and commits nothing. -/
structure Quiet (db db' : Db κ δ) : Prop where
  clock : db.txMgr.clock ≤ db'.txMgr.clock
  reader : ∀ r p, db'.txMgr.states r = some (.active p) →
    db.txMgr.states r = some (.active p)
  log : db'.log = db.log ∨ ∃ r, db'.log = db.log ++ [r] ∧ db.txMgr.clock ≤ r.lsn ∧
    r.operation.writer = none ∧ r.operation.commits = none

omit [DecidableEq κ] in
theorem Quiet.toStepSpec {db db' : Db κ δ} (h : Quiet db db') : StepSpec db db' := by
  refine ⟨h.clock, fun r p hr => Or.inr (h.reader r p hr), h.log.imp_right ?_⟩
  rintro ⟨r, hlog, hlsn, hw, hc⟩
  refine ⟨r, hlog, hlsn, fun t ht => ?_, fun t ht => ?_⟩
  · rw [hc] at ht
    cases ht
  · rw [hw] at ht
    cases ht

omit [DecidableEq κ] in
theorem Quiet.refl (db : Db κ δ) : Quiet db db :=
  ⟨Nat.le_refl _, fun _ _ hr => hr, Or.inl rfl⟩

omit [DecidableEq κ] in
/-- A quiet step after one that leaves the log alone. -/
theorem Quiet.trans {db db' db'' : Db κ δ} (h : Quiet db db') (hlog : db'.log = db.log)
    (h' : Quiet db' db'') : Quiet db db'' := by
  refine ⟨Nat.le_trans h.clock h'.clock, fun r p hr => h.reader r p (h'.reader r p hr), ?_⟩
  rw [← hlog]
  refine h'.log.imp_right ?_
  rintro ⟨r, heq, hlsn, hw, hc⟩
  exact ⟨r, heq, Nat.le_trans h.clock hlsn, hw, hc⟩

omit [DecidableEq κ] in
theorem quiet_nextLsn (db : Db κ δ) : Quiet db db.nextLsn.1 :=
  ⟨Nat.le_succ _, fun _ _ hr => hr, Or.inl rfl⟩

theorem quiet_revertOne (txn : Nat) (db : Db κ δ) (u : Undo κ δ) :
    Quiet db (revertOne txn db u) := by
  rw [revertOne_eq]
  exact ⟨Nat.le_succ _, fun _ _ hr => hr, Or.inl rfl⟩

theorem quiet_revert (txn : Nat) (us : List (Undo κ δ)) (db : Db κ δ) :
    Quiet db (us.foldl (revertOne txn) db) := by
  induction us generalizing db with
  | nil => exact Quiet.refl db
  | cons u us ih =>
    refine (quiet_revertOne txn db u).trans ?_ (ih _)
    rw [revertOne_eq]
    rfl

theorem quiet_abortComplete (m : TransactionManager) (t : Nat) (wrote : Bool) :
    (m.abortComplete t wrote).1.clock = m.clock ∧
      ∀ r p, (m.abortComplete t wrote).1.states r = some (.active p) →
        r ≠ t ∧ m.states r = some (.active p) := by
  obtain ⟨state, hstates, hclock, hstate⟩ : ∃ state,
      (m.abortComplete t wrote).1.states = Function.update m.states t state ∧
      (m.abortComplete t wrote).1.clock = m.clock ∧ ∀ p, state ≠ some (.active p) := by
    unfold TransactionManager.abortComplete
    dsimp only
    split
    · exact ⟨_, rfl, rfl, by simp⟩
    · exact ⟨_, rfl, rfl, by simp⟩
  refine ⟨hclock, fun r p hr => ?_⟩
  rw [hstates] at hr
  have hne : r ≠ t := by
    rintro rfl
    rw [Function.update_self] at hr
    exact hstate p hr
  rw [Function.update_of_ne hne] at hr
  exact ⟨hne, hr⟩

omit [DecidableEq κ] in
theorem quiet_completeAbort (db : Db κ δ) (t : Nat) (wrote : Bool) :
    Quiet db (db.completeAbort t wrote) := by
  have hlog : ∀ db1 : Db κ δ, Quiet db db1 → Quiet db
      (if (db1.txMgr.abortComplete t wrote).2 = true then
        { db1 with
          txMgr := (db1.txMgr.abortComplete t wrote).1
          versions := (db1.versions.discard t).1 }
      else { db1 with txMgr := (db1.txMgr.abortComplete t wrote).1 }) := by
    intro db1 h1
    obtain ⟨hclock, hreader⟩ := quiet_abortComplete db1.txMgr t wrote
    split
    · exact ⟨hclock.symm ▸ h1.clock, fun r p hr => h1.reader r p (hreader r p hr).2, h1.log⟩
    · exact ⟨hclock.symm ▸ h1.clock, fun r p hr => h1.reader r p (hreader r p hr).2, h1.log⟩
  unfold completeAbort
  refine hlog _ ?_
  split
  · exact ⟨Nat.le_succ _, fun _ _ hr => hr, Or.inr ⟨_, rfl, Nat.le_refl _, rfl, rfl⟩⟩
  · exact Quiet.refl db

theorem quiet_finishAbort (db : Db κ δ) (t : Nat) (failsAfter : Option Nat) :
    Quiet db (db.finishAbort t failsAfter) := by
  unfold finishAbort
  split
  · exact quiet_revert t _ db
  · exact (quiet_revert t _ db).trans (revert_fields t _ db).1 (quiet_completeAbort _ t _)

omit [DecidableEq κ] in
theorem quiet_mgr {db : Db κ δ} {m : TransactionManager}
    (hclock : db.txMgr.clock ≤ m.clock)
    (hreader : ∀ r p, m.states r = some (.active p) → db.txMgr.states r = some (.active p)) :
    Quiet db { db with txMgr := m } :=
  ⟨hclock, hreader, Or.inl rfl⟩

theorem active_of_update {states : Nat → Option TxnState} {t : Nat} {state : Option TxnState}
    (hstate : ∀ p, state ≠ some (.active p)) {r : Nat} {p : ConflictPolicy}
    (hr : Function.update states t state r = some (.active p)) :
    states r = some (.active p) := by
  have hne : r ≠ t := by
    rintro rfl
    rw [Function.update_self] at hr
    exact hstate p hr
  rwa [Function.update_of_ne hne] at hr

theorem quiet_abort (db : Db κ δ) (t : Nat) (failsAfter : Option Nat) :
    Quiet db (db.abort t failsAfter) := by
  obtain ⟨db', heq, habort⟩ := db.abort_cases t failsAfter
  rw [heq]
  have hquiet : ∀ {m : TransactionManager} {state}, m.clock = db.txMgr.clock →
      m.states = Function.update db.txMgr.states t state → (∀ p, state ≠ some (.active p)) →
      Quiet db { db with txMgr := m } := by
    intro m state hclock hstates hstate
    exact quiet_mgr (Nat.le_of_eq hclock.symm) fun r p hr => active_of_update hstate (hstates ▸ hr)
  cases habort with
  | refused => exact Quiet.refl db
  | forgotten hp hhas hend hclock hstates => exact hquiet hclock hstates (by simp)
  | reverted hp hhas hm hclock hstates =>
    exact (hquiet hclock hstates (by simp)).trans rfl (quiet_finishAbort _ t failsAfter)

theorem writeStep_spec {db db' : Db κ δ} {txn : Nat} {key : κ}
    (hact : db.txMgr.isTransactionActive txn = true) (h : WriteStep db txn key db') :
    StepSpec db db' := by
  obtain ⟨p, hp⟩ := (db.txMgr.isTransactionActive_iff txn).mp hact
  cases h with
  | @wrote op v hw =>
    refine ⟨Nat.le_succ _, fun _ _ hr => Or.inr hr, Or.inr ⟨_, rfl, Nat.le_refl _, ?_, ?_⟩⟩
    · intro t ht
      have hnone := hw.commits_eq_none
      dsimp only at ht
      rw [hnone] at ht
      cases ht
    · intro t ht
      have htxn : some txn = some t := hw.writer.symm.trans ht
      cases htxn
      obtain ⟨u, hu, hukey, hutar⟩ := hw.undo
      refine ⟨⟨p, hp⟩, v, u, hw.written, hw.txnId, hu, hukey.trans hw.id.symm, ?_⟩
      rw [hw.id]
      exact hutar
  | failed => exact (quiet_nextLsn db).toStepSpec
  | aborted => exact ((quiet_nextLsn db).trans rfl (quiet_abort _ txn none)).toStepSpec

omit [DecidableEq κ] in
theorem commit_spec (db : Db κ δ) (txn : Nat) : StepSpec db (db.commit txn).1 := by
  obtain ⟨db', heq, hcommit⟩ := db.commit_cases txn
  rw [heq]
  cases hcommit with
  | refused => exact (Quiet.refl db).toStepSpec
  | logged hp hhas hbegin hclock hstates =>
    refine ⟨Nat.le_of_lt (Nat.lt_of_lt_of_eq (Nat.lt_succ_self _) hclock.symm),
      fun r q hr => Or.inr (active_of_update (by simp) (hstates ▸ hr)),
      Or.inr ⟨_, rfl, Nat.le_refl _, ?_, ?_⟩⟩
    · intro t ht
      cases ht
      exact ⟨_, hp⟩
    · intro t ht
      cases ht
  | silent hp hhas hm hclock hstates =>
    refine Quiet.toStepSpec (quiet_mgr ?_ fun r q hr =>
      active_of_update (by simp) (hstates ▸ hr))
    rw [hclock]
    exact Nat.le_succ _

theorem quiet_purge (db : Db κ δ) : Quiet db db.purge := by
  unfold purge
  split
  · exact Quiet.refl db
  · next t rest hp =>
      dsimp only
      split
      · exact ⟨Nat.le_trans (Nat.le_succ _) (Nat.le_succ _), fun _ _ hr => hr,
          Or.inr ⟨_, rfl, Nat.le_succ _, rfl, rfl⟩⟩
      · exact ⟨Nat.le_succ _, fun _ _ hr => hr, Or.inl rfl⟩

theorem step_spec (db : Db κ δ) (a : Action κ δ) (h : DbInv db) :
    StepSpec db (db.step a) := by
  have hcall : ∀ db' txn key, (db' = db ∨ db.txMgr.isTransactionActive txn = true ∧
      WriteStep db txn key db') → StepSpec db db' := by
    rintro db' txn key (rfl | ⟨hact, hstep⟩)
    · exact (Quiet.refl db').toStepSpec
    · exact writeStep_spec hact hstep
  cases a with
  | begin policy =>
    refine ⟨Nat.le_succ _, fun r p hr => ?_, Or.inl rfl⟩
    by_cases heq : r = db.txMgr.clock
    · exact Or.inl heq
    · refine Or.inr ?_
      simpa [step, begin, TransactionManager.createTransaction, heq] using hr
  | insert txn tuple => exact hcall _ txn _ (insert_step h.row_id txn tuple)
  | update txn tuple => exact hcall _ txn _ (update_step h.row_id txn tuple)
  | remove txn key => exact hcall _ txn _ (remove_step h.row_id txn key)
  | commit txn => exact commit_spec db txn
  | abort txn failsAfter => exact (quiet_abort db txn failsAfter).toStepSpec
  | retryAbort txn failsAfter =>
    refine Quiet.toStepSpec ?_
    simp only [step, retryAbort]
    split
    · exact quiet_finishAbort db txn failsAfter
    · exact Quiet.refl db
  | pruneCommitted =>
    refine Quiet.toStepSpec ⟨Nat.le_refl _, fun r p hr => ?_, Or.inl rfl⟩
    simp only [step, pruneCommitted, TransactionManager.pruneCommitted,
      Option.filter_eq_some_iff] at hr
    exact hr.1
  | vacuum => exact Quiet.toStepSpec ⟨Nat.le_refl _, fun _ _ hr => hr, Or.inl rfl⟩
  | purge => exact (quiet_purge db).toStepSpec

end Db

end SquealDb.Store
