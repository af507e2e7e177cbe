import SquealDb.Store.Interleaving

/-!
# What a step does to one row

`RowStep` says, once for all operations, what a step of the store does to the
row of a key and to the log.  From it follows how the row that everybody
agrees on moves: `settledRow` is the row itself if its writer committed, and
otherwise the row its writer's abort would put back.
-/

namespace SquealDb.Store

open Lib

variable {κ δ : Type*} [DecidableEq κ]

/-- What a step does to the row of a key: nothing; nothing but a commit of
some transaction; a write of an active transaction; part of the revert of one
in flight; or its physical removal. -/
inductive RowStep (db db' : Db κ δ) (key : κ) : Prop
  | kept : db'.rows key = db.rows key → commitTs db'.log = commitTs db.log →
      (∀ t, undosOn db'.log t key = undosOn db.log t key) → RowStep db db' key
  | committed (t : Nat) (p : ConflictPolicy) (c : Nat) : db'.rows key = db.rows key →
      db.txMgr.states t = some (.active p) →
      db'.log = db.log ++ [⟨c, .commit t⟩] → RowStep db db' key
  | wrote (t : Nat) (p : ConflictPolicy) (v : Tuple κ δ) (u : Undo κ δ)
      (r : LogRecord κ δ) : db.txMgr.states t = some (.active p) →
      db'.rows key = some v → v.txnId = some t → db'.log = db.log ++ [r] →
      r.operation.writer = some t → r.operation.commits = none →
      r.operation.undo = some u → u.key = key → u.target = db.rows key →
      (∀ c, db.rows key = some c → ∃ w, c.txnId = some w ∧ db.txMgr.conflicts w t = false) →
      RowStep db db' key
  | reverted (t : Nat) (v : Tuple κ δ) (u : Undo κ δ) : InFlight db.txMgr t →
      db.rows key = some v → v.txnId = some t → u ∈ undosOn db.log t key →
      db'.rows key = u.target → commitTs db'.log = commitTs db.log →
      (∀ t, undosOn db'.log t key = undosOn db.log t key) → RowStep db db' key
  | removed : db'.rows key = none → RowStep db db' key

/-! ## The revert of a transaction -/

variable {t : Nat} {log : List (LogRecord κ δ)} {key : κ} {v : Tuple κ δ} {u : Undo κ δ}
  {db : Db κ δ}

omit [DecidableEq κ] in
/-- Reverting leaves a row alone, or leaves what one of the undos puts back. -/
theorem foldl_revertRow_mem (us : List (Undo κ δ)) (row : Option (Tuple κ δ)) :
    us.foldl (revertRow t) row = row ∨ ((row.any fun v => v.isSameTxn t) = true ∧
      ∃ u ∈ us, us.foldl (revertRow t) row = u.target) := by
  induction us generalizing row with
  | nil => exact Or.inl rfl
  | cons x xs ih =>
    rw [List.foldl_cons]
    cases hrow : row.any fun v => v.isSameTxn t with
    | false =>
      have hself : revertRow t row x = row := by simp [revertRow, hrow]
      rw [hself]
      rcases ih row with heq | ⟨hsame, -⟩
      · exact Or.inl heq
      · rw [hrow] at hsame
        cases hsame
    | true =>
      have htarget : revertRow t row x = x.target := by simp [revertRow, hrow]
      rw [htarget]
      rcases ih x.target with heq | ⟨-, u, hu, heq⟩
      · exact Or.inr ⟨rfl, x, List.mem_cons_self, heq⟩
      · exact Or.inr ⟨rfl, u, List.mem_cons_of_mem _ hu, heq⟩

namespace Db

variable {db : Db κ δ}

/-- The quiet records of the log: neither a write nor a commit. -/
theorem quiet_log {db' : Db κ δ} (h : Quiet db db') (key : κ) :
    commitTs db'.log = commitTs db.log ∧
      ∀ t, undosOn db'.log t key = undosOn db.log t key := by
  rcases h.log with heq | ⟨r, heq, -, hw, hc⟩
  · rw [heq]
    exact ⟨rfl, fun _ => rfl⟩
  · rw [heq]
    exact ⟨commitTs_append_other _ _ hc, fun t => undosOn_append_of_ne _ _ (by simp [hw])⟩

/-- A quiet step that leaves the row alone. -/
theorem Quiet.rowStep {db' : Db κ δ} (h : Quiet db db') {key : κ}
    (hrow : db'.rows key = db.rows key) : RowStep db db' key :=
  .kept hrow (quiet_log h key).1 (quiet_log h key).2

omit [DecidableEq κ] in
theorem rows_completeAbort (db : Db κ δ) (t : Nat) (wrote : Bool) :
    (db.completeAbort t wrote).rows = db.rows := by
  unfold completeAbort
  dsimp only
  cases wrote with
  | true =>
    simp only [if_true]
    split
    · rfl
    · rfl
  | false =>
    simp only [Bool.false_eq_true, if_false]
    split
    · rfl
    · rfl

/-- What `finish_abort` does to a row, however far its revert gets. -/
theorem rows_finishAbort_mem (h : DbInv db) {t : Nat} (hab : db.txMgr.states t = some .aborting)
    (f : Option Nat) (key : κ) :
    (db.finishAbort t f).rows key = db.rows key ∨
      ∃ v u, db.rows key = some v ∧ v.txnId = some t ∧ u ∈ undosOn db.log t key ∧
        (db.finishAbort t f).rows key = u.target := by
  have hrev : ∀ steps, (db.revert t steps).rows key = db.rows key ∨
      ∃ v u, db.rows key = some v ∧ v.txnId = some t ∧ u ∈ undosOn db.log t key ∧
        (db.revert t steps).rows key = u.target := by
    intro steps
    unfold revert
    rw [rows_revert]
    refine (foldl_revertRow_mem _ _).imp_right ?_
    rintro ⟨hsame, u, hu, heq⟩
    obtain ⟨v, hv, hvt⟩ : ∃ v, db.rows key = some v ∧ v.txnId = some t := by
      simpa [Option.any_eq_true] using hsame
    refine ⟨v, u, hv, hvt, ?_, heq⟩
    obtain ⟨hu, hkey⟩ := List.mem_filter.mp hu
    refine List.mem_filter.mpr ⟨?_, hkey⟩
    rw [← h.undoOf t (Or.inr hab), ← List.mem_reverse]
    cases steps with
    | none => exact hu
    | some n => exact List.mem_of_mem_take hu
  unfold finishAbort
  split
  · exact hrev f
  · rw [rows_completeAbort]
    exact hrev none

theorem finishAbort_rowStep (h : DbInv db) {t : Nat} (hab : db.txMgr.states t = some .aborting)
    (f : Option Nat) (key : κ) :
    RowStep db (db.finishAbort t f) key := by
  have hq := quiet_finishAbort db t f
  rcases rows_finishAbort_mem h hab f key with hrow | ⟨v, u, hv, hvt, hu, hrow⟩
  · exact hq.rowStep hrow
  · exact .reverted t v u (Or.inr hab) hv hvt hu hrow (quiet_log hq key).1 (quiet_log hq key).2

/-- A step taken after one of the transaction table alone. -/
theorem rowStep_of_mgr {db' : Db κ δ} {m : TransactionManager} {key : κ}
    (hfl : ∀ t, InFlight m t → InFlight db.txMgr t) (h : RowStep { db with txMgr := m } db' key)
    (hq : Quiet { db with txMgr := m } db') : RowStep db db' key := by
  have hlog := quiet_log hq key
  cases h with
  | kept hrow hts hundo => exact .kept hrow hts hundo
  | committed t p c hrow hp hl =>
    have hts := hlog.1
    rcases hq.log with heq | ⟨r, heq, -, -, hc⟩
    · exact absurd (heq.symm.trans hl) (by simp)
    · have hr := List.append_cancel_left (heq.symm.trans hl)
      cases hr
      cases hc
  | wrote t p v u r hp hrow hvt hl hw hc hu hukey htar hcon =>
    rcases hq.log with heq | ⟨r', heq, -, hw', -⟩
    · exact absurd (heq.symm.trans hl) (by simp)
    · have hr := List.append_cancel_left (heq.symm.trans hl)
      cases hr
      rw [hw] at hw'
      cases hw'
  | reverted t v u ht hv hvt hu hrow hts hundo =>
    exact .reverted t v u (hfl t ht) hv hvt hu hrow hts hundo
  | removed hrow => exact .removed hrow

theorem abort_rowStep (h : DbInv db) (t : Nat) (f : Option Nat) (key : κ) :
    RowStep db (db.abort t f) key := by
  obtain ⟨db', heq, habort⟩ := db.abort_cases t f
  rw [heq]
  cases habort with
  | refused => exact .kept rfl rfl fun _ => rfl
  | forgotten => exact .kept rfl rfl fun _ => rfl
  | reverted hp hhas hm hclock hstates =>
    obtain ⟨hab, hinv⟩ := h.markAborting hm
    refine rowStep_of_mgr ?_ (finishAbort_rowStep hinv hab f key) (quiet_finishAbort _ t f)
    intro t' ht'
    by_cases heq : t' = t
    · subst heq
      exact Or.inl ⟨_, hp⟩
    · simpa [InFlight, hstates, heq] using ht'

/-! ## The other operations -/

theorem writeStep_rowStep {db' : Db κ δ} (hinv : DbInv db) {txn : Nat} {k : κ}
    (hact : db.txMgr.isTransactionActive txn = true) (h : WriteStep db txn k db') (key : κ) :
    RowStep db db' key := by
  obtain ⟨p, hp⟩ := (db.txMgr.isTransactionActive_iff txn).mp hact
  cases h with
  | @wrote op v hw =>
    obtain ⟨u, hu, hukey, hutar⟩ := hw.undo
    by_cases hk : k = key
    · subst hk
      refine .wrote txn p v u ⟨db.nextLsn.2, op⟩ hp ?_ hw.txnId rfl hw.writer
        hw.commits_eq_none hu hukey hutar ?_
      · simp [write]
      · intro c hc
        rcases hw.replaces with ⟨hnone, -⟩ | ⟨c', w, hc', hcw, hcon, -⟩
        · rw [hnone] at hc
          cases hc
        · rw [hc'] at hc
          cases hc
          exact ⟨w, hcw, hcon⟩
    · refine .kept ?_ ?_ ?_
      · simp [write, Ne.symm hk, nextLsn]
      · exact commitTs_append_other _ _ hw.commits_eq_none
      · intro t
        exact undosOn_append_of_ne_key _ _ hu (hukey.trans_ne hk)
  | failed => exact .kept rfl rfl fun _ => rfl
  | aborted =>
    have hstep : RowStep { db with txMgr := db.nextLsn.1.txMgr }
        (db.nextLsn.1.abort txn none) key := abort_rowStep hinv.nextLsn txn none key
    refine rowStep_of_mgr ?_ hstep (quiet_abort db.nextLsn.1 txn none)
    exact fun t ht => ht

omit [DecidableEq κ] in
/-- A commit leaves the rows alone, and logs at most the `Commit` record. -/
theorem commit_log (db : Db κ δ) (txn : Nat) :
    (db.commit txn).1.rows = db.rows ∧ ((db.commit txn).1.log = db.log ∨
      ∃ p c, db.txMgr.states txn = some (.active p) ∧
        (db.commit txn).1.log = db.log ++ [⟨c, .commit txn⟩]) := by
  obtain ⟨db', heq, hcommit⟩ := db.commit_cases txn
  rw [heq]
  cases hcommit with
  | refused => exact ⟨rfl, Or.inl rfl⟩
  | logged hp => exact ⟨rfl, Or.inr ⟨_, _, hp, rfl⟩⟩
  | silent => exact ⟨rfl, Or.inl rfl⟩

theorem commit_rowStep (db : Db κ δ) (txn : Nat) (key : κ) :
    RowStep db (db.commit txn).1 key := by
  obtain ⟨hrows, hlog | ⟨p, c, hp, hlog⟩⟩ := commit_log db txn
  · refine .kept (congrFun hrows key) ?_ fun t => ?_
    · rw [hlog]
    · rw [hlog]
  · exact .committed txn p c (congrFun hrows key) hp hlog

theorem purge_rowStep (db : Db κ δ) (key : κ) : RowStep db db.purge key := by
  have hq := quiet_purge db
  by_cases hrow : db.purge.rows key = db.rows key
  · exact hq.rowStep hrow
  · refine .removed ?_
    cases hp : db.purging with
    | nil => simp [purge, hp] at hrow
    | cons t rest =>
      unfold purge at hrow ⊢
      rw [hp] at hrow ⊢
      dsimp only at hrow ⊢
      split at hrow
      · next hpur =>
          rw [if_pos hpur]
          by_cases hk : key = t.key
          · simp [applyDecision, hk]
          · exact absurd (Function.update_of_ne hk _ _) hrow
      · exact absurd rfl hrow

/-- What a step does to the row of a key. -/
theorem row_step (h : DbInv db) (a : Action κ δ) (key : κ) :
    RowStep db (db.step a) key := by
  have hcall : ∀ db' txn k, (db' = db ∨ db.txMgr.isTransactionActive txn = true ∧
      WriteStep db txn k db') → RowStep db db' key := by
    rintro db' txn k (rfl | ⟨hact, hstep⟩)
    · exact .kept rfl rfl fun _ => rfl
    · exact writeStep_rowStep h hact hstep key
  cases a with
  | begin policy => exact .kept rfl rfl fun _ => rfl
  | insert txn tuple => exact hcall _ txn _ (insert_step h.row_id txn tuple)
  | update txn tuple => exact hcall _ txn _ (update_step h.row_id txn tuple)
  | remove txn key => exact hcall _ txn _ (remove_step h.row_id txn key)
  | commit txn => exact commit_rowStep db txn key
  | abort txn failsAfter => exact abort_rowStep h txn failsAfter key
  | retryAbort txn failsAfter =>
    simp only [step, retryAbort]
    split
    · next hab => exact finishAbort_rowStep h hab failsAfter key
    · exact .kept rfl rfl fun _ => rfl
  | pruneCommitted => exact .kept rfl rfl fun _ => rfl
  | vacuum => exact .kept rfl rfl fun _ => rfl
  | purge => exact purge_rowStep db key

end Db

/-! ## The settled row -/

/-- The row everybody agrees on: the row itself if its writer committed, and
otherwise what its writer's first undo puts back. -/
def settledRow (log : List (LogRecord κ δ)) (key : κ) :
    Option (Tuple κ δ) → Option (Tuple κ δ)
  | none => none
  | some v =>
    if CommittedBy (commitTs log) v then some v
    else (v.txnId.bind fun t => (undosOn log t key).head?).bind Undo.target

theorem settledRow_of_committed (h : CommittedBy (commitTs log) v) :
    settledRow log key (some v) = some v :=
  if_pos h

theorem settledRow_of_held {rest : List (Undo κ δ)} (hv : v.txnId = some t)
    (ht : commitTs log t = none) (hu : undosOn log t key = u :: rest) :
    settledRow log key (some v) = u.target := by
  have hnc : ¬ CommittedBy (commitTs log) v := by
    rw [committedBy_iff hv, ht]
    rintro ⟨c, hc⟩
    cases hc
  simp [settledRow, hnc, hv, hu]

/-- The settled row is where the committed part of the key's chain begins. -/
theorem KeyInv.settledRow_eq {m : TransactionManager} {find : Nat → Option (Tuple κ δ)}
    {row : Option (Tuple κ δ)} {own base older : List (Tuple κ δ)} {wrote : Nat → Prop}
    (h : KeyInv m log find key row own base older) (ht : TxnInv m (commitTs log) wrote) :
    settledRow log key row = base.head? := by
  cases hrow : row with
  | none =>
    have hhead := h.row_eq_head
    rw [hrow, eq_comm, List.head?_eq_none_iff, List.append_eq_nil_iff] at hhead
    rw [hhead.2]
    rfl
  | some v =>
    by_cases hc : CommittedBy (commitTs log) v
    · have hown := h.own_eq_nil ht hrow hc
      subst hown
      rw [settledRow_of_committed hc, ← hrow]
      exact h.path.eq_of_nil
    · have hne := h.own_ne_nil hrow hc
      have hmem : v ∈ own := by
        have hhead := h.path.head_eq hne
        rw [hrow] at hhead
        exact List.mem_of_mem_head? hhead.symm
      obtain ⟨t, hvt, hfl, -⟩ := h.holder v hmem
      obtain ⟨u, rest, hu, htar, -⟩ := h.undo t v hfl hrow hvt
      rw [settledRow_of_held hvt (commitTs_of_inFlight ht hfl) hu, htar]

/-- The settled row depends on the commit timestamps and on the undos of the
key. -/
theorem settledRow_congr {log' : List (LogRecord κ δ)} (hts : commitTs log' = commitTs log)
    (hundo : ∀ t, undosOn log' t key = undosOn log t key) :
    settledRow log' key = settledRow log key := by
  funext row
  cases row with
  | none => rfl
  | some v => simp [settledRow, hts, hundo]

/-- The undo that puts the settled row back settles on it, and so does every
other undo of the holder. -/
theorem settledRow_undo (h : DbInv db) (ht : InFlight db.txMgr t) (hv : db.rows key = some v)
    (hvt : v.txnId = some t) (hu : u ∈ undosOn db.log t key) :
    settledRow db.log key u.target = settledRow db.log key (db.rows key) := by
  obtain ⟨own, base, older, hk⟩ := h.key key
  obtain ⟨u0, rest, hu0, htar, -⟩ := hk.undo t v ht hv hvt
  have hnone := commitTs_of_inFlight h.txn ht
  rw [hk.settledRow_eq h.txn]
  rw [hu0] at hu
  rcases List.mem_cons.mp hu with rfl | hu
  · rw [htar]
    cases hb : base.head? with
    | none => rfl
    | some b =>
      have hmem : b ∈ base ++ older := List.mem_append_left _ (List.mem_of_mem_head? hb)
      exact settledRow_of_committed (hk.committed_of_mem hmem).2
  · obtain ⟨q, hq, hqt⟩ := (h.undoShape t key u0 rest hu0).2 u hu
    rw [hq, settledRow_of_held hqt hnone hu0, htar]

/-- A write leaves the settled row as it is. -/
theorem settledRow_write (h : DbInv db) {p : ConflictPolicy} {r : LogRecord κ δ}
    (hp : db.txMgr.states t = some (.active p)) (hvt : v.txnId = some t)
    (hw : r.operation.writer = some t) (hc : r.operation.commits = none)
    (hu : r.operation.undo = some u) (hukey : u.key = key) (htar : u.target = db.rows key)
    (hfree : ∀ c, db.rows key = some c →
      ∃ w, c.txnId = some w ∧ db.txMgr.conflicts w t = false) :
    settledRow (db.log ++ [r]) key (some v) = settledRow db.log key (db.rows key) := by
  obtain ⟨own, base, older, hk⟩ := h.key key
  have hts : commitTs (db.log ++ [r]) t = none := by
    rw [commitTs_append_other _ _ hc]
    exact h.txn.activeTs t p hp
  have hundo := undosOn_append_self db.log r hw hu hukey
  by_cases hwk : WroteKey db.log t key
  · obtain ⟨hne, hby, -⟩ := hk.active t p hp hwk
    obtain ⟨o, os, hoEq⟩ := List.exists_cons_of_ne_nil hne
    have hrow : db.rows key = some o := by
      rw [hk.path.head_eq hne, hoEq]
      rfl
    have hot : o.txnId = some t := hby o (hoEq ▸ List.mem_cons_self)
    obtain ⟨u0, rest, hu0, -, -⟩ := hk.undo t o (Or.inl ⟨p, hp⟩) hrow hot
    rw [hu0, List.cons_append] at hundo
    rw [settledRow_of_held hvt hts hundo, hrow,
      settledRow_of_held hot (h.txn.activeTs t p hp) hu0]
  · have hnil : undosOn db.log t key = [] := by
      by_contra hne
      exact hwk ((h.wroteKey_iff_undosOn t key).mpr hne)
    rw [hnil, List.nil_append] at hundo
    have hown : own = [] := by
      by_contra hne
      obtain ⟨o, os, hoEq⟩ := List.exists_cons_of_ne_nil hne
      have ho : o ∈ own := hoEq ▸ List.mem_cons_self
      have hby := hk.own_by_writer h.txn hp (fun t' ht' => h.wrote_of_wroteKey ht') hfree
      obtain ⟨t', ht', -, hw'⟩ := hk.holder o ho
      rw [hby.1 o ho] at ht'
      cases ht'
      exact hwk hw'
    subst hown
    rw [settledRow_of_held hvt hts hundo, htar, hk.settledRow_eq h.txn]
    exact hk.path.eq_of_nil

/-- The settled row changes only by being taken away, or by the commit of the
row's writer. -/
theorem RowStep.settled {db' : Db κ δ} (hstep : RowStep db db' key) (h : DbInv db) :
    settledRow db'.log key (db'.rows key) = settledRow db.log key (db.rows key) ∨
      settledRow db'.log key (db'.rows key) = none ∨
      ∃ t p c v, db.txMgr.states t = some (.active p) ∧
        db'.log = db.log ++ [⟨c, .commit t⟩] ∧ db.rows key = some v ∧ v.txnId = some t := by
  cases hstep with
  | kept hrow hts hundo =>
    refine Or.inl ?_
    rw [hrow, settledRow_congr hts hundo]
  | committed t p c hrow hp hlog =>
    rw [hrow, hlog]
    have hundo : ∀ t', undosOn (db.log ++ [⟨c, .commit t⟩]) t' key =
        undosOn db.log t' key := fun t' =>
      undosOn_append_of_ne _ _ (by simp [Operation.writer])
    have hts : commitTs (db.log ++ [⟨c, .commit t⟩]) =
        Function.update (commitTs db.log) t (some c) :=
      commitTs_append_commit db.log (h.txn.activeTs t p hp)
    by_cases hby : ∃ v, db.rows key = some v ∧ v.txnId = some t
    · obtain ⟨v, hv, hvt⟩ := hby
      exact Or.inr (Or.inr ⟨t, p, c, v, hp, rfl, hv, hvt⟩)
    · refine Or.inl ?_
      cases hr : db.rows key with
      | none => rfl
      | some v =>
        have hne : v.txnId ≠ some t := fun hvt => hby ⟨v, hr, hvt⟩
        have hiff : CommittedBy (commitTs (db.log ++ [⟨c, .commit t⟩])) v ↔
            CommittedBy (commitTs db.log) v := by
          unfold CommittedBy
          rw [hts]
          cases hw : v.txnId with
          | none => rfl
          | some w =>
            rw [Option.bind_some, Option.bind_some, Function.update_of_ne]
            rintro rfl
            exact hne hw
        simp [settledRow, hiff, hundo]
  | wrote t p v u r hp hrow hvt hlog hw hc hu hukey htar hfree =>
    refine Or.inl ?_
    rw [hrow, hlog]
    exact settledRow_write h hp hvt hw hc hu hukey htar hfree
  | reverted t v u ht hv hvt hu hrow hts hundo =>
    refine Or.inl ?_
    rw [hrow, settledRow_congr hts hundo]
    exact settledRow_undo h ht hv hvt hu
  | removed hrow =>
    refine Or.inr (Or.inl ?_)
    rw [hrow]
    rfl

end SquealDb.Store
