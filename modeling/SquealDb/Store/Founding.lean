import SquealDb.Store.Issued

/-!
# A log that founds the rows

The operations of the store append to the log and never read it.  So the rows that a
recovery left may be given a log of their own, in which each row is founded by one write
of a committed transaction; over that log the store's invariant holds again.
-/

namespace SquealDb.Store

open Lib

variable {κ δ : Type*} [DecidableEq κ]

/-! ## Operations do not read the log -/

namespace Db

omit [DecidableEq κ] in
/-- The same database with more log before its own. -/
def prepend (pre : List (LogRecord κ δ)) (db : Db κ δ) : Db κ δ :=
  { db with log := pre ++ db.log }

variable (pre : List (LogRecord κ δ)) (db : Db κ δ)

omit [DecidableEq κ] in
theorem logRecord_prepend (lsn : Nat) (op : Operation κ δ) :
    (db.prepend pre).logRecord lsn op = (db.logRecord lsn op).prepend pre := by
  simp [logRecord, prepend]

omit [DecidableEq κ] in
theorem recordWrite_prepend (lsn : Nat) (op : Operation κ δ) :
    (db.prepend pre).recordWrite lsn op = (db.recordWrite lsn op).prepend pre := by
  simp [recordWrite, logRecord, prepend]

theorem applyDecision_prepend (key : κ) (d : Decision κ δ) :
    (db.prepend pre).applyDecision key d = (db.applyDecision key d).prepend pre := by
  cases d <;> rfl

theorem revertOne_prepend (txn : Nat) (u : Undo κ δ) :
    revertOne txn (db.prepend pre) u = (revertOne txn db u).prepend pre := by
  rw [revertOne_eq, revertOne_eq]
  rfl

theorem foldl_revertOne_prepend (txn : Nat) (us : List (Undo κ δ)) :
    us.foldl (revertOne txn) (db.prepend pre) = (us.foldl (revertOne txn) db).prepend pre := by
  induction us generalizing db with
  | nil => rfl
  | cons u us ih => rw [List.foldl_cons, List.foldl_cons, revertOne_prepend, ih]

theorem revert_prepend (txn : Nat) (steps : Option Nat) :
    (db.prepend pre).revert txn steps = (db.revert txn steps).prepend pre :=
  foldl_revertOne_prepend pre db txn _

omit [DecidableEq κ] in
theorem completeAbort_prepend (txn : Nat) (wrote : Bool) :
    (db.prepend pre).completeAbort txn wrote = (db.completeAbort txn wrote).prepend pre := by
  have hlog : ∀ d : Db κ δ, (d.prepend pre).logNew (.rollback txn) =
      (d.logNew (.rollback txn)).prepend pre := fun d => logRecord_prepend pre d.nextLsn.1 _ _
  unfold completeAbort
  cases wrote with
  | true =>
    simp only [if_true]
    rw [hlog]
    show (if (TransactionManager.abortComplete _ _ _).2 then _ else _) = _
    split <;> simp_all [prepend]
  | false =>
    simp only [Bool.false_eq_true, if_false]
    show (if (TransactionManager.abortComplete _ _ _).2 then _ else _) = _
    split <;> simp_all [prepend]

theorem finishAbort_prepend (txn : Nat) (failsAfter : Option Nat) :
    (db.prepend pre).finishAbort txn failsAfter = (db.finishAbort txn failsAfter).prepend pre := by
  have hfails : (db.prepend pre).revertFails txn failsAfter = db.revertFails txn failsAfter := rfl
  have hwrites : (db.prepend pre).versions.hasWrites txn = db.versions.hasWrites txn := rfl
  unfold finishAbort
  rw [hfails, hwrites, revert_prepend, revert_prepend, completeAbort_prepend]
  split <;> rfl

theorem abort_prepend (txn : Nat) (failsAfter : Option Nat) :
    (db.prepend pre).abort txn failsAfter = (db.abort txn failsAfter).prepend pre := by
  have hwrites : (db.prepend pre).versions.hasWrites txn = db.versions.hasWrites txn := rfl
  have hmgr : (db.prepend pre).txMgr = db.txMgr := rfl
  unfold abort
  rw [hwrites, hmgr]
  split
  · rfl
  · split
    · rfl
    · next m hm => exact finishAbort_prepend pre { db with txMgr := m } txn failsAfter

omit [DecidableEq κ] in
theorem commit_prepend (txn : Nat) :
    ((db.prepend pre).commit txn).1 = (db.commit txn).1.prepend pre := by
  have hactive : (db.prepend pre).requireActive txn = db.requireActive txn := rfl
  have hwrites : (db.prepend pre).versions.hasWrites txn = db.versions.hasWrites txn := rfl
  have hmgr : (db.prepend pre).txMgr = db.txMgr := rfl
  unfold commit
  rw [hactive, hwrites, hmgr]
  split
  · rfl
  · split
    · split
      · rfl
      · simp [logRecord, prepend]
    · dsimp only [nextLsn]
      rw [hmgr]
      split <;> rfl

theorem afterWrite_prepend (txn : Nat) (e : StoreError κ) :
    (db.prepend pre).afterWrite txn e =
      ((db.afterWrite txn e).1.prepend pre, (db.afterWrite txn e).2) := by
  have hmgr : (db.prepend pre).txMgr = db.txMgr := rfl
  cases e with
  | writeConflict key =>
    simp only [afterWrite]
    rw [hmgr, abort_prepend]
    split <;> rfl
  | transactionAlreadyFinished => rfl
  | duplicateKey key => rfl
  | keyNotFound key => rfl
  | writeConflictTransactionAborted key => rfl
  | tupleTooLarge actual budget => rfl
  | pageCapacityError => rfl
  | corruption => rfl
  | unknownError => rfl

/-- A write through a decision that does not read the log. -/
theorem writeWithPolicy_prepend (key : κ) (txn : Nat)
    {decide decide' : Option (Tuple κ δ) → Except (StoreError κ) (Db κ δ × Decision κ δ)}
    (h : ∀ row, decide' row = (decide row).map fun x => (x.1.prepend pre, x.2)) :
    (db.prepend pre).writeWithPolicy key txn decide' =
      ((db.writeWithPolicy key txn decide).1.prepend pre,
        (db.writeWithPolicy key txn decide).2) := by
  have hrows : (db.prepend pre).rows key = db.rows key := rfl
  unfold writeWithPolicy
  rw [hrows, h]
  cases hd : decide (db.rows key) with
  | error e =>
    simp only [Except.map]
    rw [afterWrite_prepend]
  | ok x =>
    simp only [Except.map]
    rw [applyDecision_prepend]

omit [DecidableEq κ] in
theorem insertDecision_prepend (tuple : Tuple κ δ) (txn lsn : Nat) (row : Option (Tuple κ δ)) :
    (db.prepend pre).insertDecision tuple txn lsn row =
      (db.insertDecision tuple txn lsn row).map fun x => (x.1.prepend pre, x.2) := by
  have hconflict : ∀ c, (db.prepend pre).checkWriteConflict c txn = db.checkWriteConflict c txn :=
    fun _ => rfl
  cases row with
  | none =>
    simp only [insertDecision]
    rw [recordWrite_prepend]
    rfl
  | some c =>
    simp only [insertDecision]
    rw [hconflict, recordWrite_prepend]
    split
    · split <;> rfl
    · rfl

omit [DecidableEq κ] in
theorem updateDecision_prepend (tuple : Tuple κ δ) (txn lsn : Nat) (row : Option (Tuple κ δ)) :
    (db.prepend pre).updateDecision tuple txn lsn row =
      (db.updateDecision tuple txn lsn row).map fun x => (x.1.prepend pre, x.2) := by
  have hold : (db.prepend pre).replacedVersion tuple.id txn row =
      db.replacedVersion tuple.id txn row := rfl
  unfold updateDecision
  rw [hold]
  split
  · rfl
  · dsimp only
    rw [recordWrite_prepend]
    rfl

omit [DecidableEq κ] in
theorem removeDecision_prepend (key : κ) (txn lsn : Nat) (row : Option (Tuple κ δ)) :
    (db.prepend pre).removeDecision key txn lsn row =
      (db.removeDecision key txn lsn row).map fun x => (x.1.prepend pre, x.2) := by
  have hold : (db.prepend pre).replacedVersion key txn row = db.replacedVersion key txn row := rfl
  unfold removeDecision
  rw [hold]
  split
  · rfl
  · dsimp only
    rw [recordWrite_prepend]
    rfl

theorem insert_prepend (txn : Nat) (tuple : Tuple κ δ) :
    ((db.prepend pre).insert txn tuple).1 = (db.insert txn tuple).1.prepend pre := by
  have hactive : (db.prepend pre).requireActive txn = db.requireActive txn := rfl
  have hnext : (db.prepend pre).nextLsn = (db.nextLsn.1.prepend pre, db.nextLsn.2) := rfl
  unfold insert
  rw [hactive, hnext]
  split
  · rfl
  · dsimp only
    rw [writeWithPolicy_prepend pre db.nextLsn.1 tuple.id txn
      (insertDecision_prepend pre db.nextLsn.1 (stamped tuple txn) txn db.nextLsn.2)]

theorem update_prepend (txn : Nat) (tuple : Tuple κ δ) :
    ((db.prepend pre).update txn tuple).1 = (db.update txn tuple).1.prepend pre := by
  have hactive : (db.prepend pre).requireActive txn = db.requireActive txn := rfl
  have hnext : (db.prepend pre).nextLsn = (db.nextLsn.1.prepend pre, db.nextLsn.2) := rfl
  unfold update
  rw [hactive, hnext]
  split
  · rfl
  · dsimp only
    rw [writeWithPolicy_prepend pre db.nextLsn.1 tuple.id txn
      (updateDecision_prepend pre db.nextLsn.1 tuple txn db.nextLsn.2)]

theorem remove_prepend (txn : Nat) (key : κ) :
    ((db.prepend pre).remove txn key).1 = (db.remove txn key).1.prepend pre := by
  have hactive : (db.prepend pre).requireActive txn = db.requireActive txn := rfl
  have hnext : (db.prepend pre).nextLsn = (db.nextLsn.1.prepend pre, db.nextLsn.2) := rfl
  unfold remove
  rw [hactive, hnext]
  split
  · rfl
  · dsimp only
    rw [writeWithPolicy_prepend pre db.nextLsn.1 key txn
      (removeDecision_prepend pre db.nextLsn.1 key txn db.nextLsn.2)]
    split <;> simp_all

theorem purge_prepend : (db.prepend pre).purge = db.purge.prepend pre := by
  have hpurging : (db.prepend pre).purging = db.purging := rfl
  unfold purge
  rw [hpurging]
  split
  · rfl
  · next t rest hq =>
      have hpurges : (({ db.prepend pre with purging := rest } : Db κ δ).nextLsn.1).purges t =
          (({ db with purging := rest } : Db κ δ).nextLsn.1).purges t := rfl
      dsimp only
      rw [hpurges]
      split
      · have hlog : (({ db.prepend pre with purging := rest } : Db κ δ).nextLsn.1).logNew
            (.purge t.txn t.key) = ((({ db with purging := rest } : Db κ δ).nextLsn.1).logNew
              (.purge t.txn t.key)).prepend pre := by
          simp [logNew, nextLsn, logRecord, prepend]
        rw [hlog, applyDecision_prepend]
      · rfl

/-- An operation appends to the log and does not read it. -/
theorem step_prepend (a : Action κ δ) : (db.prepend pre).step a = (db.step a).prepend pre := by
  cases a with
  | begin policy => rfl
  | insert txn tuple => exact insert_prepend pre db txn tuple
  | update txn tuple => exact update_prepend pre db txn tuple
  | remove txn key => exact remove_prepend pre db txn key
  | commit txn => exact commit_prepend pre db txn
  | abort txn failsAfter => exact abort_prepend pre db txn failsAfter
  | retryAbort txn failsAfter =>
    have hmgr : (db.prepend pre).txMgr = db.txMgr := rfl
    simp only [step, retryAbort]
    rw [hmgr]
    split
    · exact finishAbort_prepend pre db txn failsAfter
    · rfl
  | pruneCommitted => rfl
  | vacuum => rfl
  | purge => exact purge_prepend pre db

end Db

/-! ## A log that founds the rows -/

section Founded

variable {log : List (LogRecord κ δ)} {rows : κ → Option (Tuple κ δ)} {clock : Nat}

/-- Rows that a log accounts for: each is what some committed transaction wrote, up to the
LSN of its pre-image. -/
structure Foundable (log : List (LogRecord κ δ)) (rows : κ → Option (Tuple κ δ)) (clock : Nat) :
    Prop where
  wf : LogWf log
  lsn : ∀ r ∈ log, r.lsn < clock
  rows : ∀ key c, rows key = some c → c.id = key ∧ (∀ l, c.preLsn = some l → l < clock) ∧
    ∃ v ∈ committedVersions log key, c.txnId = v.txnId

/-- The transaction left a row. -/
def LeftRow (rows : κ → Option (Tuple κ δ)) (t : Nat) : Prop :=
  ∃ key c, rows key = some c ∧ c.txnId = some t

/-- The record is the transaction's last write of a key. -/
def LastWrite (log : List (LogRecord κ δ)) (r : LogRecord κ δ) (v : Tuple κ δ) : Prop :=
  ∀ r' ∈ log, ∀ v', r'.written = some v' → v'.id = v.id → v'.txnId = v.txnId → r'.lsn ≤ r.lsn

/-- A write that leaves the row `c`, over nothing or over something of nobody's. -/
def foundingOp (c : Tuple κ δ) : Operation κ δ :=
  if c.preLsn = none then .add (c.txnId.getD 0) c
  else .mod (c.txnId.getD 0) { c with txnId := none } c

open Classical in
/-- The commits of the transactions that left rows stay, and so does one write of each
row. -/
noncomputable def foundOne (log : List (LogRecord κ δ)) (rows : κ → Option (Tuple κ δ))
    (r : LogRecord κ δ) : Option (LogRecord κ δ) :=
  match r.operation.commits with
  | some t => if LeftRow rows t then some r else none
  | none =>
    r.written.bind fun v => (rows v.id).bind fun c =>
      if c.txnId = v.txnId ∧ LastWrite log r v then some ⟨r.lsn, foundingOp c⟩ else none

noncomputable def foundation (log : List (LogRecord κ δ)) (rows : κ → Option (Tuple κ δ)) :
    List (LogRecord κ δ) :=
  log.filterMap (foundOne log rows)

omit [DecidableEq κ] in
theorem foundOne_cases {r r' : LogRecord κ δ} (h : foundOne log rows r = some r') :
    (∃ t, r.operation.commits = some t ∧ LeftRow rows t ∧ r' = r) ∨
      r.operation.commits = none ∧ ∃ v c, r.written = some v ∧ rows v.id = some c ∧
        c.txnId = v.txnId ∧ LastWrite log r v ∧ r' = ⟨r.lsn, foundingOp c⟩ := by
  unfold foundOne at h
  split at h
  · next t ht =>
      split at h
      · next hleft =>
          cases h
          exact Or.inl ⟨t, ht, hleft, rfl⟩
      · cases h
  · next hnone =>
      obtain ⟨v, hv, h⟩ := Option.bind_eq_some_iff.mp h
      obtain ⟨c, hc, h⟩ := Option.bind_eq_some_iff.mp h
      split at h
      · next hboth =>
          cases h
          exact Or.inr ⟨hnone, v, c, hv, hc, hboth.1, hboth.2, rfl⟩
      · cases h

omit [DecidableEq κ] in
theorem written_foundingOp (c : Tuple κ δ) (lsn : Nat) :
    LogRecord.written ⟨lsn, foundingOp c⟩ = some c := by
  unfold LogRecord.written foundingOp
  dsimp only
  split <;> rfl

omit [DecidableEq κ] in
theorem writer_foundingOp {c : Tuple κ δ} {t : Nat} (ht : c.txnId = some t) :
    (foundingOp c).writer = some t := by
  unfold foundingOp
  rw [ht]
  split <;> rfl

omit [DecidableEq κ] in
theorem commits_foundingOp (c : Tuple κ δ) : (foundingOp c).commits = none := by
  unfold foundingOp
  split <;> rfl

omit [DecidableEq κ] in
theorem undo_foundingOp (c : Tuple κ δ) : ∃ u, (foundingOp c).undo = some u ∧ u.key = c.id ∧
    (u.target = none ↔ c.preLsn = none) ∧ ∀ v, u.target = some v → v.txnId = none := by
  unfold foundingOp
  split
  · next hnone => exact ⟨.remove c.id, rfl, rfl, by simp [Undo.target, hnone], nofun⟩
  · next hsome =>
      refine ⟨.restore { c with txnId := none }, rfl, rfl, by simp [Undo.target, hsome], ?_⟩
      rintro v ⟨⟩
      rfl

omit [DecidableEq κ] in
private theorem exists_last {α : Type*} {p : α → Prop} {l : List α} (h : ∃ x ∈ l, p x) :
    ∃ before x after, l = before ++ x :: after ∧ p x ∧ ∀ y ∈ after, ¬ p y := by
  induction l with
  | nil =>
    obtain ⟨x, hx, -⟩ := h
    cases hx
  | cons a l ih =>
    by_cases hl : ∃ x ∈ l, p x
    · obtain ⟨before, x, after, rfl, hx, hafter⟩ := ih hl
      exact ⟨a :: before, x, after, rfl, hx, hafter⟩
    · obtain ⟨x, hx, hpx⟩ := h
      rcases List.mem_cons.mp hx with rfl | hx
      · exact ⟨[], x, l, rfl, hpx, fun y hy hpy => hl ⟨y, hy, hpy⟩⟩
      · exact absurd ⟨x, hx, hpx⟩ hl

omit [DecidableEq κ] in
private theorem filterMap_eq_singleton {α β : Type*} {f : α → Option β}
    {l before after : List α} {x : α} {y : β} (hl : l = before ++ x :: after) (hx : f x = some y)
    (hbefore : ∀ z ∈ before, f z = none) (hafter : ∀ z ∈ after, f z = none) :
    l.filterMap f = [y] := by
  rw [hl, List.filterMap_append, List.filterMap_cons_some hx,
    List.filterMap_eq_nil_iff.mpr hbefore, List.filterMap_eq_nil_iff.mpr hafter, List.nil_append]

/-- Every undo of a key is that of a version of the key. -/
theorem length_undosOn_le {l : List (LogRecord κ δ)}
    (h : ∀ r ∈ l, ∀ v, r.written = some v → RecordWf r v) (t : Nat) (key : κ) :
    (undosOn l t key).length ≤ (versionsOf l key).length := by
  induction l with
  | nil => exact Nat.le_refl _
  | cons r l ih =>
    have hundos := undosOn_append [r] l t key
    have hversions := versionsOf_append [r] l key
    rw [List.singleton_append] at hundos hversions
    rw [hundos, hversions, List.length_append, List.length_append]
    have hrest := ih fun r' hr' => h r' (List.mem_cons_of_mem _ hr')
    have hone : (undosOn [r] t key).length ≤ (versionsOf [r] key).length := by
      cases hu : undosOn [r] t key with
      | nil => exact Nat.zero_le _
      | cons u us =>
        have hsingle : (undosOn [r] t key).length ≤ 1 := by
          unfold undosOn undosOf
          exact Nat.le_trans (List.length_filter_le _ _) (List.length_filterMap_le _ _)
        obtain ⟨r', hr', v, -, hv, hid, -⟩ := record_of_undosOn
          (fun r' hr' v hv => h r' (List.mem_singleton.mp hr' ▸ List.mem_cons_self) v hv)
          (hu ▸ List.mem_cons_self : u ∈ undosOn [r] t key)
        rw [List.mem_singleton] at hr'
        subst hr'
        have hver : v ∈ versionsOf [r'] key :=
          DbInv.mem_versionsOf.mpr ⟨r', List.mem_singleton_self _, hv, hid⟩
        have hpos := List.length_pos_of_mem hver
        rw [hu] at hsingle
        omega
    omega

namespace Foundable

/-- A row's transaction wrote its key and committed. -/
theorem writer (h : Foundable log rows clock) {key : κ} {c : Tuple κ δ} (hc : rows key = some c) :
    ∃ t r v, c.txnId = some t ∧ r ∈ log ∧ r.operation.writer = some t ∧ r.written = some v ∧
      v.id = key ∧ v.txnId = some t ∧ ∃ ts, commitTs log t = some ts := by
  obtain ⟨-, -, v, hv, htxn⟩ := h.rows key c hc
  obtain ⟨hv, hcom⟩ := mem_committedVersions.mp hv
  obtain ⟨r, hr, hwr, hid⟩ := DbInv.mem_versionsOf.mp hv
  obtain ⟨t, ht⟩ := (h.wf.record r hr v hwr).txn
  have hvt := (h.wf.record r hr v hwr).writer.trans ht
  exact ⟨t, r, v, htxn.trans hvt, hr, ht, hwr, hid, hvt, (committedBy_iff hvt).mp hcom⟩

omit [DecidableEq κ] in
/-- The commits that stay are those of the transactions that left rows. -/
theorem commitTs_foundation (t : Nat) :
    (LeftRow rows t → commitTs (foundation log rows) t = commitTs log t) ∧
      (¬ LeftRow rows t → commitTs (foundation log rows) t = none) := by
  have hall : ∀ l : List (LogRecord κ δ),
      (LeftRow rows t → commitTs (l.filterMap (foundOne log rows)) t = commitTs l t) ∧
        (¬ LeftRow rows t → commitTs (l.filterMap (foundOne log rows)) t = none) := by
    intro l
    induction l with
    | nil => exact ⟨fun _ => rfl, fun _ => rfl⟩
    | cons r l ih =>
      cases hr : foundOne log rows r with
      | none =>
        rw [List.filterMap_cons_none hr]
        refine ⟨fun hleft => ?_, ih.2⟩
        have hne : r.operation.commits ≠ some t := by
          intro hcom
          simp [foundOne, hcom, hleft] at hr
        rw [ih.1 hleft]
        simp [commitTs, hne]
      | some r' =>
        rw [List.filterMap_cons_some hr]
        rcases foundOne_cases hr with ⟨t', hcom, hleft', rfl⟩ | ⟨hnone, v, c, -, -, -, -, rfl⟩
        · constructor
          · intro hleft
            have hrest := ih.1 hleft
            unfold commitTs at hrest ⊢
            rw [List.findSome?_cons, List.findSome?_cons, hrest]
          · intro hno
            have hne : r'.operation.commits ≠ some t := by
              rw [hcom]
              rintro ⟨⟩
              exact hno hleft'
            have hrest := ih.2 hno
            unfold commitTs at hrest ⊢
            rw [List.findSome?_cons, if_neg hne]
            exact hrest
        · have hskip : ∀ rest : List (LogRecord κ δ),
              commitTs (⟨r.lsn, foundingOp c⟩ :: rest) t = commitTs rest t := by
            intro rest
            simp [commitTs, commits_foundingOp]
          have hold : commitTs (r :: l) t = commitTs l t := by
            simp [commitTs, hnone]
          rw [hskip, hold]
          exact ih
  exact hall log

/-- The foundation writes each row once. -/
theorem versionsOf_foundation (h : Foundable log rows clock) (key : κ) :
    versionsOf (foundation log rows) key = (rows key).toList := by
  have hfound : ∀ r x, (foundOne log rows r).bind (fun r' =>
      r'.written.filter fun v => decide (v.id = key)) = some x →
      rows key = some x ∧ ∃ v, r.written = some v ∧ v.id = key ∧ x.txnId = v.txnId ∧
        LastWrite log r v := by
    intro r x hx
    obtain ⟨r', hr', hx⟩ := Option.bind_eq_some_iff.mp hx
    obtain ⟨hwritten, hid⟩ := Option.filter_eq_some_iff.mp hx
    rcases foundOne_cases hr' with ⟨t, hcom, -, rfl⟩ | ⟨-, v, c, hv, hc, htxn, hlast, rfl⟩
    · unfold LogRecord.written at hwritten
      rw [commits_eq hcom] at hwritten
      cases hwritten
    · rw [written_foundingOp] at hwritten
      cases hwritten
      have hkey : v.id = key := (h.rows _ _ hc).1.symm.trans (of_decide_eq_true hid)
      exact ⟨hkey ▸ hc, v, hv, hkey, htxn, hlast⟩
  unfold versionsOf foundation
  rw [List.filterMap_filterMap]
  cases hrow : rows key with
  | none =>
    rw [Option.toList_none, List.filterMap_eq_nil_iff]
    intro r _
    rw [Option.eq_none_iff_forall_ne_some]
    intro x hx
    rw [(hfound r x hx).1] at hrow
    cases hrow
  | some c =>
    obtain ⟨t, r₀, v₀, hct, hr₀, -, hv₀, hid₀, hvt₀, -⟩ := h.writer hrow
    obtain ⟨before, r, after, hlog, ⟨v, hv, hid, hvt⟩, hafter⟩ := exists_last
      (p := fun r : LogRecord κ δ => ∃ v, r.written = some v ∧ v.id = key ∧ v.txnId = some t)
      ⟨r₀, hr₀, v₀, hv₀, hid₀, hvt₀⟩
    have hlsn := h.wf.lsn
    rw [hlog, List.pairwise_append] at hlsn
    have hlast : LastWrite log r v := by
      intro r' hr' v' hv' hid' htxn'
      have hp : ∃ v, r'.written = some v ∧ v.id = key ∧ v.txnId = some t :=
        ⟨v', hv', hid'.trans hid, htxn'.trans hvt⟩
      rw [hlog] at hr'
      rcases List.mem_append.mp hr' with hr' | hr'
      · exact Nat.le_of_lt (hlsn.2.2 r' hr' r List.mem_cons_self)
      · rcases List.mem_cons.mp hr' with rfl | hr'
        · exact Nat.le_refl _
        · exact absurd hp (hafter r' hr')
    have hnone : r.operation.commits = none := by
      cases hop : r.operation.commits with
      | none => rfl
      | some t' =>
        unfold LogRecord.written at hv
        rw [commits_eq hop] at hv
        cases hv
    have hone : (foundOne log rows r).bind (fun r' =>
        r'.written.filter fun v => decide (v.id = key)) = some c := by
      have hfounds : foundOne log rows r = some ⟨r.lsn, foundingOp c⟩ := by
        simp [foundOne, hnone, hv, hid, hrow, hct, hvt, hlast]
      rw [hfounds, Option.bind_some, written_foundingOp, Option.filter_some,
        if_pos (decide_eq_true (h.rows key c hrow).1)]
    rw [Option.toList_some]
    refine filterMap_eq_singleton hlog hone ?_ ?_
    · intro y hy
      rw [Option.eq_none_iff_forall_ne_some]
      intro x hx
      obtain ⟨hcx, w, hw, hwid, hwtxn, hwlast⟩ := hfound y x hx
      rw [hrow] at hcx
      cases hcx
      have hr : r ∈ log := hlog ▸ List.mem_append_right _ List.mem_cons_self
      have hle := hwlast r hr v hv (hid.trans hwid.symm) (hvt.trans (hct.symm.trans hwtxn))
      have hlt := hlsn.2.2 y hy r List.mem_cons_self
      omega
    · intro y hy
      rw [Option.eq_none_iff_forall_ne_some]
      intro x hx
      obtain ⟨hcx, w, hw, hwid, hwtxn, -⟩ := hfound y x hx
      rw [hrow] at hcx
      cases hcx
      exact hafter y hy ⟨w, hw, hwid, hwtxn.symm.trans hct⟩

/-- A record of the foundation has the LSN of a record of the log, and keeps a commit or
writes a row. -/
theorem mem_foundation (h : Foundable log rows clock) {r : LogRecord κ δ}
    (hr : r ∈ foundation log rows) : (∃ r₀ ∈ log, r.lsn = r₀.lsn) ∧
      ((r ∈ log ∧ ∃ t, r.operation.commits = some t ∧ LeftRow rows t) ∨
        ∃ r₀ ∈ log, ∃ key c t, rows key = some c ∧ c.txnId = some t ∧
          r₀.operation.writer = some t ∧ r = ⟨r₀.lsn, foundingOp c⟩) := by
  obtain ⟨r₀, hr₀, hfound⟩ := List.mem_filterMap.mp hr
  rcases foundOne_cases hfound with ⟨t, hcom, hleft, rfl⟩ | ⟨-, v, c, hv, hc, htxn, -, rfl⟩
  · exact ⟨⟨r, hr₀, rfl⟩, Or.inl ⟨hr₀, t, hcom, hleft⟩⟩
  · obtain ⟨t, ht⟩ := (h.wf.record r₀ hr₀ v hv).txn
    have hct := htxn.trans ((h.wf.record r₀ hr₀ v hv).writer.trans ht)
    exact ⟨⟨r₀, hr₀, rfl⟩, Or.inr ⟨r₀, hr₀, v.id, c, t, hc, hct, ht, rfl⟩⟩

theorem recordWf_foundation (h : Foundable log rows clock) {r : LogRecord κ δ}
    (hr : r ∈ foundation log rows) {v : Tuple κ δ} (hv : r.written = some v) : RecordWf r v := by
  rcases (h.mem_foundation hr).2 with ⟨-, t, hcom, -⟩ | ⟨r₀, -, key, c, t, -, hct, -, rfl⟩
  · unfold LogRecord.written at hv
    rw [commits_eq hcom] at hv
    cases hv
  · rw [written_foundingOp] at hv
    cases hv
    obtain ⟨u, hu, hkey, htarget, -⟩ := undo_foundingOp v
    exact ⟨hct.trans (writer_foundingOp hct).symm, ⟨t, writer_foundingOp hct⟩, u, hu, hkey, htarget⟩

/-- A transaction that the foundation names left a row. -/
theorem leftRow_of_writer (h : Foundable log rows clock) {r : LogRecord κ δ} {t : Nat}
    (hr : r ∈ foundation log rows) (hw : r.operation.writer = some t) : LeftRow rows t := by
  rcases (h.mem_foundation hr).2 with ⟨-, t', hcom, -⟩ | ⟨r₀, -, key, c, t', hc, hct, -, rfl⟩
  · rw [commits_eq hcom] at hw
    cases hw
  · have heq : some t' = some t := (writer_foundingOp hct).symm.trans hw
    cases heq
    exact ⟨key, c, hc, hct⟩

theorem logOrdered_foundation (h : Foundable log rows clock) :
    LogOrdered (foundation log rows) := by
  have hwriter : ∀ r ∈ foundation log rows, ∀ t, r.operation.writer = some t →
      ∃ r₀ ∈ log, r.lsn = r₀.lsn ∧ r₀.operation.writer = some t := by
    intro r hr t hw
    rcases (h.mem_foundation hr).2 with ⟨-, t', hcom, -⟩ | ⟨r₀, hr₀, key, c, t', -, hct, hw₀, rfl⟩
    · rw [commits_eq hcom] at hw
      cases hw
    · have heq : some t' = some t := (writer_foundingOp hct).symm.trans hw
      cases heq
      exact ⟨r₀, hr₀, rfl, hw₀⟩
  constructor
  · intro r hr t hw
    obtain ⟨r₀, hr₀, hlsn, hw₀⟩ := hwriter r hr t hw
    rw [hlsn]
    exact h.wf.order.begun r₀ hr₀ t hw₀
  · intro r hr t c hw hc
    obtain ⟨r₀, hr₀, hlsn, hw₀⟩ := hwriter r hr t hw
    rw [(commitTs_foundation t).1 (h.leftRow_of_writer hr hw)] at hc
    rw [hlsn]
    exact h.wf.order.wrote r₀ hr₀ t c hw₀ hc

/-- The foundation writes a key at most once, over nothing of the writer's. -/
theorem undosOn_foundation (h : Foundable log rows clock) {t : Nat} {key : κ} {u : Undo κ δ}
    {rest : List (Undo κ δ)} (hu : undosOn (foundation log rows) t key = u :: rest) :
    (∀ v, u.target = some v → v.txnId ≠ some t) ∧ rest = [] := by
  constructor
  · intro v hv
    have hmem : u ∈ undosOn (foundation log rows) t key := hu ▸ List.mem_cons_self
    obtain ⟨r, hr, hru⟩ := List.mem_filterMap.mp (List.mem_of_mem_filter hmem)
    split at hru
    · rcases (h.mem_foundation hr).2 with ⟨-, t', hcom, -⟩ | ⟨r₀, -, -, c, -, -, -, -, rfl⟩
      · rw [commits_eq hcom] at hru
        cases hru
      · obtain ⟨u', hu', -, -, hnobody⟩ := undo_foundingOp c
        have heq : some u' = some u := hu'.symm.trans hru
        cases heq
        rw [hnobody v hv]
        exact nofun
    · cases hru
  · have hle := length_undosOn_le (fun r hr v hv => h.recordWf_foundation hr hv) t key
    rw [hu, h.versionsOf_foundation] at hle
    have hone : (rows key).toList.length ≤ 1 := by
      cases rows key with
      | none => exact Nat.zero_le _
      | some c => exact Nat.le_refl _
    rw [List.length_cons] at hle
    exact List.length_eq_zero_iff.mp (by omega)

theorem txnInv (h : Foundable log rows clock) {m : TransactionManager} (hclock : m.clock = clock)
    (hstates : ∀ t, m.states t = none) :
    TxnInv m (commitTs (foundation log rows)) (Wrote (foundation log rows)) := by
  have hstate : ∀ id st, m.states id ≠ some st := by
    intro id st hst
    rw [hstates] at hst
    cases hst
  -- a commit that stays is that of a transaction that wrote a row
  have hcommit : ∀ id c, commitTs (foundation log rows) id = some c →
      LeftRow rows id ∧ commitTs log id = some c := by
    intro id c hc
    by_cases hleft : LeftRow rows id
    · rw [(commitTs_foundation id).1 hleft] at hc
      exact ⟨hleft, hc⟩
    · rw [(commitTs_foundation id).2 hleft] at hc
      cases hc
  refine ⟨fun id hid => absurd (hstates id) hid, ?_, ?_, ?_, fun _ _ r _ hr =>
    absurd (hstates r) hr,
    fun _ _ _ hs => absurd hs (hstate _ _), fun _ _ _ hs => absurd hs (hstate _ _),
    fun _ _ hs => absurd hs (hstate _ _), fun _ hs => absurd hs (hstate _ _),
    fun _ _ hs => absurd hs (hstate _ _), fun _ _ _ _ _ _ hs => absurd hs (hstate _ _),
    fun _ _ hs => absurd hs (hstate _ _)⟩
  · rintro id ⟨r, hr, hw⟩
    have hlt := h.logOrdered_foundation.begun r hr id hw
    obtain ⟨r₀, hr₀, hlsn⟩ := (h.mem_foundation hr).1
    have hlt' := h.lsn r₀ hr₀
    omega
  · intro id c hc
    obtain ⟨⟨key, row, hrow, hid⟩, -⟩ := hcommit id c hc
    have hmem : row ∈ versionsOf (foundation log rows) key := by
      rw [h.versionsOf_foundation, hrow]
      exact List.mem_singleton_self _
    obtain ⟨r, hr, hwr, -⟩ := DbInv.mem_versionsOf.mp hmem
    exact ⟨r, hr, (h.recordWf_foundation hr hwr).writer.symm.trans hid⟩
  · intro id c hc
    obtain ⟨⟨key, row, hrow, hid⟩, hc⟩ := hcommit id c hc
    obtain ⟨t, r, v, ht, hr, hw, -, -, -, -⟩ := h.writer hrow
    rw [hid] at ht
    cases ht
    have hbegun := h.wf.order.begun r hr id hw
    have hwrote := h.wf.order.wrote r hr id c hw hc
    refine ⟨by omega, ?_⟩
    unfold commitTs at hc
    obtain ⟨r', hr', hres⟩ := List.exists_of_findSome?_eq_some hc
    split at hres
    · cases hres
      rw [hclock]
      exact h.lsn r' hr'
    · cases hres

theorem pairwise_foundation (h : Foundable log rows clock) :
    (foundation log rows).Pairwise fun r r' => r.lsn < r'.lsn := by
  have hlsn : ∀ r r', foundOne log rows r = some r' → r'.lsn = r.lsn := by
    intro r r' hr
    rcases foundOne_cases hr with ⟨-, -, -, rfl⟩ | ⟨-, -, -, -, -, -, -, rfl⟩
    · rfl
    · rfl
  unfold foundation
  rw [List.pairwise_filterMap]
  apply h.wf.lsn.imp
  intro a a' hlt b hb b' hb'
  rw [hlsn a b hb, hlsn a' b' hb']
  exact hlt

/-- A founded row is its key's only version. -/
theorem keyInv (h : Foundable log rows clock) {m : TransactionManager}
    (hstate : ∀ id st, m.states id ≠ some st) (key : κ) :
    KeyInv m (foundation log rows) (VersionStore.new : VersionStore κ δ).find key (rows key) []
      (rows key).toList [] := by
  have hfl : ∀ t, ¬ InFlight m t := by
    rintro t (⟨p, hp⟩ | hp)
    · exact hstate t _ hp
    · exact hstate t _ hp
  have hcommitted : ∀ c, rows key = some c → ∃ t ts, c.txnId = some t ∧
      commitTs (foundation log rows) t = some ts := by
    intro c hc
    obtain ⟨t, -, -, ht, -, -, -, -, -, ts, hts⟩ := h.writer hc
    exact ⟨t, ts, ht, ((commitTs_foundation t).1 ⟨key, c, hc, ht⟩).trans hts⟩
  refine ⟨?_, ?_, ?_, ?_, ?_, Or.inl rfl, nofun, nofun, fun t p hp => absurd hp (hstate t _),
    fun t v hin => absurd hin (hfl t)⟩
  · have hhead : (rows key).toList.head? = rows key := by
      cases rows key <;> rfl
    rw [hhead]
    exact Path.nil _
  · cases hrow : rows key with
    | none => exact Chain.nil
    | some c =>
      obtain ⟨t, ts, ht, hts⟩ := hcommitted c hrow
      cases hpre : c.preLsn with
      | none => exact Chain.first hpre
      | some l => exact Chain.cut hpre rfl ⟨t, ts, ht, hts, fun r p hr => absurd hr (hstate r _)⟩
  · intro v hv
    rw [List.nil_append, Option.mem_toList] at hv
    exact (h.rows key v hv).1
  · unfold committedVersions
    rw [h.versionsOf_foundation, List.append_nil]
    cases hrow : rows key with
    | none => rfl
    | some c =>
      obtain ⟨t, ts, ht, hts⟩ := hcommitted c hrow
      have hc : CommittedBy (commitTs (foundation log rows)) c := (committedBy_iff ht).mpr ⟨ts, hts⟩
      simp [hc]
  · cases rows key with
    | none => exact List.Pairwise.nil
    | some c => exact List.pairwise_singleton _ _

end Foundable

/-- A database that has just been recovered satisfies the invariant, with a log that founds
its rows. -/
theorem founded {db : Db κ δ} (h : Foundable log db.rows db.txMgr.clock)
    (hstates : ∀ t, db.txMgr.states t = none) (hversions : db.versions = .new)
    (hpurging : db.purging = []) : DbInv { db with log := foundation log db.rows } := by
  obtain ⟨m, versions, rows, olds, purging⟩ := db
  dsimp only at h hstates hversions hpurging ⊢
  subst hversions hpurging
  have hstate : ∀ id st, m.states id ≠ some st := by
    intro id st hst
    rw [hstates] at hst
    cases hst
  have hfl : ∀ t, ¬ InFlight m t := by
    rintro t (⟨p, hp⟩ | hp)
    · exact hstate t _ hp
    · exact hstate t _ hp
  constructor
  · exact h.txnInv rfl hstates
  · exact fun id c p => hstate id _
  · intro r hr
    obtain ⟨r₀, hr₀, hlsn⟩ := (h.mem_foundation hr).1
    rw [hlsn]
    exact h.lsn r₀ hr₀
  · exact h.pairwise_foundation
  · exact fun r hr v hv => h.recordWf_foundation hr hv
  · exact fun key => ⟨[], (rows key).toList, [], h.keyInv hstate key⟩
  · exact nofun
  · rintro v l (⟨key, hv⟩ | ⟨l', hl'⟩) hpre
    · exact (h.rows key v hv).2.1 l hpre
    · cases hl'
  · exact nofun
  · exact nofun
  · exact nofun
  · exact nofun
  · exact fun t ht => absurd ht (hfl t)
  · exact fun t ht => absurd ht (hfl t)
  · intro t key u rest hu
    obtain ⟨htarget, hrest⟩ := h.undosOn_foundation hu
    refine ⟨htarget, ?_⟩
    rw [hrest]
    exact nofun
  · exact nofun
  · exact nofun
  · exact nofun

end Founded

end SquealDb.Store
