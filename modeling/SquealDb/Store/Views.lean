import SquealDb.Lib.Overlay
import SquealDb.Store.RowStep
import SquealDb.Store.SnapshotReads

/-!
# What a transaction sees, as a map

Row by row, what an active transaction finds is what was committed as it began with its own
writes over it, and only a write of its own changes that. Its commit puts its writes over what
is committed then, which at the keys it wrote is still what it began with.
-/

namespace SquealDb.Store

open Lib

variable {κ δ : Type*} [DecidableEq κ]

/-- The transaction an action writes for. -/
def Action.writer : Action κ δ → Option Nat
  | .insert txn _ | .update txn _ | .remove txn _ => some txn
  | _ => none

namespace Db

/-- The data of the row that a version stands for. -/
def rowData (v : Option (Tuple κ δ)) : Option δ := (asRow v).map (·.data)

/-- What a transaction last wrote under a key: a row, or none. -/
def ownWrite (db : Db κ δ) (t : Nat) (key : κ) : Option (Option δ) :=
  (ownVersions db.log t key).getLast?.map fun v => rowData (some v)

/-- The row that was committed under a key as a transaction began. -/
def seenRow (db : Db κ δ) (t : Nat) (key : κ) : Option δ :=
  rowData (snapshotVersions db.log t key).getLast?

/-- The row that is committed under a key. -/
def committedRow (db : Db κ δ) (key : κ) : Option δ := rowData (lastCommitted db.log key)

/-- What a transaction finds. -/
def view (db : Db κ δ) (t : Nat) : κ → Option δ := overlay (db.ownWrite t) (db.seenRow t)

variable {db : Db κ δ} {t : Nat} {p : ConflictPolicy} {r : LogRecord κ δ} {key : κ}

theorem find_view (h : DbInv db) (ht : db.txMgr.states t = some (.active p)) (key : κ) :
    ∃ row, db.find t key = .ok row ∧ row.map (·.data) = db.view t key := by
  refine ⟨_, find_eq h ht key, ?_⟩
  unfold view overlay ownWrite
  cases (ownVersions db.log t key).getLast? with
  | none => rfl
  | some v => rfl

/-! ## Steps of others -/

omit [DecidableEq κ] in
theorem Quiet.record {db' : Db κ δ} (h : Quiet db db') (hlog : db'.log = db.log ++ [r]) :
    r.operation.writer = none ∧ r.operation.commits = none := by
  rcases h.log with heq | ⟨r', heq, -, hw, hc⟩
  · rw [heq] at hlog
    simp at hlog
  · rw [heq] at hlog
    rw [← List.singleton_injective (List.append_cancel_left hlog)]
    exact ⟨hw, hc⟩

theorem writeStep_record {db' : Db κ δ} {txn : Nat} (h : WriteStep db txn key db')
    (hlog : db'.log = db.log ++ [r]) :
    (r.operation.writer = none ∨ r.operation.writer = some txn) ∧ r.operation.commits = none := by
  cases h with
  | @wrote op v hw =>
    have heq : db.log ++ [⟨db.nextLsn.2, op⟩] = db.log ++ [r] := hlog
    rw [← List.singleton_injective (List.append_cancel_left heq)]
    exact ⟨Or.inr hw.writer, hw.commits_eq_none⟩
  | failed => exact ⟨Or.inl ((quiet_nextLsn db).record hlog).1, ((quiet_nextLsn db).record hlog).2⟩
  | aborted =>
    have hquiet := (quiet_nextLsn db).trans rfl (quiet_abort _ txn none)
    exact ⟨Or.inl (hquiet.record hlog).1, (hquiet.record hlog).2⟩

/-- The record that a step appends is of the step's own writer, and commits only where it does. -/
theorem step_record (h : DbInv db) (a : Action κ δ) (hlog : (db.step a).log = db.log ++ [r]) :
    (r.operation.writer = none ∨ r.operation.writer = a.writer) ∧
      ((∀ t, a ≠ .commit t) → r.operation.commits = none) := by
  have hsame : (db.step a).log ≠ db.log := by
    rw [hlog]
    simp
  have hcall : ∀ db' txn key, db'.log = db.log ++ [r] →
      (db' = db ∨ db.txMgr.isTransactionActive txn = true ∧ WriteStep db txn key db') →
      (r.operation.writer = none ∨ r.operation.writer = some txn) ∧
        r.operation.commits = none := by
    rintro db' txn key heq (rfl | ⟨-, hstep⟩)
    · simp at heq
    · exact writeStep_record hstep heq
  have hquiet : Quiet db (db.step a) → (r.operation.writer = none ∨ r.operation.writer = a.writer) ∧
      ((∀ t, a ≠ .commit t) → r.operation.commits = none) :=
    fun hq => ⟨Or.inl (hq.record hlog).1, fun _ => (hq.record hlog).2⟩
  cases a with
  | begin policy => exact absurd rfl hsame
  | insert txn tuple =>
    obtain ⟨hw, hc⟩ := hcall _ txn _ hlog (insert_step h.row_id txn tuple)
    exact ⟨hw, fun _ => hc⟩
  | update txn tuple =>
    obtain ⟨hw, hc⟩ := hcall _ txn _ hlog (update_step h.row_id txn tuple)
    exact ⟨hw, fun _ => hc⟩
  | remove txn key =>
    obtain ⟨hw, hc⟩ := hcall _ txn _ hlog (remove_step h.row_id txn key)
    exact ⟨hw, fun _ => hc⟩
  | commit txn =>
    obtain ⟨-, heq | ⟨p, c, -, heq⟩⟩ := commit_log db txn
    · exact absurd heq hsame
    · have hrec : db.log ++ [⟨c, .commit txn⟩] = db.log ++ [r] := heq.symm.trans hlog
      rw [← List.singleton_injective (List.append_cancel_left hrec)]
      exact ⟨Or.inl rfl, fun hno => absurd rfl (hno txn)⟩
  | abort txn failsAfter => exact hquiet (quiet_abort db txn failsAfter)
  | retryAbort txn failsAfter =>
    apply hquiet
    simp only [step, retryAbort]
    split
    · exact quiet_finishAbort db txn failsAfter
    · exact Quiet.refl db
  | pruneCommitted => exact absurd rfl hsame
  | vacuum => exact absurd rfl hsame
  | purge => exact hquiet (quiet_purge db)

/-- A step that is no write of a transaction leaves what it wrote. -/
theorem ownWrite_step (h : DbInv db) (a : Action κ δ) (ha : a.writer ≠ some t) (key : κ) :
    (db.step a).ownWrite t key = db.ownWrite t key := by
  unfold ownWrite
  suffices hown : ownVersions (db.step a).log t key = ownVersions db.log t key by rw [hown]
  have hinv := inv_step db a h
  rcases (step_spec db a h).log with heq | ⟨r, heq, -⟩
  · rw [heq]
  · have hwriter : r.operation.writer ≠ some t := by
      rcases (step_record h a heq).1 with hw | hw
      · rw [hw]
        exact nofun
      · rw [hw]
        exact ha
    rw [heq]
    unfold ownVersions
    cases hv : r.written with
    | none => rw [versionsOf_append_other _ _ _ hv]
    | some v =>
      by_cases hk : v.id = key
      · have hmem : r ∈ (db.step a).log := by
          rw [heq]
          simp
        rw [versionsOf_append_self _ _ hv hk, List.filter_append, List.filter_singleton,
          (hinv.recordWf r hmem v hv).writer, decide_eq_false hwriter]
        exact List.append_nil _
      · rw [versionsOf_append_of_ne _ _ hv hk]

theorem seenRow_step (h : DbInv db) (a : Action κ δ) (ht : t < db.txMgr.clock) (key : κ) :
    (db.step a).seenRow t key = db.seenRow t key := by
  unfold seenRow
  rw [(step_spec db a h).snapshotVersions_eq h ht key]

theorem committedVersions_append (h : DbInv db) (hr : RecordSpec db r)
    (hc : r.operation.commits = none)
    (hwf : ∀ v, r.written = some v → v.txnId = r.operation.writer)
    (hsome : ∀ v, r.written = some v → ∃ t, r.operation.writer = some t) (key : κ) :
    committedVersions (db.log ++ [r]) key = committedVersions db.log key := by
  unfold committedVersions
  rw [commitTs_append_other _ _ hc]
  cases hv : r.written with
  | none => rw [versionsOf_append_other _ _ _ hv]
  | some v =>
    by_cases hk : v.id = key
    · obtain ⟨t, ht⟩ := hsome v hv
      obtain ⟨⟨p, hp⟩, -⟩ := hr.write t ht
      have hactive : ¬CommittedBy (commitTs db.log) v := by
        rw [committedBy_iff ((hwf v hv).trans ht), h.txn.activeTs t p hp]
        rintro ⟨c, hc⟩
        exact nomatch hc
      rw [versionsOf_append_self _ _ hv hk, List.filter_append, List.filter_singleton,
        decide_eq_false hactive]
      exact List.append_nil _
    · rw [versionsOf_append_of_ne _ _ hv hk]

/-- Only a commit changes what is committed, and when. -/
theorem committed_step (h : DbInv db) (a : Action κ δ) (ha : ∀ t, a ≠ .commit t) :
    commitTs (db.step a).log = commitTs db.log ∧
      ∀ key, lastCommitted (db.step a).log key = lastCommitted db.log key := by
  have hinv := inv_step db a h
  rcases (step_spec db a h).log with heq | ⟨r, heq, hr⟩
  · rw [heq]
    exact ⟨rfl, fun _ => rfl⟩
  · have hmem : r ∈ (db.step a).log := by
      rw [heq]
      simp
    have hc := (step_record h a heq).2 ha
    rw [heq]
    refine ⟨commitTs_append_other _ _ hc, fun key => ?_⟩
    unfold lastCommitted
    rw [committedVersions_append h hr hc (fun v hv => (hinv.recordWf r hmem v hv).writer)
      (fun v hv => (hinv.recordWf r hmem v hv).txn) key]

theorem committedRow_step (h : DbInv db) (a : Action κ δ) (ha : ∀ t, a ≠ .commit t) (key : κ) :
    (db.step a).committedRow key = db.committedRow key := by
  rw [committedRow, (committed_step h a ha).2 key]
  rfl

/-! ## Commit -/

/-- What an active transaction wrote under a key is the part of its versions that is not
committed. -/
theorem ownVersions_eq (h : DbInv db) {own base older : List (Tuple κ δ)}
    (ht : db.txMgr.states t = some (.active p))
    (hk : KeyInv db.txMgr db.log db.versions.find key (db.rows key) own base older)
    (hwrote : WroteKey db.log t key) : ownVersions db.log t key = own.reverse := by
  obtain ⟨-, hby, hfilter⟩ := hk.active t p ht hwrote
  have hsub : ownVersions db.log t key =
      ((versionsOf db.log key).filter (fun v => decide (CommittedBy (commitTs db.log) v) ||
        decide (v.txnId = some t))).filter (fun v => decide (v.txnId = some t)) := by
    unfold ownVersions
    rw [List.filter_filter]
    refine List.filter_congr fun x _ => ?_
    cases hx : decide (x.txnId = some t) <;> simp
  rw [hsub, hfilter, List.filter_reverse, List.append_assoc, List.filter_append,
    List.filter_eq_self.mpr (fun x hx => by simp [hby x hx]),
    List.filter_eq_nil_iff.mpr, List.append_nil]
  intro x hx
  obtain ⟨-, hcom⟩ := hk.committed_of_mem hx
  simp only [decide_eq_true_eq]
  intro hxt
  rw [committedBy_iff hxt, h.txn.activeTs t p ht] at hcom
  obtain ⟨c, hc⟩ := hcom
  exact nomatch hc

theorem ownVersions_nil (h : ¬WroteKey db.log t key) :
    ownVersions db.log t key = [] := by
  unfold ownVersions
  rw [List.filter_eq_nil_iff]
  intro x hx hxt
  exact h ⟨x, hx, of_decide_eq_true hxt⟩

theorem wroteKey_of_ownWrite (h : db.ownWrite t key ≠ none) :
    WroteKey db.log t key := by
  by_contra hno
  apply h
  rw [ownWrite, ownVersions_nil hno]
  rfl

/-- Where a transaction wrote, nothing was committed since it began. -/
theorem committedRow_eq_seenRow (h : DbInv db) (ht : db.txMgr.states t = some (.active p))
    (hwrote : db.ownWrite t key ≠ none) :
    db.committedRow key = db.seenRow t key := by
  obtain ⟨own, base, older, hk⟩ := h.key key
  obtain ⟨hne, hby, -⟩ := hk.active t p ht (wroteKey_of_ownWrite hwrote)
  obtain ⟨u, hu⟩ := List.exists_mem_of_ne_nil _ hne
  suffices hsame : committedVersions db.log key = snapshotVersions db.log t key by
    unfold committedRow seenRow lastCommitted
    rw [hsame]
  unfold committedVersions snapshotVersions
  refine List.filter_congr fun v hv => ?_
  rw [Bool.eq_iff_iff, decide_eq_true_eq, decide_eq_true_eq]
  refine ⟨fun hc => ?_, SeenAt.committedBy⟩
  -- the holder's versions are built on everything committed
  have hmem : v ∈ base ++ older := by
    rw [← hk.history, List.mem_reverse, mem_committedVersions]
    exact ⟨hv, hc⟩
  have hord := hk.ordered
  rw [List.append_assoc, List.pairwise_append] at hord
  rcases hord.2.2 u hu v hmem with heq | ⟨wu, wv, c, hwu, hwv, hts, hlt⟩
  · rw [hby u hu] at heq
    rw [committedBy_iff heq.symm, h.txn.activeTs t p ht] at hc
    obtain ⟨c, hc⟩ := hc
    exact nomatch hc
  · rw [hby u hu] at hwu
    obtain rfl := Option.some.inj hwu
    exact (seenAt_iff hwv).mpr ⟨c, hts, hlt⟩

/-- The commit of an active transaction logs its record, or it wrote nothing. -/
theorem commit_log_active (h : DbInv db) (ht : db.txMgr.states t = some (.active p)) :
    (db.commit t).1.log = db.log ++ [⟨db.txMgr.clock, .commit t⟩] ∨
      ((db.commit t).1.log = db.log ∧ ¬Wrote db.log t) := by
  obtain ⟨db', heq, hcommit⟩ := db.commit_cases t
  rw [heq]
  cases hcommit with
  | refused hno => exact absurd ht (hno p)
  | logged => exact Or.inl rfl
  | silent hp hhas =>
    refine Or.inr ⟨rfl, fun hwrote => ?_⟩
    rw [(h.hasWrites t (Or.inl ⟨p, ht⟩)).mpr hwrote] at hhas
    cases hhas

/-- Where an active transaction wrote, its commit makes what it wrote last the version that was
committed last, at this moment; elsewhere it leaves what was. -/
theorem commit_lastCommitted (h : DbInv db) (ht : db.txMgr.states t = some (.active p)) (key : κ) :
    (∃ v, db.ownWrite t key = some (rowData (some v)) ∧ v.txnId = some t ∧
        lastCommitted (db.commit t).1.log key = some v ∧
        commitTs (db.commit t).1.log t = some db.txMgr.clock) ∨
      (db.ownWrite t key = none ∧
        lastCommitted (db.commit t).1.log key = lastCommitted db.log key) := by
  have hnone : commitTs db.log t = none := h.txn.activeTs t p ht
  rcases commit_log_active h ht with hlog | ⟨hlog, hno⟩
  · have hversions : committedVersions (db.commit t).1.log key =
        (versionsOf db.log key).filter fun v =>
          decide (CommittedBy (commitTs db.log) v) || decide (v.txnId = some t) := by
      unfold committedVersions
      rw [hlog, versionsOf_append_other _ _ _ rfl, commitTs_append_commit _ hnone]
      refine List.filter_congr fun v _ => ?_
      rw [Bool.eq_iff_iff, decide_eq_true_eq, Bool.or_eq_true, decide_eq_true_eq,
        decide_eq_true_eq]
      cases hv : v.txnId with
      | none => simp [CommittedBy, hv]
      | some w =>
        rw [committedBy_iff hv, committedBy_iff hv]
        by_cases hw : w = t
        · subst hw
          simp
        · simp [hw]
    obtain ⟨own, base, older, hk⟩ := h.key key
    by_cases hwrote : WroteKey db.log t key
    · obtain ⟨hne, hby, hfilter⟩ := hk.active t p ht hwrote
      obtain ⟨o, os, rfl⟩ := List.exists_cons_of_ne_nil hne
      have hown := ownVersions_eq h ht hk hwrote
      refine Or.inl ⟨o, ?_, hby o List.mem_cons_self, ?_, ?_⟩
      · rw [ownWrite, hown, List.getLast?_reverse]
        rfl
      · rw [lastCommitted, hversions, hfilter, List.getLast?_reverse]
        rfl
      · rw [hlog, commitTs_append_commit _ hnone]
        exact Function.update_self ..
    · refine Or.inr ⟨?_, ?_⟩
      · rw [ownWrite, ownVersions_nil hwrote]
        rfl
      · rw [lastCommitted, hversions, lastCommitted, committedVersions]
        congr 1
        refine List.filter_congr fun v hv => ?_
        have hother : v.txnId ≠ some t := fun heq => hwrote ⟨v, hv, heq⟩
        rw [decide_eq_false hother, Bool.or_false]
  · refine Or.inr ⟨?_, by rw [hlog]⟩
    by_contra hwrote
    obtain ⟨v, hv, hvt⟩ := wroteKey_of_ownWrite hwrote
    exact hno (h.wrote_of_wroteKey ⟨v, hv, hvt⟩)

/-- A commit puts the transaction's writes over what is committed. -/
theorem commit_committedRow (h : DbInv db) (ht : db.txMgr.states t = some (.active p)) :
    (db.commit t).1.committedRow = overlay (db.ownWrite t) db.committedRow := by
  funext key
  rcases commit_lastCommitted h ht key with ⟨v, hown, -, hlast, -⟩ | ⟨hown, hlast⟩
  · rw [overlay_written hown, committedRow, hlast]
  · rw [overlay_unwritten hown, committedRow, hlast]
    rfl

/-! ## Begin -/

/-- As a transaction begins, it sees what is committed and has written nothing. -/
theorem begin_view (h : DbInv db) (policy : ConflictPolicy) :
    (db.begin policy).1.seenRow (db.begin policy).2 = db.committedRow ∧
      (db.begin policy).1.ownWrite (db.begin policy).2 = fun _ => none := by
  constructor
  · funext key
    show rowData (snapshotVersions db.log db.txMgr.clock key).getLast? = _
    rw [snapshotVersions_begin h key]
    rfl
  · funext key
    have hno : ¬WroteKey db.log db.txMgr.clock key := by
      rintro ⟨v, hv, hvt⟩
      have hwrote : Wrote db.log db.txMgr.clock := h.wrote_of_wroteKey ⟨v, hv, hvt⟩
      exact absurd (h.txn.wroteLt _ hwrote) (Nat.lt_irrefl _)
    show (ownVersions db.log db.txMgr.clock key).getLast?.map _ = none
    rw [ownVersions_nil hno]
    rfl

end Db

end SquealDb.Store
