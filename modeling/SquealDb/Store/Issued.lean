import SquealDb.Store.Reclaim
import SquealDb.Store.RecoveredRows

/-!
# Numbers are issued once

Transaction ids and LSNs come from one counter.  A database that is opened seeds it from
the header of the last checkpoint, and recovery raises it past every number it finds in
the records it replays.  The header's counter is read after the pages were captured and
the transactions go on in the meantime, so the pages, the header and the log on disk are
of different instants; a crash may come between any two of them.
-/

namespace SquealDb.Store

open Lib

variable {κ δ : Type*}

/-- The numbers a version carries are below `n`. -/
structure Tuple.Below (v : Tuple κ δ) (n : Nat) : Prop where
  txnId : ∀ t, v.txnId = some t → t < n
  preLsn : ∀ l, v.preLsn = some l → l < n

theorem Tuple.Below.mono {v : Tuple κ δ} {n n' : Nat} (h : v.Below n) (hle : n ≤ n') :
    v.Below n' :=
  ⟨fun t ht => Nat.lt_of_lt_of_le (h.txnId t ht) hle,
    fun l hl => Nat.lt_of_lt_of_le (h.preLsn l hl) hle⟩

/-- The transaction an operation names. -/
def Operation.txn : Operation κ δ → Nat
  | .add txn _ | .mod txn _ _ | .del txn _ | .commit txn | .rollback txn | .purge txn _ => txn

/-- The versions an operation holds. -/
def Operation.tuples : Operation κ δ → List (Tuple κ δ)
  | .add _ post => [post]
  | .mod _ pre post => [pre, post]
  | .del _ pre => [pre]
  | _ => []

/-- A record is numbered after everything it says. -/
structure LogRecord.Latest (r : LogRecord κ δ) : Prop where
  txn : r.operation.txn < r.lsn
  tuples : ∀ v ∈ r.operation.tuples, v.Below (r.lsn + 1)

/-- Everything in memory carries numbers that were issued; what may reach a page carries
numbers below `n`. -/
structure Numbered (db : Db κ δ) (n : Nat) : Prop where
  bound : n ≤ db.txMgr.clock
  states : ∀ t, db.txMgr.states t ≠ none → t < db.txMgr.clock
  rows : ∀ key v, db.rows key = some v → v.id = key ∧ v.Below n
  preImages : ∀ l p, db.versions.preImages l = some p → p.tuple.Below n
  tombstones : ∀ e ∈ db.queued, e.txn < db.txMgr.clock

namespace Numbered

variable {db : Db κ δ} {n : Nat}

theorem new : Numbered (Db.new : Db κ δ) 1 where
  bound := Nat.le_refl _
  states _ ht := absurd rfl ht
  rows _ _ hv := nomatch hv
  preImages _ _ hp := nomatch hp
  tombstones _ he := nomatch he

/-- A step of the transaction table. -/
theorem withMgr (h : Numbered db n) {m : TransactionManager} (hclock : db.txMgr.clock ≤ m.clock)
    (hstates : ∀ t, m.states t ≠ none → t < m.clock) : Numbered { db with txMgr := m } n where
  bound := Nat.le_trans h.bound hclock
  states := hstates
  rows := h.rows
  preImages := h.preImages
  tombstones e he := Nat.lt_of_lt_of_le (h.tombstones e he) hclock

/-- A step of the table that writes one entry. -/
theorem setEntry (h : Numbered db n) {m : TransactionManager} {t : Nat} {state : Option TxnState}
    (hclock : db.txMgr.clock ≤ m.clock) (ht : t < m.clock)
    (hstates : m.states = Function.update db.txMgr.states t state) :
    Numbered { db with txMgr := m } n := by
  apply h.withMgr hclock
  intro r hr
  by_cases hrt : r = t
  · exact hrt ▸ ht
  · rw [hstates, Function.update_of_ne hrt] at hr
    exact Nat.lt_of_lt_of_le (h.states r hr) hclock

theorem nextLsn (h : Numbered db n) : Numbered db.nextLsn.1 n :=
  h.withMgr (Nat.le_succ _) fun t ht => Nat.lt_succ_of_lt (h.states t ht)

/-- The version store loses pre-images and moves tombstones. -/
theorem withVersions (h : Numbered db n) {s : VersionStore κ δ} {purging : List (Tombstone κ)}
    (hpre : ∀ l p, s.preImages l = some p → db.versions.preImages l = some p)
    (htombs : ∀ e ∈ s.tombstones ++ purging, e.txn < db.txMgr.clock) :
    Numbered { db with versions := s, purging := purging } n where
  bound := h.bound
  states := h.states
  rows := h.rows
  preImages l p hp := h.preImages l p (hpre l p hp)
  tombstones := htombs

/-- Rows are replaced by rows that are accounted for. -/
theorem withRows (h : Numbered db n) {rows : κ → Option (Tuple κ δ)}
    (hrows : ∀ key v, rows key = some v → v.id = key ∧ v.Below n) :
    Numbered { db with rows := rows } n :=
  { h with rows := hrows }

theorem active_lt (h : Numbered db n) {t : Nat} (ht : db.txMgr.isTransactionActive t = true) :
    t < db.txMgr.clock := by
  obtain ⟨p, hp⟩ := (db.txMgr.isTransactionActive_iff t).mp ht
  exact h.states t (by simp [hp])

end Numbered

/-- What an operation may do: leave the log alone, or append a record whose number was not
issued before. -/
structure Issues (db db' : Db κ δ) (n : Nat) : Prop where
  clock : db.txMgr.clock ≤ db'.txMgr.clock
  log : (db'.log = db.log ∧ Numbered db' n) ∨
    ∃ r, db'.log = db.log ++ [r] ∧ db.txMgr.clock ≤ r.lsn ∧ r.lsn < db'.txMgr.clock ∧
      r.Latest ∧ Numbered db' (max n (r.lsn + 1))

namespace Issues

variable {db db' : Db κ δ} {n : Nat}

theorem refl (h : Numbered db n) : Issues db db n := ⟨Nat.le_refl _, Or.inl ⟨rfl, h⟩⟩

theorem silent (h : Numbered db' n) (hclock : db.txMgr.clock ≤ db'.txMgr.clock)
    (hlog : db'.log = db.log) : Issues db db' n :=
  ⟨hclock, Or.inl ⟨hlog, h⟩⟩

/-- What comes before the record is silent. -/
theorem after {db₀ : Db κ δ} (h : Issues db db' n) (hclock : db₀.txMgr.clock ≤ db.txMgr.clock)
    (hlog : db.log = db₀.log) : Issues db₀ db' n := by
  refine ⟨Nat.le_trans hclock h.clock, ?_⟩
  rw [← hlog]
  rcases h.log with hsame | ⟨r, hr, hle, hrest⟩
  · exact Or.inl hsame
  · exact Or.inr ⟨r, hr, Nat.le_trans hclock hle, hrest⟩

/-- What comes after the record takes no number along. -/
theorem andThen {db'' : Db κ δ} (h : Issues db db' n) (hlog : db''.log = db'.log)
    (hclock : db''.txMgr.clock = db'.txMgr.clock) (hthen : ∀ m, Numbered db' m → Numbered db'' m) :
    Issues db db'' n := by
  refine ⟨hclock.symm ▸ h.clock, ?_⟩
  rw [hlog, hclock]
  rcases h.log with ⟨hsame, hn⟩ | ⟨r, hr, hle, hlt, hlatest, hn⟩
  · exact Or.inl ⟨hsame, hthen _ hn⟩
  · exact Or.inr ⟨r, hr, hle, hlt, hlatest, hthen _ hn⟩

end Issues

/-! ## The operations -/

/-- The record of a write holds its version and the one it replaced. -/
theorem WriteSpec.latest {m : TransactionManager} {txn lsn : Nat} {key : κ}
    {current : Option (Tuple κ δ)} {op : Operation κ δ} {v : Tuple κ δ}
    (hw : WriteSpec m txn lsn key current op v) (ht : txn < lsn) (hv : v.Below (lsn + 1))
    (hcurrent : ∀ c, current = some c → c.Below (lsn + 1)) : LogRecord.Latest ⟨lsn, op⟩ := by
  have hwriter := hw.writer
  have hwritten := hw.written
  obtain ⟨u, hu, -, htarget⟩ := hw.undo
  cases op with
  | add t post =>
    cases hwriter
    cases hwritten
    refine ⟨ht, fun x hx => ?_⟩
    rw [List.mem_singleton.mp hx]
    exact hv
  | mod t pre post =>
    cases hwriter
    cases hwritten
    cases hu
    refine ⟨ht, fun x hx => ?_⟩
    rcases List.mem_cons.mp hx with rfl | hx
    · exact hcurrent x htarget.symm
    · rw [List.mem_singleton.mp hx]
      exact hv
  | del t pre =>
    cases hwriter
    cases hu
    refine ⟨ht, fun x hx => ?_⟩
    rw [List.mem_singleton.mp hx]
    exact hcurrent pre htarget.symm
  | commit t => cases hwriter
  | rollback t => cases hwriter
  | purge t k => cases hwriter

/-- Discarding transactions only loses pre-images. -/
theorem VersionStore.discardAll_subset (ids : List Nat) (s : VersionStore κ δ) :
    (∀ l p, (ids.foldl (fun s t => (s.discard t).1) s).preImages l = some p →
      s.preImages l = some p) ∧
      (ids.foldl (fun s t => (s.discard t).1) s).tombstones = s.tombstones := by
  induction ids generalizing s with
  | nil => exact ⟨fun _ _ hp => hp, rfl⟩
  | cons t ids ih =>
    obtain ⟨hpre, htombs⟩ := ih (s.discard t).1
    refine ⟨fun l p hp => ?_, htombs.trans (VersionStore.tombstones_discard s t)⟩
    have hone := hpre l p hp
    rw [VersionStore.preImages_discard] at hone
    split at hone
    · cases hone
    · exact hone

theorem VersionStore.vacuum_subset (s : VersionStore κ δ) (horizon : Option Nat) :
    (∀ l p, (s.vacuum horizon).1.preImages l = some p → s.preImages l = some p) ∧
      (∀ e ∈ (s.vacuum horizon).1.tombstones, e ∈ s.tombstones) ∧
      ∀ e ∈ (s.vacuum horizon).2.tombstones, e ∈ s.tombstones := by
  have heq : (s.vacuum horizon).1 = _ :=
    forgetAll_eq (s.committed.filter fun e => reclaimable horizon e.1) { s with
      committed := s.committed.filter fun e => !reclaimable horizon e.1
      tombstones := s.tombstones.filter fun t => !reclaimable horizon t.commitTs }
  obtain ⟨hpre, htombs⟩ := discardAll_subset (s.forgottenBy horizon) { s with
      committed := s.committed.filter fun e => !reclaimable horizon e.1
      tombstones := s.tombstones.filter fun t => !reclaimable horizon t.commitTs }
  refine ⟨?_, ?_, fun e he => List.mem_of_mem_filter he⟩
  · rw [heq]
    exact hpre
  · rw [heq]
    intro e he
    exact List.mem_of_mem_filter (htombs ▸ he)

namespace Numbered

variable {db : Db κ δ} {n : Nat}

/-- A record under an LSN of its own. -/
theorem logNew (h : Numbered db n) {op : Operation κ δ} (htxn : op.txn < db.txMgr.clock)
    (htuples : op.tuples = []) : Issues db (db.logNew op) n := by
  refine ⟨Nat.le_succ _, Or.inr ⟨⟨db.txMgr.clock, op⟩, rfl, Nat.le_refl _, Nat.lt_succ_self _,
    ⟨htxn, ?_⟩, ?_⟩⟩
  · intro v hv
    dsimp only at hv
    rw [htuples] at hv
    cases hv
  · have hnext := h.nextLsn
    exact ⟨Nat.max_le.mpr ⟨hnext.bound, Nat.le_refl _⟩, hnext.states,
      fun key v hv => ⟨(h.rows key v hv).1, (h.rows key v hv).2.mono (Nat.le_max_left _ _)⟩,
      fun l p hp => (h.preImages l p hp).mono (Nat.le_max_left _ _), hnext.tombstones⟩

theorem begin (h : Numbered db n) (policy : ConflictPolicy) : Numbered (db.begin policy).1 n :=
  h.setEntry (Nat.le_succ _) (Nat.lt_succ_self _) rfl

theorem pruneCommitted (h : Numbered db n) : Numbered db.pruneCommitted n := by
  obtain ⟨hpre, htombs⟩ := VersionStore.discardAll_subset db.txMgr.pruneCommitted.2 db.versions
  have hstates : ∀ t, db.txMgr.pruneCommitted.1.states t ≠ none → t < db.txMgr.clock := by
    intro t ht
    apply h.states t
    intro hnone
    apply ht
    show (db.txMgr.states t).filter _ = none
    rw [hnone]
    rfl
  have hmgr : Numbered { db with txMgr := db.txMgr.pruneCommitted.1 } n :=
    h.withMgr (Nat.le_refl _) hstates
  apply hmgr.withVersions hpre
  rw [htombs]
  exact h.tombstones

theorem vacuum (h : Numbered db n) : Numbered db.vacuum n := by
  obtain ⟨hpre, hwaiting, hreleased⟩ :=
    VersionStore.vacuum_subset db.versions (some db.txMgr.horizon)
  apply h.withVersions hpre
  intro e he
  apply h.tombstones
  rcases List.mem_append.mp he with he | he
  · exact List.mem_append_left _ (hwaiting e he)
  · rcases List.mem_append.mp he with he | he
    · exact List.mem_append_right _ he
    · exact List.mem_append_left _ (hreleased e he)

theorem delete [DecidableEq κ] (h : Numbered db n) (key : κ) :
    Numbered (db.applyDecision key .delete) n := by
  apply h.withRows
  intro k v hv
  by_cases hk : k = key
  · subst hk
    simp at hv
  · rw [Function.update_of_ne hk] at hv
    exact h.rows k v hv

/-- A purge removes a row, or changes nothing on the page. -/
theorem purge [DecidableEq κ] (h : Numbered db n) : Issues db db.purge n := by
  unfold Db.purge
  cases hq : db.purging with
  | nil => exact Issues.refl h
  | cons t rest =>
    dsimp only
    have ht : t.txn < db.txMgr.clock := by
      apply h.tombstones
      apply List.mem_append_right
      rw [hq]
      exact List.mem_cons_self
    have hrest : Numbered { db with purging := rest }.nextLsn.1 n := by
      apply Numbered.nextLsn
      apply h.withVersions
      · exact fun _ _ hp => hp
      · intro e he
        apply h.tombstones e
        rcases List.mem_append.mp he with he | he
        · exact List.mem_append_left _ he
        · apply List.mem_append_right
          rw [hq]
          exact List.mem_cons_of_mem _ he
    split
    · have hlogged : Issues _ (Db.logNew _ (.purge t.txn t.key)) n :=
        hrest.logNew (Nat.lt_succ_of_lt ht) rfl
      have hclock : db.txMgr.clock ≤ { db with purging := rest }.nextLsn.1.txMgr.clock :=
        Nat.le_succ _
      apply Issues.after _ hclock rfl
      exact hlogged.andThen rfl rfl fun m hm => hm.delete t.key
    · exact Issues.silent hrest (Nat.le_succ _) rfl

theorem mono (h : Numbered db n) {m : Nat} (hle : n ≤ m) (hm : m ≤ db.txMgr.clock) :
    Numbered db m where
  bound := hm
  states := h.states
  rows key v hv := ⟨(h.rows key v hv).1, (h.rows key v hv).2.mono hle⟩
  preImages l p hp := (h.preImages l p hp).mono hle
  tombstones := h.tombstones

theorem relog (h : Numbered db n) {log : List (LogRecord κ δ)} :
    Numbered { db with log := log } n :=
  ⟨h.bound, h.states, h.rows, h.preImages, h.tombstones⟩

theorem markCommitted (h : Numbered db n) {txn : Nat} (hlt : txn < db.txMgr.clock)
    {written : List (Written κ)} (hw : db.versions.byTxn txn = some written) (commitTs : Nat) :
    Numbered { db with versions := db.versions.markCommitted txn commitTs } n := by
  rw [VersionStore.markCommitted_of_some hw]
  apply h.withVersions
  · exact fun _ _ hp => hp
  · intro e he
    simp only [List.mem_append] at he
    rcases he with (he | he) | he
    · exact h.tombstones e (List.mem_append_left _ he)
    · obtain ⟨l, -, hl⟩ := List.mem_filterMap.mp he
      split at hl
      · split at hl
        · cases hl
          exact hlt
        · cases hl
      · cases hl
    · exact h.tombstones e (List.mem_append_right _ he)

theorem commit (h : Numbered db n) (txn : Nat) : Issues db (db.commit txn).1 n := by
  obtain ⟨db', heq, hcommit⟩ := db.commit_cases txn
  rw [heq]
  have hactive : ∀ {p}, db.txMgr.states txn = some (.active p) → txn < db.txMgr.clock :=
    fun hp => h.states txn (by simp [hp])
  cases hcommit with
  | refused => exact Issues.refl h
  | @logged p m hp hhas hbegin hclock hstates =>
    obtain ⟨written, hw⟩ := VersionStore.hasWrites_iff.mp hhas
    have hlt := hactive hp
    have hdone : Numbered { db with
        txMgr := m.finishCommit txn true
        versions := db.versions.markCommitted txn db.txMgr.clock
        log := db.log ++ [⟨db.txMgr.clock, .commit txn⟩] } n := by
      refine (h.markCommitted hlt hw db.txMgr.clock).relog.setEntry ?_ ?_ hstates
      · exact Nat.le_trans (Nat.le_succ _) (Nat.le_of_eq hclock.symm)
      · exact Nat.lt_of_lt_of_eq (Nat.lt_succ_of_lt hlt) hclock.symm
    have hnew := Nat.le_of_eq hclock.symm
    refine ⟨Nat.le_trans (Nat.le_succ _) hnew, Or.inr ⟨⟨db.txMgr.clock, .commit txn⟩, rfl,
      Nat.le_refl _, hnew, ⟨hlt, by intros; contradiction⟩, hdone.mono (Nat.le_max_left _ _) ?_⟩⟩
    exact Nat.max_le.mpr ⟨hdone.bound, hnew⟩
  | silent hp hhas hm hclock hstates =>
    have hnew := Nat.le_trans (Nat.le_succ _) (Nat.le_of_eq hclock.symm)
    exact Issues.silent (h.setEntry hnew (Nat.lt_of_lt_of_le (hactive hp) hnew) hstates) hnew rfl

/-- An undo restores a pre-image, or removes a row. -/
theorem revertOne [DecidableEq κ] (h : Numbered db n) (txn : Nat) {u : Undo κ δ}
    (hu : ∀ pre, u = .restore pre → pre.Below n) : Numbered (Db.revertOne txn db u) n := by
  have hset : ∀ key row, (∀ v, row = some v → v.id = key ∧ v.Below n) →
      Numbered { db.nextLsn.1 with rows := Function.update db.rows key row } n := by
    intro key row hrow
    apply h.nextLsn.withRows
    intro k v hv
    by_cases hk : k = key
    · subst hk
      rw [Function.update_self] at hv
      exact hrow v hv
    · rw [Function.update_of_ne hk] at hv
      exact h.rows k v hv
  unfold Db.revertOne
  dsimp only
  split
  · split
    · exact hset _ none nofun
    · exact h.nextLsn
  · exact hset _ none nofun
  · next pre cur hcur =>
      split
      · refine hset _ (some pre) ?_
        intro v hv
        cases hv
        exact ⟨rfl, hu _ rfl⟩
      · exact h.nextLsn
  · exact h.nextLsn

theorem revertAll [DecidableEq κ] (h : Numbered db n) (txn : Nat) {us : List (Undo κ δ)}
    (hus : ∀ pre, .restore pre ∈ us → pre.Below n) :
    Numbered (us.foldl (Db.revertOne txn) db) n ∧
      db.txMgr.clock ≤ (us.foldl (Db.revertOne txn) db).txMgr.clock := by
  induction us generalizing db with
  | nil => exact ⟨h, Nat.le_refl _⟩
  | cons u us ih =>
    have hone : Numbered (Db.revertOne txn db u) n := by
      apply h.revertOne txn
      rintro pre rfl
      exact hus pre List.mem_cons_self
    have hclock : db.txMgr.clock ≤ (Db.revertOne txn db u).txMgr.clock := by
      rw [revertOne_eq]
      exact Nat.le_succ _
    obtain ⟨hrest, hle⟩ := ih hone fun pre hpre => hus pre (List.mem_cons_of_mem _ hpre)
    exact ⟨hrest, Nat.le_trans hclock hle⟩

theorem below_of_undoOf (h : Numbered db n) {txn : Nat} {pre : Tuple κ δ}
    (hpre : .restore pre ∈ db.versions.undoOf txn) : pre.Below n := by
  obtain ⟨w, -, hw⟩ := List.mem_filterMap.mp hpre
  cases w with
  | inserted key => cases hw
  | replaced l =>
    simp only [VersionStore.undoEntry, VersionStore.find, Option.map_map, Option.map_eq_some_iff,
      Function.comp_apply, Undo.restore.injEq] at hw
    obtain ⟨p, hp, rfl⟩ := hw
    exact h.preImages l p hp

theorem revert [DecidableEq κ] (h : Numbered db n) (txn : Nat) (steps : Option Nat) :
    Numbered (db.revert txn steps) n ∧ db.txMgr.clock ≤ (db.revert txn steps).txMgr.clock ∧
      (db.revert txn steps).log = db.log := by
  have hmem : ∀ u ∈ (steps.map (db.versions.undoOf txn).reverse.take).getD
      (db.versions.undoOf txn).reverse, u ∈ db.versions.undoOf txn := by
    intro u hu
    cases steps with
    | none => exact List.mem_reverse.mp hu
    | some k => exact List.mem_reverse.mp (List.mem_of_mem_take hu)
  obtain ⟨hall, hclock⟩ := h.revertAll txn fun pre hpre => h.below_of_undoOf (hmem _ hpre)
  exact ⟨hall, hclock, (revert_fields txn _ db).1⟩

/-- The entry of an aborted transaction changes, or goes with its records. -/
theorem endAbort (h : Numbered db n) {t : Nat} (ht : t < db.txMgr.clock) (wrote : Bool) :
    Numbered (if (db.txMgr.abortComplete t wrote).2 then
        { db with
          txMgr := (db.txMgr.abortComplete t wrote).1
          versions := (db.versions.discard t).1 }
      else { db with txMgr := (db.txMgr.abortComplete t wrote).1 }) n := by
  have hclock := (Db.quiet_abortComplete db.txMgr t wrote).1
  have hmgr : ∀ state, (db.txMgr.abortComplete t wrote).1.states =
      Function.update db.txMgr.states t state →
      Numbered { db with txMgr := (db.txMgr.abortComplete t wrote).1 } n := fun state hstates =>
    h.setEntry (Nat.le_of_eq hclock.symm) (hclock.symm ▸ ht) hstates
  rcases Reclaims.abortComplete_states db.txMgr t wrote with ⟨hkept, hstates⟩ | ⟨hgone, hstates⟩
  · rw [hkept]
    exact hmgr _ hstates
  · rw [hgone]
    obtain ⟨hpre, htombs⟩ := VersionStore.discardAll_subset [t] db.versions
    apply (hmgr _ hstates).withVersions hpre
    intro e he
    apply (hmgr _ hstates).tombstones e
    rw [htombs] at he
    exact he

theorem completeAbort (h : Numbered db n) {t : Nat} (ht : t < db.txMgr.clock) (wrote : Bool) :
    Issues db (db.completeAbort t wrote) n := by
  have hlogged : Issues db (if wrote then db.logNew (.rollback t) else db) n := by
    split
    · exact h.logNew ht rfl
    · exact Issues.refl h
  have hlt := Nat.lt_of_lt_of_le ht hlogged.clock
  unfold Db.completeAbort
  dsimp only
  generalize (if wrote then db.logNew (.rollback t) else db) = db' at hlogged hlt ⊢
  have hclock := (Db.quiet_abortComplete db'.txMgr t wrote).1
  apply hlogged.andThen
  · split <;> rfl
  · split
    · exact hclock
    · exact hclock
  · exact fun m hm => hm.endAbort hlt wrote

section Writes

variable [DecidableEq κ]

theorem finishAbort (h : Numbered db n) {t : Nat} (ht : t < db.txMgr.clock)
    (failsAfter : Option Nat) : Issues db (db.finishAbort t failsAfter) n := by
  unfold Db.finishAbort
  split
  · obtain ⟨hrev, hclock, hlog⟩ := h.revert t failsAfter
    exact Issues.silent hrev hclock hlog
  · obtain ⟨hrev, hclock, hlog⟩ := h.revert t none
    exact (hrev.completeAbort (Nat.lt_of_lt_of_le ht hclock) _).after hclock hlog

theorem abort (h : Numbered db n) (t : Nat) (failsAfter : Option Nat) :
    Issues db (db.abort t failsAfter) n := by
  obtain ⟨db', heq, habort⟩ := db.abort_cases t failsAfter
  rw [heq]
  have hactive : ∀ {p}, db.txMgr.states t = some (.active p) → t < db.txMgr.clock :=
    fun hp => h.states t (by simp [hp])
  cases habort with
  | refused => exact Issues.refl h
  | forgotten hp hhas hend hclock hstates =>
    have hle := Nat.le_of_eq hclock.symm
    exact Issues.silent (h.setEntry hle (Nat.lt_of_lt_of_le (hactive hp) hle) hstates) hle rfl
  | @reverted p m hp hhas hm hclock hstates =>
    have hle := Nat.le_of_eq hclock.symm
    have hlt := Nat.lt_of_lt_of_le (hactive hp) hle
    have hmarked : Numbered { db with txMgr := m } n := h.setEntry hle hlt hstates
    exact (hmarked.finishAbort hlt failsAfter).after hle rfl

/-- A write stamps its version with its transaction and its own LSN, and keeps the version
it replaced. -/
theorem write (h : Numbered db n) {txn : Nat} (ht : txn < db.txMgr.clock) {key : κ}
    {op : Operation κ δ} {v : Tuple κ δ}
    (hw : WriteSpec db.nextLsn.1.txMgr txn db.nextLsn.2 key (db.rows key) op v) :
    Issues db (db.nextLsn.1.write db.nextLsn.2 key op v) n := by
  have hbelow : v.Below (db.txMgr.clock + 1) := by
    constructor
    · intro t hvt
      rw [hw.txnId] at hvt
      cases hvt
      exact Nat.lt_succ_of_lt ht
    · intro l hl
      rcases hw.replaces with ⟨-, hnone, -⟩ | ⟨-, -, -, -, -, hsome, -⟩
      · rw [hnone] at hl
        cases hl
      · rw [hsome] at hl
        cases hl
        exact Nat.lt_succ_self _
  have hcurrent : ∀ c, db.rows key = some c → c.Below (db.txMgr.clock + 1) := fun c hc =>
    (h.rows key c hc).2.mono (Nat.le_succ_of_le h.bound)
  have hmax : max n (db.txMgr.clock + 1) = db.txMgr.clock + 1 :=
    Nat.max_eq_right (Nat.le_succ_of_le h.bound)
  refine ⟨Nat.le_succ _, Or.inr ⟨⟨db.txMgr.clock, op⟩, rfl, Nat.le_refl _, Nat.lt_succ_self _,
    hw.latest ht hbelow hcurrent, ?_⟩⟩
  dsimp only
  rw [hmax]
  have hold := h.nextLsn.mono (Nat.le_succ_of_le h.bound) (Nat.le_refl _)
  obtain ⟨htombs, hpre⟩ : (db.versions.insert db.nextLsn.2 op).tombstones =
      db.versions.tombstones ∧ ∀ l p, (db.versions.insert db.nextLsn.2 op).preImages l = some p →
        db.versions.preImages l = some p ∨ db.rows key = some p.tuple := by
    rcases hw.replaces with ⟨-, -, hins⟩ | ⟨c, w, hc, -, -, -, deleted, hins⟩
    · rw [hins]
      exact ⟨rfl, fun _ _ hp => Or.inl hp⟩
    · rw [hins]
      refine ⟨rfl, fun l p hp => ?_⟩
      by_cases hl : l = db.nextLsn.2
      · subst hl
        simp only [VersionStore.push, VersionStore.keepPreImage, Function.update_self,
          Option.some.injEq] at hp
        rw [← hp]
        exact Or.inr hc
      · simp only [VersionStore.push, VersionStore.keepPreImage, Function.update_of_ne hl] at hp
        exact Or.inl hp
  constructor
  · exact hold.bound
  · exact hold.states
  · intro k x hx
    by_cases hk : k = key
    · subst hk
      simp only [Db.write, Function.update_self, Option.some.injEq] at hx
      rw [← hx]
      exact ⟨hw.id, hbelow⟩
    · simp only [Db.write, Function.update_of_ne hk] at hx
      exact hold.rows k x hx
  · intro l p hp
    rcases hpre l p hp with hp' | hrow
    · exact hold.preImages l p hp'
    · exact hcurrent p.tuple hrow
  · intro e he
    have he' : e ∈ (db.versions.insert db.nextLsn.2 op).tombstones ++ db.purging := he
    rw [htombs] at he'
    exact hold.tombstones e he'

theorem writeStep (h : Numbered db n) {db' : Db κ δ} {txn : Nat} {key : κ}
    (hstep : db' = db ∨ db.txMgr.isTransactionActive txn = true ∧ Db.WriteStep db txn key db') :
    Issues db db' n := by
  rcases hstep with rfl | ⟨hact, hstep⟩
  · exact Issues.refl h
  · cases hstep with
    | wrote hw => exact h.write (h.active_lt hact) hw
    | failed => exact Issues.silent h.nextLsn (Nat.le_succ _) rfl
    | aborted => exact (h.nextLsn.abort txn none).after (Nat.le_succ _) rfl

/-- What an operation leaves carries numbers that are accounted for. -/
theorem step (h : Numbered db n) (a : Action κ δ) : Issues db (db.step a) n := by
  have hid : ∀ key c, db.rows key = some c → c.id = key := fun key c hc => (h.rows key c hc).1
  cases a with
  | begin policy => exact Issues.silent (h.begin policy) (Nat.le_succ _) rfl
  | insert txn tuple => exact h.writeStep (Db.insert_step hid txn tuple)
  | update txn tuple => exact h.writeStep (Db.update_step hid txn tuple)
  | remove txn key => exact h.writeStep (Db.remove_step hid txn key)
  | commit txn => exact h.commit txn
  | abort txn failsAfter => exact h.abort txn failsAfter
  | retryAbort txn failsAfter =>
    simp only [Db.step, Db.retryAbort]
    split
    · next hab => exact h.finishAbort (h.states txn (by simp [hab])) failsAfter
    · exact Issues.refl h
  | pruneCommitted => exact Issues.silent h.pruneCommitted (Nat.le_refl _) rfl
  | vacuum => exact Issues.silent h.vacuum (Nat.le_refl _) rfl
  | purge => exact h.purge

end Writes

end Numbered

/-! ## Pages, header and log -/

/-- A record of the log: one of the store's, or a `Sequence` record of the generator, of
which only the LSN matters here. -/
inductive LogLine (κ δ : Type*) where
  | record (r : LogRecord κ δ)
  | sequence (lsn : Nat)

namespace LogLine

def lsn : LogLine κ δ → Nat
  | .record r => r.lsn
  | .sequence lsn => lsn

/-- The transaction a record names, if it names one. -/
def txn? : LogLine κ δ → Option Nat
  | .record r => some r.operation.txn
  | .sequence _ => none

def record? : LogLine κ δ → Option (LogRecord κ δ)
  | .record r => some r
  | .sequence _ => none

/-- The largest number a record shows to have been issued. -/
def lastIssued : LogLine κ δ → Nat
  | .record r => Db.lastIssued r
  | .sequence lsn => lsn

end LogLine

/-- A checkpoint under way: the floor and the rows it captured, how long the log was then,
and the counter it will write to the header, once it has read it. -/
structure Capture (κ δ : Type*) where
  floor : Nat
  rows : κ → Option (Tuple κ δ)
  logged : Nat
  counter : Option Nat

/-- A database, its log and its data file: the rows on the pages, and `checkpoint_lsn` and
`counter` of the header.  The log's first `synced` records are durable. -/
structure Media (κ δ : Type*) where
  db : Db κ δ
  lines : List (LogLine κ δ)
  synced : Nat
  disk : κ → Option (Tuple κ δ)
  floor : Nat
  counter : Nat
  pending : Option (Capture κ δ)

/-- A step of a database and its files.  A checkpoint captures the rows, writes the pages
one after the other once the log is synced, reads the counter and writes the header. -/
inductive MediaAction (κ δ : Type*) where
  | operate (a : Action κ δ)
  | sequence
  | sync (records : Nat)
  | capture
  | writePage (on : κ → Bool)
  | readCounter
  | writeHeader
  | crash (survive : Nat)

namespace Media

variable [DecidableEq κ] [DecidableEq δ]

/-- A database as it was created. -/
def new : Media κ δ := ⟨.new, [], 0, fun _ => none, 0, 1, none⟩

/-- The operation's record joins the log. -/
def operate (s : Media κ δ) (a : Action κ δ) : Media κ δ :=
  { s with
    db := s.db.step a
    lines := s.lines ++ ((s.db.step a).log.drop s.db.log.length).map .record }

/-- `gen_key` logs a `Sequence` record. -/
def sequence (s : Media κ δ) : Media κ δ :=
  { s with db := s.db.nextLsn.1, lines := s.lines ++ [.sequence s.db.nextLsn.2] }

/-- The captured rows of one page are written, after the log was synced. -/
def writePage (s : Media κ δ) (on : κ → Bool) : Media κ δ :=
  match s.pending with
  | some c =>
    if c.logged ≤ s.synced then
      { s with disk := fun key => if on key then c.rows key else s.disk key }
    else s
  | none => s

/-- `write_header_synced`. -/
def writeHeader (s : Media κ δ) : Media κ δ :=
  match s.pending with
  | some ⟨floor, _, _, some counter⟩ =>
    { s with floor := floor, counter := counter, pending := none }
  | _ => s

/-- The records recovery replays, if the first `n` records of the log survived. -/
def survivors (s : Media κ δ) (n : Nat) : List (LogLine κ δ) :=
  (s.lines.take n).filter fun line => decide (s.floor ≤ line.lsn)

/-- `process_log`.  What a `Sequence` record does to the generator is left out. -/
def processLog (db : Db κ δ) (lines : List (LogLine κ δ)) : Db κ δ :=
  let records := lines.filterMap LogLine.record?
  let committed := records.filterMap fun r => r.operation.commits
  let db := records.foldl (Db.redoRecord committed) db
  let db := records.reverse.foldl (Db.undoRecord committed) db
  match (lines.map LogLine.lastIssued).max? with
  | none => db
  | some lsn => db.advanceCounterPast lsn

/-- The database as it is opened: the rows on the pages, the counter seeded from the
header, and nothing in memory. -/
def opened (s : Media κ δ) (n : Nat) : Db κ δ where
  txMgr := { TransactionManager.new with clock := max TransactionManager.new.clock s.counter }
  versions := .new
  rows := s.disk
  log := (s.lines.take n).filterMap LogLine.record?
  purging := []

/-- The database after a crash that left the first `n` records of the log. -/
def recover (s : Media κ δ) (n : Nat) : Db κ δ := processLog (s.opened n) (s.survivors n)

def step (s : Media κ δ) : MediaAction κ δ → Media κ δ
  | .operate a => s.operate a
  | .sequence => s.sequence
  | .sync n => { s with synced := max s.synced (min n s.lines.length) }
  | .capture =>
    match s.pending with
    | none =>
      { s with pending := some ⟨s.db.retentionFloor, s.db.rows, s.lines.length, none⟩ }
    | some _ => s
  | .writePage on => s.writePage on
  | .readCounter =>
    { s with pending := s.pending.map fun c => { c with counter := some s.db.txMgr.clock } }
  | .writeHeader => s.writeHeader
  | .crash n =>
    if s.synced ≤ n then
      { s with
        db := s.recover n
        lines := s.lines.take n
        synced := (s.lines.take n).length
        pending := none }
    else s

/-- The states that operations, checkpoints and crashes lead to. -/
def Reachable : Media κ δ → Prop := Lib.Reachable step (fun _ _ => True) new

end Media

/-! ## Replaying -/

/-- The rows carry numbers below `n`. -/
def RowsBelow (rows : κ → Option (Tuple κ δ)) (n : Nat) : Prop :=
  ∀ key v, rows key = some v → v.id = key ∧ v.Below n

theorem RowsBelow.mono {rows : κ → Option (Tuple κ δ)} {n m : Nat} (h : RowsBelow rows n)
    (hle : n ≤ m) : RowsBelow rows m :=
  fun key v hv => ⟨(h key v hv).1, (h key v hv).2.mono hle⟩

/-- Replay changes rows, and mints numbers. -/
structure Replays (db db' : Db κ δ) (n : Nat) : Prop where
  clock : db.txMgr.clock ≤ db'.txMgr.clock
  states : db'.txMgr.states = db.txMgr.states
  versions : db'.versions = db.versions
  purging : db'.purging = db.purging
  rows : RowsBelow db.rows n → RowsBelow db'.rows n

namespace Replays

variable {db db' : Db κ δ} {n : Nat}

theorem refl (db : Db κ δ) (n : Nat) : Replays db db n :=
  ⟨Nat.le_refl _, rfl, rfl, rfl, fun h => h⟩

theorem trans {db'' : Db κ δ} (h : Replays db db' n) (h' : Replays db' db'' n) :
    Replays db db'' n :=
  ⟨Nat.le_trans h.clock h'.clock, h'.states.trans h.states, h'.versions.trans h.versions,
    h'.purging.trans h.purging, fun hrows => h'.rows (h.rows hrows)⟩

theorem foldl {α : Type*} {f : Db κ δ → α → Db κ δ} {as : List α}
    (h : ∀ a ∈ as, ∀ db, Replays db (f db a) n) (db : Db κ δ) : Replays db (as.foldl f db) n := by
  induction as generalizing db with
  | nil => exact refl db n
  | cons a as ih =>
    have hone := h a List.mem_cons_self db
    exact hone.trans (ih (fun b hb => h b (List.mem_cons_of_mem _ hb)) (f db a))

theorem nextLsn (db : Db κ δ) (n : Nat) : Replays db db.nextLsn.1 n :=
  ⟨Nat.le_succ _, rfl, rfl, rfl, fun h => h⟩

variable [DecidableEq κ]

/-- One row is written or removed. -/
theorem applyDecision (db : Db κ δ) (key : κ) {d : Decision κ δ}
    (hd : ∀ v, d = .insert v ∨ d = .replace v → v.id = key ∧ v.Below n) :
    Replays db (db.applyDecision key d) n := by
  have hset : ∀ row, (∀ v, row = some v → v.id = key ∧ v.Below n) →
      Replays db { db with rows := Function.update db.rows key row } n := by
    intro row hrow
    refine ⟨Nat.le_refl _, rfl, rfl, rfl, fun h k v hv => ?_⟩
    by_cases hk : k = key
    · subst hk
      exact hrow v (by simpa using hv)
    · simp only [Function.update_of_ne hk] at hv
      exact h k v hv
  cases d with
  | insert v =>
    apply hset (some v)
    rintro x ⟨⟩
    exact hd v (Or.inl rfl)
  | replace v =>
    apply hset (some v)
    rintro x ⟨⟩
    exact hd v (Or.inr rfl)
  | delete => exact hset none nofun
  | skip => exact refl db n

theorem revertOne (txn : Nat) (db : Db κ δ) {u : Undo κ δ}
    (hu : ∀ pre, u = .restore pre → pre.Below n) : Replays db (Db.revertOne txn db u) n := by
  apply (nextLsn db n).trans
  unfold Db.revertOne
  dsimp only
  split
  · apply applyDecision
    intro v hv
    split at hv <;> simp at hv
  · exact applyDecision _ _ nofun
  · apply applyDecision
    intro v hv
    split at hv
    · simp only [reduceCtorEq, Decision.replace.injEq, false_or] at hv
      subst hv
      exact ⟨rfl, hu _ rfl⟩
    · simp at hv
  · exact refl _ n

theorem undoRecord (committed : List Nat) (db : Db κ δ) {r : LogRecord κ δ} (hr : r.Latest)
    (hn : r.lsn < n) : Replays db (Db.undoRecord committed db r) n := by
  have hbelow : ∀ v ∈ r.operation.tuples, v.Below n := fun v hv => (hr.tuples v hv).mono hn
  unfold Db.undoRecord
  cases hop : r.operation with
  | add t post =>
    dsimp only
    split
    · exact refl db n
    · exact revertOne t db nofun
  | mod t pre post =>
    rw [hop] at hbelow
    dsimp only
    split
    · exact refl db n
    · apply revertOne t db
      rintro x ⟨⟩
      exact hbelow pre (by simp [Operation.tuples])
  | del t pre =>
    rw [hop] at hbelow
    dsimp only
    split
    · exact refl db n
    · apply revertOne t db
      rintro x ⟨⟩
      exact hbelow pre (List.mem_singleton_self _)
  | commit t => exact refl db n
  | rollback t => exact refl db n
  | purge t k => exact refl db n

variable [DecidableEq δ]

theorem insertVersion (db : Db κ δ) {v : Tuple κ δ} (hv : v.Below n) :
    Replays db (db.insertVersion v) n := by
  apply (nextLsn db n).trans
  unfold Db.insertVersion Db.addDecision
  dsimp only
  split
  · apply applyDecision
    rintro x (hx | hx)
    · cases hx
      exact ⟨rfl, hv⟩
    · cases hx
  · apply applyDecision
    intro x hx
    split at hx
    · simp at hx
    · simp only [reduceCtorEq, Decision.replace.injEq, false_or] at hx
      subst hx
      exact ⟨rfl, hv⟩

theorem updateVersion (db : Db κ δ) {v : Tuple κ δ} (hv : v.Below n) :
    Replays db (db.updateVersion v) n := by
  apply (nextLsn db n).trans
  unfold Db.updateVersion Db.modDecision
  dsimp only
  split
  · apply applyDecision
    intro x hx
    split at hx
    · simp at hx
    · simp only [reduceCtorEq, Decision.replace.injEq, false_or] at hx
      subst hx
      exact ⟨rfl, hv⟩
  · exact refl _ n

theorem redoRecord (committed : List Nat) (db : Db κ δ) {r : LogRecord κ δ} (hr : r.Latest)
    (hn : r.lsn < n) : Replays db (Db.redoRecord committed db r) n := by
  have hbelow : ∀ v ∈ r.operation.tuples, v.Below n := fun v hv => (hr.tuples v hv).mono hn
  have htxn := hr.txn
  unfold Db.redoRecord
  cases hop : r.operation with
  | add t post =>
    rw [hop] at hbelow
    dsimp only
    split
    · exact insertVersion db (hbelow post (List.mem_singleton_self _))
    · exact refl db n
  | mod t pre post =>
    rw [hop] at hbelow
    dsimp only
    split
    · exact updateVersion db (hbelow post (by simp [Operation.tuples]))
    · exact refl db n
  | del t pre =>
    rw [hop] at htxn
    dsimp only
    split
    · apply updateVersion db
      constructor
      · rintro x ⟨⟩
        exact Nat.lt_trans htxn hn
      · rintro l ⟨⟩
        exact hn
    · exact refl db n
  | commit t => exact refl db n
  | rollback t => exact refl db n
  | purge t k => exact refl db n

end Replays

/-! ## What the files account for -/

namespace Media

variable {s s' : Media κ δ} {n m : Nat}

/-- The number that recovery from the first `n` records raises the counter to, at the
least. -/
def mark (s : Media κ δ) (n : Nat) : Nat :=
  (s.survivors n).foldr (fun line k => max (line.lsn + 1) k) s.counter

theorem counter_le_mark (s : Media κ δ) (n : Nat) : s.counter ≤ s.mark n := by
  unfold mark
  induction s.survivors n with
  | nil => exact Nat.le_refl _
  | cons line lines ih => exact Nat.le_trans ih (Nat.le_max_right _ _)

variable {line : LogLine κ δ} {db : Db κ δ}

theorem lsn_lt_mark (h : line ∈ s.survivors n) : line.lsn < s.mark n := by
  unfold mark
  revert h
  induction s.survivors n with
  | nil => exact nofun
  | cons l ls ih =>
    intro h
    rcases List.mem_cons.mp h with rfl | h
    · exact Nat.le_max_left _ _
    · exact Nat.lt_of_lt_of_le (ih h) (Nat.le_max_right _ _)

theorem mark_le {k : Nat} (hcounter : s.counter ≤ k) (hlines :
    ∀ line ∈ s.survivors n, line.lsn < k) :
    s.mark n ≤ k := by
  unfold mark
  revert hlines
  induction s.survivors n with
  | nil => exact fun _ => hcounter
  | cons l ls ih =>
    intro hlines
    apply Nat.max_le.mpr
    exact ⟨hlines l List.mem_cons_self, ih fun line hl => hlines line (List.mem_cons_of_mem _ hl)⟩

/-- The header and the log of `s'` account for what those of `s` do. -/
theorem mark_le_mark (hcounter : s.counter ≤ s'.counter)
    (hlines : ∀ line ∈ s.survivors n, line ∈ s'.survivors m ∨ line.lsn < s'.counter) :
    s.mark n ≤ s'.mark m := by
  apply mark_le (Nat.le_trans hcounter (counter_le_mark s' m))
  intro line hline
  rcases hlines line hline with hmem | hlt
  · exact lsn_lt_mark hmem
  · exact Nat.lt_of_lt_of_le hlt (counter_le_mark s' m)

theorem mem_survivors :
    line ∈ s.survivors n ↔ line ∈ s.lines.take n ∧ s.floor ≤ line.lsn := by
  simp [survivors]

theorem mark_mono (s : Media κ δ) (h : n ≤ m) : s.mark n ≤ s.mark m := by
  apply mark_le_mark (Nat.le_refl _)
  intro line hline
  obtain ⟨hmem, hfloor⟩ := mem_survivors.mp hline
  exact Or.inl (mem_survivors.mpr ⟨(List.take_subset_take_left s.lines h) hmem, hfloor⟩)

/-- A record of the log is numbered after everything it says. -/
def Latest : LogLine κ δ → Prop
  | .record r => r.Latest
  | .sequence _ => True

/-- What a checkpoint under way has captured is accounted for by the log it will sync. -/
structure CaptureInv (s : Media κ δ) (c : Capture κ δ) : Prop where
  logged : c.logged ≤ s.lines.length
  rows : RowsBelow c.rows (s.mark c.logged)
  floor : c.floor ≤ s.db.txMgr.clock
  counter : ∀ k, c.counter = some k → c.floor ≤ k ∧ s.counter ≤ k ∧ k ≤ s.db.txMgr.clock

/-- The numbers on the pages are below the header's counter or accounted for by records
that are durable; those in memory by records that may not be. -/
structure Inv (s : Media κ δ) : Prop where
  memory : Numbered s.db (s.mark s.lines.length)
  lines : ∀ line ∈ s.lines, line.lsn < s.db.txMgr.clock ∧ Latest line
  synced : s.synced ≤ s.lines.length
  floor : s.floor ≤ s.counter
  disk : RowsBelow s.disk (s.mark s.synced)
  pending : ∀ c, s.pending = some c → CaptureInv s c

theorem Inv.new : Inv (Media.new : Media κ δ) where
  memory := Numbered.new
  lines _ h := nomatch h
  synced := Nat.le_refl _
  floor := Nat.zero_le _
  disk _ _ h := nomatch h
  pending _ h := nomatch h

/-- A shorter log shows the same beginning. -/
theorem mark_append {lines : List (LogLine κ δ)} (hn : n ≤ s.lines.length) :
    mark { s with db := db, lines := s.lines ++ lines } n = s.mark n := by
  unfold mark survivors
  dsimp only
  rw [List.take_append_of_le_length hn]

/-- The log grows by a record whose number was not issued before. -/
theorem Inv.grow (h : Inv s) (hold : s.db.txMgr.clock ≤ line.lsn)
    (hnew : line.lsn < db.txMgr.clock) (hlatest : Latest line)
    (hdb : Numbered db (max (s.mark s.lines.length) (line.lsn + 1))) :
    Inv { s with db := db, lines := s.lines ++ [line] } := by
  have hclock : s.db.txMgr.clock ≤ db.txMgr.clock := Nat.le_trans hold (Nat.le_of_lt hnew)
  have hcounter := Nat.le_trans (counter_le_mark s s.lines.length) h.memory.bound
  have hlines : ∀ l ∈ s.lines ++ [line], l.lsn < db.txMgr.clock ∧ Latest l := by
    intro l hl
    rcases List.mem_append.mp hl with hl | hl
    · exact ⟨Nat.lt_of_lt_of_le (h.lines l hl).1 hclock, (h.lines l hl).2⟩
    · rw [List.mem_singleton.mp hl]
      exact ⟨hnew, hlatest⟩
  have hlength : (s.lines ++ [line]).length = s.lines.length + 1 := by simp
  constructor
  · apply hdb.mono
    · apply Nat.max_le.mpr
      constructor
      · refine mark_le_mark (Nat.le_refl s.counter) ?_
        intro l hl
        obtain ⟨hmem, hfloor⟩ := mem_survivors.mp hl
        refine Or.inl (mem_survivors.mpr ⟨?_, hfloor⟩)
        rw [List.take_length]
        exact List.mem_append_left _ (List.mem_of_mem_take hmem)
      · apply lsn_lt_mark
        apply mem_survivors.mpr
        rw [List.take_length]
        exact ⟨List.mem_append_right _ (List.mem_singleton_self _),
          Nat.le_trans h.floor (Nat.le_trans hcounter hold)⟩
    · refine mark_le (s := { s with db := db, lines := s.lines ++ [line] })
        (Nat.le_trans hcounter hclock) ?_
      intro l hl
      exact (hlines l (List.mem_of_mem_take (mem_survivors.mp hl).1)).1
  · exact hlines
  · exact Nat.le_trans h.synced (by rw [hlength]; exact Nat.le_succ _)
  · exact h.floor
  · show RowsBelow s.disk _
    rw [mark_append h.synced]
    exact h.disk
  · intro c hc
    obtain ⟨hlogged, hrows, hfloor, hread⟩ := h.pending c hc
    refine ⟨?_, ?_, Nat.le_trans hfloor hclock, ?_⟩
    · exact Nat.le_trans hlogged (by rw [hlength]; exact Nat.le_succ _)
    · rw [mark_append hlogged]
      exact hrows
    · intro k hk
      obtain ⟨h1, h2, h3⟩ := hread k hk
      exact ⟨h1, h2, Nat.le_trans h3 hclock⟩

/-- A step that logs nothing. -/
theorem Inv.silent (h : Inv s) (hclock : s.db.txMgr.clock ≤ db.txMgr.clock)
    (hdb : Numbered db (s.mark s.lines.length)) : Inv { s with db := db } where
  memory := hdb
  lines line hl := ⟨Nat.lt_of_lt_of_le (h.lines line hl).1 hclock, (h.lines line hl).2⟩
  synced := h.synced
  floor := h.floor
  disk := h.disk
  pending c hc := by
    obtain ⟨hlogged, hrows, hfloor, hread⟩ := h.pending c hc
    refine ⟨hlogged, hrows, Nat.le_trans hfloor hclock, fun k hk => ?_⟩
    obtain ⟨h1, h2, h3⟩ := hread k hk
    exact ⟨h1, h2, Nat.le_trans h3 hclock⟩

theorem Inv.operate [DecidableEq κ] (h : Inv s) (a : Action κ δ) : Inv (s.operate a) := by
  have hissues := h.memory.step a
  unfold Media.operate
  rcases hissues.log with ⟨hlog, hdb⟩ | ⟨r, hlog, hold, hnew, hlatest, hdb⟩
  · rw [hlog, List.drop_length, List.map_nil, List.append_nil]
    exact h.silent hissues.clock hdb
  · rw [hlog, List.drop_left]
    exact h.grow hold hnew hlatest hdb

theorem Inv.sequence (h : Inv s) : Inv s.sequence := by
  have hlatest : Latest (.sequence s.db.nextLsn.2 : LogLine κ δ) := trivial
  apply h.grow (Nat.le_refl _) (Nat.lt_succ_self _) hlatest
  apply h.memory.nextLsn.mono (Nat.le_max_left _ _)
  exact Nat.max_le.mpr ⟨h.memory.nextLsn.bound, Nat.le_refl _⟩

theorem Inv.sync (h : Inv s) (n : Nat) :
    Inv { s with synced := max s.synced (min n s.lines.length) } where
  memory := h.memory
  lines := h.lines
  synced := Nat.max_le.mpr ⟨h.synced, Nat.min_le_right _ _⟩
  floor := h.floor
  disk := h.disk.mono (mark_mono s (Nat.le_max_left _ _))
  pending c hc := ⟨(h.pending c hc).logged, (h.pending c hc).rows, (h.pending c hc).floor,
    (h.pending c hc).counter⟩

/-- The checkpoint under way changes, and its numbers stay accounted for. -/
theorem Inv.withPending (h : Inv s) {pending : Option (Capture κ δ)}
    (hpending : ∀ c, pending = some c → CaptureInv s c) : Inv { s with pending := pending } where
  memory := h.memory
  lines := h.lines
  synced := h.synced
  floor := h.floor
  disk := h.disk
  pending c hc := ⟨(hpending c hc).logged, (hpending c hc).rows, (hpending c hc).floor,
    (hpending c hc).counter⟩

theorem Inv.capture (h : Inv s) : CaptureInv s
    ⟨s.db.retentionFloor, s.db.rows, s.lines.length, none⟩ where
  logged := Nat.le_refl _
  rows := h.memory.rows
  floor := retentionFloor_le_clock s.db
  counter _ hk := nomatch hk

theorem Inv.readCounter (h : Inv s) {c : Capture κ δ} (hc : s.pending = some c) :
    CaptureInv s { c with counter := some s.db.txMgr.clock } where
  logged := (h.pending c hc).logged
  rows := (h.pending c hc).rows
  floor := (h.pending c hc).floor
  counter k hk := by
    cases hk
    exact ⟨(h.pending c hc).floor,
      Nat.le_trans (counter_le_mark s s.lines.length) h.memory.bound, Nat.le_refl _⟩

theorem Inv.writePage (h : Inv s) (on : κ → Bool) : Inv (s.writePage on) := by
  unfold Media.writePage
  split
  · next c hc =>
      split
      · next hsynced =>
          have hdisk : RowsBelow (fun key => if on key then c.rows key else s.disk key)
              (s.mark s.synced) := by
            intro key v hv
            dsimp only at hv
            split at hv
            · exact (h.pending c hc).rows.mono (mark_mono s hsynced) key v hv
            · exact h.disk key v hv
          exact ⟨h.memory, h.lines, h.synced, h.floor, hdisk, fun c hc =>
            ⟨(h.pending c hc).logged, (h.pending c hc).rows, (h.pending c hc).floor,
              (h.pending c hc).counter⟩⟩
      · exact h
  · exact h

/-- The header that takes over accounts for the records its floor gives up. -/
theorem Inv.writeHeader (h : Inv s) : Inv s.writeHeader := by
  unfold Media.writeHeader
  split
  · next floor rows logged counter hc =>
      obtain ⟨hfloor, hcounter, hclock⟩ := (h.pending _ hc).counter counter rfl
      have hmark : ∀ n, s.mark n ≤
          mark { s with floor := floor, counter := counter, pending := none } n := by
        intro n
        refine mark_le_mark hcounter ?_
        intro line hline
        obtain ⟨hmem, -⟩ := mem_survivors.mp hline
        by_cases hlt : line.lsn < floor
        · exact Or.inr (Nat.lt_of_lt_of_le hlt hfloor)
        · exact Or.inl (mem_survivors.mpr ⟨hmem, Nat.le_of_not_lt hlt⟩)
      refine ⟨h.memory.mono (hmark _) ?_, h.lines, h.synced, hfloor, h.disk.mono (hmark _), nofun⟩
      refine mark_le (s := { s with floor := floor, counter := counter, pending := none })
        hclock ?_
      intro line hline
      exact (h.lines line (List.mem_of_mem_take (mem_survivors.mp hline).1)).1
  · exact h

/-! ## Recovery -/

section Recover

variable [DecidableEq κ] [DecidableEq δ]

omit [DecidableEq κ] [DecidableEq δ] in
theorem lsn_le_lastIssued (line : LogLine κ δ) : line.lsn ≤ line.lastIssued := by
  cases line with
  | sequence lsn => exact Nat.le_refl _
  | record r =>
    show r.lsn ≤ Db.lastIssued r
    unfold Db.lastIssued
    split <;> exact Nat.le_max_left _ _

/-- The counter is raised past everything the records show. -/
theorem lastIssued_lt_processLog (db : Db κ δ) {lines : List (LogLine κ δ)} {line : LogLine κ δ}
    (hline : line ∈ lines) : line.lastIssued < (processLog db lines).txMgr.clock := by
  unfold processLog
  dsimp only
  split
  · next hnone =>
      rw [List.max?_eq_none_iff, List.map_eq_nil_iff] at hnone
      rw [hnone] at hline
      cases hline
  · next lsn hmax =>
      have hle : line.lastIssued ≤ lsn :=
        (List.max?_eq_some_iff.mp hmax).2 _ (List.mem_map_of_mem hline)
      exact Nat.lt_of_lt_of_le (Nat.lt_succ_of_le hle) (Nat.le_max_right _ _)

theorem replays_processLog (db : Db κ δ) {lines : List (LogLine κ δ)}
    (hrecords : ∀ r ∈ lines.filterMap LogLine.record?, r.Latest ∧ r.lsn < m) :
    Replays db (processLog db lines) m := by
  have hpasses : ∀ committed, Replays db ((lines.filterMap LogLine.record?).reverse.foldl
      (Db.undoRecord committed)
      ((lines.filterMap LogLine.record?).foldl (Db.redoRecord committed) db)) m := by
    intro committed
    apply Replays.trans
    · apply Replays.foldl
      exact fun r hr db => Replays.redoRecord committed db (hrecords r hr).1 (hrecords r hr).2
    · apply Replays.foldl
      intro r hr db
      rw [List.mem_reverse] at hr
      exact Replays.undoRecord committed db (hrecords r hr).1 (hrecords r hr).2
  unfold processLog
  dsimp only
  split
  · exact hpasses _
  · apply (hpasses _).trans
    exact ⟨Nat.le_max_left _ _, rfl, rfl, rfl, fun hrows => hrows⟩

/-- Recovery accounts for what survived. -/
theorem Inv.recover (h : Inv s) (hn : s.synced ≤ n) : Numbered (s.recover n) (s.mark n) := by
  have hrecords : ∀ r ∈ (s.survivors n).filterMap LogLine.record?,
      r.Latest ∧ r.lsn < s.mark n := by
    intro r hr
    obtain ⟨line, hline, hr⟩ := List.mem_filterMap.mp hr
    cases line with
    | sequence lsn => cases hr
    | record r' =>
      cases hr
      have hmem := List.mem_of_mem_take (mem_survivors.mp hline).1
      exact ⟨(h.lines _ hmem).2, lsn_lt_mark hline⟩
  have hreplays : Replays (s.opened n) (s.recover n) (s.mark n) :=
    replays_processLog (s.opened n) hrecords
  have hstates : ∀ t, (s.recover n).txMgr.states t = none := fun t => congrFun hreplays.states t
  constructor
  · apply mark_le
    · exact Nat.le_trans (Nat.le_max_right _ _) hreplays.clock
    · intro line hline
      exact Nat.lt_of_le_of_lt (lsn_le_lastIssued line)
        (lastIssued_lt_processLog (s.opened n) hline)
  · exact fun t ht => absurd (hstates t) ht
  · exact hreplays.rows (h.disk.mono (mark_mono s hn))
  · intro l p hp
    rw [hreplays.versions] at hp
    cases hp
  · intro e he
    unfold Db.queued at he
    rw [hreplays.versions, hreplays.purging] at he
    cases he

/-- Every number that survived is below the counter. -/
theorem Inv.lsn_lt_recover (h : Inv s) (hn : s.synced ≤ n) {line : LogLine κ δ}
    (hline : line ∈ s.lines.take n) : line.lsn < (s.recover n).txMgr.clock := by
  have hbound := (h.recover hn).bound
  by_cases hfloor : s.floor ≤ line.lsn
  · exact Nat.lt_of_lt_of_le (lsn_lt_mark (mem_survivors.mpr ⟨hline, hfloor⟩)) hbound
  · have hlt := Nat.lt_of_lt_of_le (Nat.lt_of_not_le hfloor) h.floor
    exact Nat.lt_of_lt_of_le hlt (Nat.le_trans (counter_le_mark s n) hbound)

theorem Inv.crash (h : Inv s) (hn : s.synced ≤ n) : Inv { s with
    db := s.recover n
    lines := s.lines.take n
    synced := (s.lines.take n).length
    pending := none } := by
  have hmark : mark { s with
      db := s.recover n
      lines := s.lines.take n
      synced := (s.lines.take n).length
      pending := none } (s.lines.take n).length = s.mark n := by
    unfold mark survivors
    dsimp only
    rw [List.take_length]
  constructor
  · show Numbered (s.recover n) _
    rw [hmark]
    exact h.recover hn
  · intro line hline
    exact ⟨h.lsn_lt_recover hn hline, (h.lines line (List.mem_of_mem_take hline)).2⟩
  · exact Nat.le_refl _
  · exact h.floor
  · show RowsBelow s.disk _
    rw [hmark]
    exact h.disk.mono (mark_mono s hn)
  · exact nofun

/-- Checkpoints, crashes and recoveries keep the files' account. -/
theorem Inv.step (h : Inv s) (a : MediaAction κ δ) : Inv (s.step a) := by
  cases a with
  | operate a => exact h.operate a
  | sequence => exact h.sequence
  | sync n => exact h.sync n
  | capture =>
    unfold Media.step
    dsimp only
    split
    · apply h.withPending
      rintro c ⟨⟩
      exact h.capture
    · exact h
  | writePage on => exact h.writePage on
  | readCounter =>
    apply h.withPending
    intro c hc
    obtain ⟨c', hc', rfl⟩ := Option.map_eq_some_iff.mp hc
    exact h.readCounter hc'
  | writeHeader => exact h.writeHeader
  | crash n =>
    unfold Media.step
    dsimp only
    split
    · next hn => exact h.crash hn
    · exact h

theorem Reachable.inv (h : Reachable s) : Inv s :=
  h.invariant Inv.new fun _ a hs _ => hs.step a

omit [DecidableEq δ] in
/-- No step takes the counter back. -/
theorem clock_le_run {db : Db κ δ} {k : Nat} (h : Numbered db k) (as : List (Action κ δ)) :
    db.txMgr.clock ≤ (run Db.step db as).txMgr.clock := by
  induction as generalizing db k with
  | nil => exact Nat.le_refl _
  | cons a as ih =>
    have hissues := h.step a
    rw [run_cons]
    rcases hissues.log with ⟨-, hnext⟩ | ⟨r, -, -, -, -, hnext⟩
    · exact Nat.le_trans hissues.clock (ih hnext)
    · exact Nat.le_trans hissues.clock (ih hnext)

/-- After any run of operations, checkpoints, crashes and recoveries, a crash that left the
first `n` records of the log is recovered to a database whose counter, then and after any
further operations, hands out only numbers above every LSN and transaction id of the
records that survived, and above every `txn_id` and `pre_lsn` of the rows on the pages and
of those that recovery left. -/
theorem numbers_never_reissued (h : Reachable s) (hn : s.synced ≤ n) (as : List (Action κ δ)) :
    let issued := (run Db.step (s.recover n) as).nextLsn.2
    (∀ line ∈ s.lines.take n, line.lsn < issued ∧ ∀ t, line.txn? = some t → t < issued) ∧
      (∀ key v, s.disk key = some v → v.Below issued) ∧
      ∀ key v, (s.recover n).rows key = some v → v.Below issued := by
  intro issued
  have hinv := h.inv
  have hrecover := hinv.recover hn
  have hclock : (s.recover n).txMgr.clock ≤ issued := clock_le_run hrecover as
  have hmark : s.mark n ≤ issued := Nat.le_trans hrecover.bound hclock
  refine ⟨?_, ?_, ?_⟩
  · intro line hline
    have hlsn := Nat.lt_of_lt_of_le (hinv.lsn_lt_recover hn hline) hclock
    refine ⟨hlsn, fun t ht => ?_⟩
    have hlatest := (hinv.lines line (List.mem_of_mem_take hline)).2
    cases line with
    | sequence lsn => cases ht
    | record r =>
      cases ht
      exact Nat.lt_trans hlatest.txn hlsn
  · intro key v hv
    exact (hinv.disk key v hv).2.mono (Nat.le_trans (mark_mono s hn) hmark)
  · intro key v hv
    exact (hrecover.rows key v hv).2.mono hmark

end Recover

/-- The pages of the first checkpoint were written and its header was not: the row of
transaction 1 is above the header's counter, and the log accounts for it. -/
theorem numbers_never_reissued_before_header :
    let s : Media Nat Nat := run step new [.operate (.begin .continueOnConflict),
      .operate (.insert 1 ⟨3, 10, none, none, false⟩), .operate (.commit 1), .capture, .sync 2,
      .writePage fun _ => true]
    s.synced = 2 ∧ s.counter = 1 ∧ s.disk 3 = some ⟨3, 10, some 1, none, false⟩ ∧
      1 < (run Db.step (s.recover 2) []).nextLsn.2 := by
  intro s
  have hsynced : s.synced = 2 := by decide
  have hrow : s.disk 3 = some ⟨3, 10, some 1, none, false⟩ := by decide
  have hreach : Reachable s := reachable_run _ (allowed_true _ _)
  have hissued := numbers_never_reissued hreach (Nat.le_of_eq hsynced) []
  exact ⟨hsynced, by decide, hrow, (hissued.2.1 3 _ hrow).txnId 1 rfl⟩

end Media

end SquealDb.Store
