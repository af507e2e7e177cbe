import SquealDb.Store.Replay

/-!
# The rows recovery restores

The image of the last checkpoint may be ahead of the records recovery
replays, or hold versions that never committed.  `Recoverable` says what the
image has to do with the log since for the two passes to end in the last
committed version; a checkpoint establishes it, and every step of the database
keeps it.  A crash that loses the end of the log is no different from one at
the earlier moment when the log was that long.
-/

namespace SquealDb.Store

open Lib

variable {κ δ : Type*} [DecidableEq κ]

/-- What recovery may leave of a key whose last committed version is
`version`: that version, up to the `pre_lsn` by which the version store knew
its pre-image; or nothing, if there is no such version or it is a
tombstone. -/
def Restores [DecidableEq δ] (version row : Option (Tuple κ δ)) : Prop :=
  (asRow version = none ∧ row = none) ∨
    ∃ v c, version = some v ∧ row = some c ∧ c.id = v.id ∧ alreadyApplied c v = true

/-! ## The order of the log -/

/-- A transaction begins before it writes, and writes before it commits. -/
structure LogOrdered (log : List (LogRecord κ δ)) : Prop where
  begun : ∀ r ∈ log, ∀ t, r.operation.writer = some t → t < r.lsn
  wrote : ∀ r ∈ log, ∀ t c, r.operation.writer = some t → commitTs log t = some c → r.lsn < c

variable {t floor : Nat} {log : List (LogRecord κ δ)} {key : κ} {v : Tuple κ δ} {db : Db κ δ}
  {r : LogRecord κ δ}

omit [DecidableEq κ] in
theorem commits_eq {op : Operation κ δ} (h : op.commits = some t) :
    op = .commit t := by
  cases op with
  | commit txn => cases h; rfl
  | add txn post => cases h
  | mod txn pre post => cases h
  | del txn pre => cases h
  | rollback txn => cases h
  | purge txn k => cases h

theorem LogOrdered.step {db : Db κ δ} (h : DbInv db) (ho : LogOrdered db.log)
    (a : Action κ δ) : LogOrdered (db.step a).log := by
  rcases (Db.step_spec db a h).log with heq | ⟨r, heq, hr⟩
  · rw [heq]
    exact ho
  · rw [heq]
    have hmem : ∀ r' ∈ db.log ++ [r], r' ∈ db.log ∨ r' = r := by
      simp [List.mem_append]
    constructor
    · intro r' hr' t ht
      rcases hmem r' hr' with hr' | rfl
      · exact ho.begun r' hr' t ht
      · obtain ⟨⟨p, hp⟩, -⟩ := hr.write t ht
        exact Nat.lt_of_lt_of_le (h.txn.idLt t (by simp [hp])) hr.lsn
    · intro r' hr' t c ht hc
      cases hcom : r.operation.commits with
      | none =>
        rw [commitTs_append_other _ _ hcom] at hc
        rcases hmem r' hr' with hr' | rfl
        · exact ho.wrote r' hr' t c ht hc
        · obtain ⟨⟨p, hp⟩, -⟩ := hr.write t ht
          rw [h.txn.activeTs t p hp] at hc
          cases hc
      | some t' =>
        obtain ⟨p, hp⟩ := hr.commit t' hcom
        obtain ⟨lsn, op⟩ := r
        cases commits_eq hcom
        rw [commitTs_append_commit _ (h.txn.activeTs t' p hp)] at hc
        rcases hmem r' hr' with hold | rfl
        · by_cases htt : t = t'
          · subst htt
            rw [Function.update_self] at hc
            cases hc
            exact Nat.lt_of_lt_of_le (h.lsnLt r' hold) hr.lsn
          · rw [Function.update_of_ne htt] at hc
            exact ho.wrote r' hold t c ht hc
        · cases ht

omit [DecidableEq κ] in
/-- The records at or above the floor are the end of the log. -/
theorem split_at_floor (h : log.Pairwise fun r r' => r.lsn < r'.lsn) (floor : Nat) :
    log = (log.filter fun r => decide (r.lsn < floor)) ++
      log.filter fun r => decide (floor ≤ r.lsn) := by
  induction log with
  | nil => rfl
  | cons r rs ih =>
    obtain ⟨hr, hrs⟩ := List.pairwise_cons.mp h
    by_cases hlt : r.lsn < floor
    · have hle : ¬ floor ≤ r.lsn := by omega
      rw [List.filter_cons_of_pos (by simpa using hlt),
        List.filter_cons_of_neg (by simpa using hle), List.cons_append, ← ih hrs]
    · have hle : floor ≤ r.lsn := by omega
      have hnil : rs.filter (fun r => decide (r.lsn < floor)) = [] := by
        rw [List.filter_eq_nil_iff]
        intro r' hr'
        have hlt' := hr r' hr'
        simp only [decide_eq_true_eq]
        omega
      have hall : rs.filter (fun r => decide (floor ≤ r.lsn)) = rs := by
        rw [List.filter_eq_self]
        intro r' hr'
        have hlt' := hr r' hr'
        simp only [decide_eq_true_eq]
        omega
      rw [List.filter_cons_of_neg (by simpa using hlt),
        List.filter_cons_of_pos (by simpa using hle), hnil, hall, List.nil_append]

/-! ## What redo has to go on -/

/-- The committed versions of a key among the records at or above the
floor. -/
def redoVersions (log : List (LogRecord κ δ)) (floor : Nat) (key : κ) : List (Tuple κ δ) :=
  (versionsOf (log.filter fun r => decide (floor ≤ r.lsn)) key).filter fun v =>
    decide (CommittedBy (commitTs log) v)

theorem mem_redoVersions :
    v ∈ redoVersions log floor key ↔
      (∃ r ∈ log, floor ≤ r.lsn ∧ r.written = some v ∧ v.id = key) ∧
        CommittedBy (commitTs log) v := by
  unfold redoVersions
  rw [List.mem_filter, DbInv.mem_versionsOf]
  simp only [List.mem_filter, decide_eq_true_eq]
  constructor
  · rintro ⟨⟨r, ⟨hr, hle⟩, hv, hk⟩, hc⟩
    exact ⟨⟨r, hr, hle, hv, hk⟩, hc⟩
  · rintro ⟨⟨r, hr, hle, hv, hk⟩, hc⟩
    exact ⟨⟨r, ⟨hr, hle⟩, hv, hk⟩, hc⟩

theorem redoVersions_append {log' : List (LogRecord κ δ)} (h : v ∈ redoVersions log floor key) :
    v ∈ redoVersions (log ++ log') floor key := by
  rw [mem_redoVersions] at h ⊢
  obtain ⟨⟨r, hr, hrest⟩, hc⟩ := h
  exact ⟨⟨r, List.mem_append_left _ hr, hrest⟩, hc.append⟩

/-- If anything committed is among the records, the last of it is the last
committed version. -/
theorem lastCommitted_eq_redoVersions (h : log.Pairwise fun r r' => r.lsn < r'.lsn)
    (hne : redoVersions log floor key ≠ []) :
    lastCommitted log key = (redoVersions log floor key).getLast? := by
  have hsplit : committedVersions log key =
      ((versionsOf (log.filter fun r => decide (r.lsn < floor)) key).filter fun v =>
        decide (CommittedBy (commitTs log) v)) ++ redoVersions log floor key := by
    unfold committedVersions redoVersions
    rw [← List.filter_append, ← versionsOf_append, ← split_at_floor h floor]
  unfold lastCommitted
  rw [hsplit, List.getLast?_append_of_ne_nil _ hne]

/-! ## What the image has to do with the log -/

/-- The image `disk` of a key's row can be brought to the last committed
version by the records at or above the floor. -/
structure Recoverable (db : Db κ δ) (floor : Nat) (key : κ)
    (disk : Option (Tuple κ δ)) : Prop where
  id : ∀ d, disk = some d → d.id = key
  /-- Where there is no row, whatever is to be redone begins with an
  insert. -/
  absent : disk = none → (∃ v ∈ redoVersions db.log floor key, v.preLsn = none) ∨
    settledRow db.log key (db.rows key) = none
  /-- Where there is a row and nothing to be redone, it is the last committed
  version, or the undo of its transaction puts that back. -/
  present : ∀ d, disk = some d → redoVersions db.log floor key = [] →
    (CommittedBy (commitTs db.log) d ∧ lastCommitted db.log key = some d) ∨
      ∃ w u rest, d.txnId = some w ∧ commitTs db.log w = none ∧ floor ≤ w ∧
        undosOn db.log w key = u :: rest ∧ (u.target = lastCommitted db.log key ∨
          u.target = none ∧ asRow (lastCommitted db.log key) = none)

/-- A record that is appended changes the committed versions of a key only if
it commits a transaction that wrote the key. -/
theorem committedVersions_append (h : DbInv db) (hr : Db.RecordSpec db r) (key : κ) :
    (∃ t p, r.operation = .commit t ∧ db.txMgr.states t = some (.active p) ∧
      WroteKey db.log t key) ∨
      committedVersions (db.log ++ [r]) key = committedVersions db.log key := by
  cases hcom : r.operation.commits with
  | none =>
    refine Or.inr ?_
    unfold committedVersions
    rw [commitTs_append_other _ _ hcom, versionsOf_append, List.filter_append]
    have hnil : (versionsOf [r] key).filter
        (fun v => decide (CommittedBy (commitTs db.log) v)) = [] := by
      rw [List.filter_eq_nil_iff]
      intro v hv
      obtain ⟨r', hr', hwr, -⟩ := DbInv.mem_versionsOf.mp hv
      rw [List.mem_singleton] at hr'
      subst hr'
      obtain ⟨t, ht⟩ : ∃ t, r'.operation.writer = some t := by
        unfold LogRecord.written at hwr
        cases hop : r'.operation with
        | add txn post => exact ⟨_, rfl⟩
        | mod txn pre post => exact ⟨_, rfl⟩
        | del txn pre => exact ⟨_, rfl⟩
        | commit txn => rw [hop] at hwr; cases hwr
        | rollback txn => rw [hop] at hwr; cases hwr
        | purge txn k => rw [hop] at hwr; cases hwr
      obtain ⟨⟨p, hp⟩, v', u, hv', hvt, -⟩ := hr.write t ht
      rw [hwr] at hv'
      cases hv'
      rw [decide_eq_true_eq, committedBy_iff hvt, h.txn.activeTs t p hp]
      rintro ⟨c, hc⟩
      cases hc
    rw [hnil, List.append_nil]
  | some t =>
    obtain ⟨p, hp⟩ := hr.commit t hcom
    obtain ⟨lsn, op⟩ := r
    cases commits_eq hcom
    by_cases hwk : WroteKey db.log t key
    · exact Or.inl ⟨t, p, rfl, hp, hwk⟩
    · refine Or.inr ?_
      unfold committedVersions
      rw [versionsOf_append_other _ _ _ rfl]
      refine List.filter_congr fun v hv => ?_
      rw [commitTs_append_commit _ (h.txn.activeTs t p hp), decide_eq_decide]
      unfold CommittedBy
      cases hw : v.txnId with
      | none => rfl
      | some w =>
        rw [Option.bind_some, Option.bind_some, Function.update_of_ne]
        rintro rfl
        exact hwk ⟨v, hv, hw⟩

/-- The record of a write to a key, found from its undo. -/
theorem record_of_undosOn (h : ∀ r ∈ log, ∀ v, r.written = some v → RecordWf r v) {u : Undo κ δ}
    (hu : u ∈ undosOn log t key) :
    ∃ r ∈ log, ∃ v, r.operation.writer = some t ∧ r.written = some v ∧ v.id = key ∧
      v.txnId = some t ∧ (u.target = none ↔ v.preLsn = none) := by
  unfold undosOn undosOf at hu
  rw [List.mem_filter, List.mem_filterMap] at hu
  obtain ⟨⟨r, hr, hru⟩, hkey⟩ := hu
  split at hru
  · next hw =>
      obtain ⟨v, hv⟩ : ∃ v, r.written = some v := by
        unfold LogRecord.written
        cases hop : r.operation with
        | add txn post => exact ⟨_, rfl⟩
        | mod txn pre post => exact ⟨_, rfl⟩
        | del txn pre => exact ⟨_, rfl⟩
        | commit txn => rw [hop] at hru; cases hru
        | rollback txn => rw [hop] at hru; cases hru
        | purge txn k => rw [hop] at hru; cases hru
      have hwf := h r hr v hv
      obtain ⟨u', hu', hukey, hpre⟩ := hwf.undo
      rw [hru] at hu'
      cases hu'
      exact ⟨r, hr, v, hw, hv, hukey.symm.trans (of_decide_eq_true hkey),
        hwf.writer.trans hw, hpre⟩
  · cases hru

/-- What a transaction above the floor wrote is redone once it commits. -/
theorem mem_redoVersions_of_commit (h : DbInv db) (ho : LogOrdered db.log) {c : Nat}
    {p : ConflictPolicy} (hp : db.txMgr.states t = some (.active p)) (hfloor : floor ≤ t)
    (hr : r ∈ db.log) (hw : r.operation.writer = some t) (hv : r.written = some v)
    (hkey : v.id = key) (hvt : v.txnId = some t) :
    v ∈ redoVersions (db.log ++ [⟨c, .commit t⟩]) floor key := by
  have hlt := ho.begun r hr t hw
  rw [mem_redoVersions]
  refine ⟨⟨r, List.mem_append_left _ hr, by omega, hv, hkey⟩, ?_⟩
  rw [committedBy_iff hvt, commitTs_append_commit _ (h.txn.activeTs t p hp)]
  exact ⟨c, Function.update_self _ _ _⟩

/-- Every step of the database keeps the image recoverable. -/
theorem Recoverable.step {db : Db κ δ} (h : DbInv db) (ho : LogOrdered db.log) {floor : Nat}
    (hfloor : ∀ t p, db.txMgr.states t = some (.active p) → floor ≤ t) {key : κ}
    {disk : Option (Tuple κ δ)} (hr : Recoverable db floor key disk) (a : Action κ δ) :
    Recoverable (db.step a) floor key disk := by
  have hlog : ∃ rs, (db.step a).log = db.log ++ rs := by
    rcases (Db.step_spec db a h).log with heq | ⟨r, heq, -⟩
    · exact ⟨[], by rw [heq, List.append_nil]⟩
    · exact ⟨[r], heq⟩
  obtain ⟨rs, hrs⟩ := hlog
  refine ⟨hr.id, fun hd => ?_, fun d hd hnil => ?_⟩
  · rcases hr.absent hd with ⟨v, hv, hpre⟩ | hnone
    · exact Or.inl ⟨v, hrs ▸ redoVersions_append hv, hpre⟩
    · rcases (Db.row_step h a key).settled h with heq | heq | ⟨t, p, c, v, hp, heq, hv, hvt⟩
      · exact Or.inr (heq.trans hnone)
      · exact Or.inr heq
      · -- the first write of the key was over no row: an insert
        obtain ⟨own, base, older, hk⟩ := h.key key
        obtain ⟨u, rest, hu, -, -⟩ := hk.undo t v (Or.inl ⟨p, hp⟩) hv hvt
        rw [hv, settledRow_of_held hvt (h.txn.activeTs t p hp) hu] at hnone
        obtain ⟨r, hrl, x, hw, hx, hkey, hxt, hpre⟩ :=
          record_of_undosOn h.recordWf (hu ▸ List.mem_cons_self : u ∈ undosOn db.log t key)
        refine Or.inl ⟨x, ?_, hpre.mp hnone⟩
        rw [heq]
        exact mem_redoVersions_of_commit h ho hp (hfloor t p hp) hrl hw hx hkey hxt
  · have hnil' : redoVersions db.log floor key = [] := by
      rw [List.eq_nil_iff_forall_not_mem] at hnil ⊢
      intro v hv
      exact hnil v (hrs ▸ redoVersions_append hv)
    have hkeep : committedVersions (db.step a).log key = committedVersions db.log key ∧
        ∀ w, WroteKey db.log w key → commitTs db.log w = none →
          commitTs (db.step a).log w = none := by
      rcases (Db.step_spec db a h).log with heq | ⟨r, heq, hspec⟩
      · rw [heq]
        exact ⟨rfl, fun _ _ hw => hw⟩
      · rw [heq] at hnil ⊢
        rcases committedVersions_append h hspec key with ⟨t, p, hop, hp, v, hv, hvt⟩ | hsame
        · obtain ⟨r', hr', hwr, hkey⟩ := DbInv.mem_versionsOf.mp hv
          obtain ⟨lsn, op⟩ := r
          cases hop
          have hmem := mem_redoVersions_of_commit (c := lsn) h ho hp (hfloor t p hp) hr'
            ((h.recordWf r' hr' v hwr).writer ▸ hvt) hwr hkey hvt
          rw [hnil] at hmem
          cases hmem
        · refine ⟨hsame, fun w hwk hw => ?_⟩
          by_contra hne
          obtain ⟨c, hc⟩ := Option.ne_none_iff_exists'.mp hne
          obtain ⟨v, hv, hvw⟩ := hwk
          have hmem : v ∈ committedVersions (db.log ++ [r]) key := by
            rw [mem_committedVersions]
            refine ⟨?_, (committedBy_iff hvw).mpr ⟨c, hc⟩⟩
            rw [versionsOf_append]
            exact List.mem_append_left _ hv
          rw [hsame, mem_committedVersions, committedBy_iff hvw, hw] at hmem
          obtain ⟨-, c', hc'⟩ := hmem
          cases hc'
    have hlast : lastCommitted (db.step a).log key = lastCommitted db.log key := by
      unfold lastCommitted
      rw [hkeep.1]
    rw [hlast]
    rcases hr.present d hd hnil' with ⟨hc, hl⟩ | ⟨w, u, rest, hw, hts, hle, hu, htar⟩
    · exact Or.inl ⟨hrs ▸ hc.append, hl⟩
    · refine Or.inr ⟨w, u, rest ++ undosOn rs w key, hw, ?_, hle, ?_, htar⟩
      · refine hkeep.2 w ?_ hts
        rw [h.wroteKey_iff_undosOn, hu]
        simp
      · rw [hrs, undosOn_append, hu, List.cons_append]

/-! ## Checkpoints -/

theorem retentionFloor_le (h : DbInv db) (ht : InFlight db.txMgr t) :
    db.retentionFloor ≤ t := by
  have hlt := inFlight_lt h.txn ht
  have hfl : (db.txMgr.states t).any TxnState.isInFlight = true := by
    rcases ht with ⟨p, hp⟩ | hp
    · simp [hp, TxnState.isInFlight]
    · simp [hp, TxnState.isInFlight]
  unfold Db.retentionFloor
  cases ho : db.txMgr.oldestInFlight with
  | none =>
    unfold TransactionManager.oldestInFlight at ho
    rw [List.find?_range_eq_none] at ho
    have hno := ho t hlt
    rw [hfl] at hno
    cases hno
  | some id =>
    unfold TransactionManager.oldestInFlight at ho
    rw [List.find?_range_eq_some] at ho
    by_contra hgt
    have hno := ho.2.2 t (by simp only at hgt; omega)
    rw [hfl] at hno
    cases hno

omit [DecidableEq κ] in
theorem retentionFloor_le_clock (db : Db κ δ) : db.retentionFloor ≤ db.txMgr.clock := by
  unfold Db.retentionFloor
  split
  · exact Nat.min_le_right _ _
  · exact Nat.le_refl _

/-- What is settled is the last committed version, unless that is a tombstone
that has been purged. -/
theorem KeyInv.head_eq_lastCommitted {m : TransactionManager} {find : Nat → Option (Tuple κ δ)}
    {row : Option (Tuple κ δ)} {own base older : List (Tuple κ δ)}
    (h : KeyInv m log find key row own base older) :
    base.head? = lastCommitted log key ∨
      base.head? = none ∧ asRow (lastCommitted log key) = none := by
  have hlast : lastCommitted log key = (base ++ older).head? := by
    unfold lastCommitted
    rw [← h.history, List.head?_reverse]
  rw [hlast]
  cases base with
  | cons b bs => exact Or.inl rfl
  | nil =>
    refine Or.inr ⟨rfl, ?_⟩
    rw [List.nil_append]
    rcases h.cut with hnil | ⟨v, hv, -⟩ | ⟨v, hv, -, htomb⟩
    · rw [hnil]
      rfl
    · cases hv
    · rw [hv]
      exact asRow_tombstoned htomb

/-- A checkpoint's image is recoverable. -/
theorem recoverable_checkpoint (h : DbInv db) (key : κ) :
    Recoverable db db.retentionFloor key (db.rows key) := by
  obtain ⟨own, base, older, hk⟩ := h.key key
  refine ⟨fun d hd => hk.row_id hd, fun hd => Or.inr (by rw [hd]; rfl), fun d hd _ => ?_⟩
  by_cases hc : CommittedBy (commitTs db.log) d
  · have hown := hk.own_eq_nil h.txn hd hc
    subst hown
    have hhead : base.head? = some d := hk.path.eq_of_nil.symm.trans hd
    refine Or.inl ⟨hc, ?_⟩
    rcases hk.head_eq_lastCommitted with heq | ⟨hnone, -⟩
    · exact heq.symm.trans hhead
    · rw [hhead] at hnone
      cases hnone
  · have hne := hk.own_ne_nil hd hc
    have hmem : d ∈ own := by
      have hhead := hk.path.head_eq hne
      rw [hd] at hhead
      exact List.mem_of_mem_head? hhead.symm
    obtain ⟨w, hw, hfl, -⟩ := hk.holder d hmem
    obtain ⟨u, rest, hu, htar, -⟩ := hk.undo w d hfl hd hw
    refine Or.inr ⟨w, u, rest, hw, commitTs_of_inFlight h.txn hfl, retentionFloor_le h hfl, hu, ?_⟩
    rw [htar]
    exact hk.head_eq_lastCommitted

/-! ## What the two passes end in -/

/-- What recovery relies on in a log. -/
structure LogWf (log : List (LogRecord κ δ)) : Prop where
  record : ∀ r ∈ log, ∀ v, r.written = some v → RecordWf r v
  lsn : log.Pairwise fun r r' => r.lsn < r'.lsn
  order : LogOrdered log
  undoShape : ∀ t key u rest, undosOn log t key = u :: rest →
    (∀ v, u.target = some v → v.txnId ≠ some t) ∧
      ∀ u' ∈ rest, ∃ p, u'.target = some p ∧ p.txnId = some t

theorem DbInv.logWf (h : DbInv db) (ho : LogOrdered db.log) : LogWf db.log :=
  ⟨h.recordWf, h.lsnOrdered, ho, h.undoShape⟩

/-- What a recoverable image has to do with the log alone. -/
structure LogRecovers (log : List (LogRecord κ δ)) (floor : Nat) (key : κ)
    (disk : Option (Tuple κ δ)) : Prop where
  id : ∀ d, disk = some d → d.id = key
  absent : disk = none → (∃ v ∈ redoVersions log floor key, v.preLsn = none) ∨
    asRow (lastCommitted log key) = none
  present : ∀ d, disk = some d → redoVersions log floor key = [] →
    (CommittedBy (commitTs log) d ∧ lastCommitted log key = some d) ∨
      ∃ w u rest, d.txnId = some w ∧ commitTs log w = none ∧ floor ≤ w ∧
        undosOn log w key = u :: rest ∧ (u.target = lastCommitted log key ∨
          u.target = none ∧ asRow (lastCommitted log key) = none)

theorem asRow_lastCommitted_of_settled (h : DbInv db)
    (hset : settledRow db.log key (db.rows key) = none) :
    asRow (lastCommitted db.log key) = none := by
  obtain ⟨own, base, older, hk⟩ := h.key key
  rw [hk.settledRow_eq h.txn] at hset
  rcases hk.head_eq_lastCommitted with heq | ⟨-, hrow⟩
  · rw [← heq, hset]
    rfl
  · exact hrow

theorem Recoverable.logRecovers (h : DbInv db) {disk : Option (Tuple κ δ)}
    (hr : Recoverable db floor key disk) :
    LogRecovers db.log floor key disk where
  id := hr.id
  absent hd := (hr.absent hd).imp_right (asRow_lastCommitted_of_settled h)
  present := hr.present

omit [DecidableEq κ] in
/-- A transaction with a record at or above the floor has its `Commit` record
there, if it has one. -/
theorem mem_commits_iff (ho : LogOrdered log) (hr : r ∈ log) (hle : floor ≤ r.lsn)
    (hw : r.operation.writer = some t) :
    t ∈ (log.filter fun r => decide (floor ≤ r.lsn)).filterMap (fun r => r.operation.commits) ↔
      ∃ c, commitTs log t = some c := by
  rw [List.mem_filterMap]
  constructor
  · rintro ⟨r', hr', hcom⟩
    rw [← Option.isSome_iff_exists]
    unfold commitTs
    rw [List.findSome?_isSome_iff]
    exact ⟨r', List.mem_of_mem_filter hr', by simp [hcom]⟩
  · rintro ⟨c, hc⟩
    have hlt := ho.wrote r hr t c hw hc
    unfold commitTs at hc
    obtain ⟨r', hr', hres⟩ := List.exists_of_findSome?_eq_some hc
    split at hres
    · next hcom =>
        cases hres
        exact ⟨r', List.mem_filter.mpr ⟨hr', by simp only [decide_eq_true_eq]; omega⟩, hcom⟩
    · cases hres

/-- The records of a transaction above the floor all survive. -/
theorem undosOn_survivors (ho : LogOrdered log) {w : Nat} (hle : floor ≤ w) (key : κ) :
    undosOn (log.filter fun r => decide (floor ≤ r.lsn)) w key = undosOn log w key := by
  unfold undosOn undosOf
  rw [List.filterMap_filter]
  congr 1
  refine List.filterMap_congr fun r hr => ?_
  by_cases hw : r.operation.writer = some w
  · have hlt := ho.begun r hr w hw
    rw [if_pos (by simp only [decide_eq_true_eq]; omega)]
  · simp [hw]

section Recover

variable [DecidableEq δ]

variable {log : List (LogRecord κ δ)}

/-- Both passes of `process_log` at one key, for the records at or above the
floor. -/
theorem rows_replay (h : LogWf log) (floor : Nat) (s : Db κ δ) (key : κ) :
    let records := log.filter fun r => decide (floor ≤ r.lsn)
    let committed := records.filterMap fun r => r.operation.commits
    (s.replay records).rows key = records.foldr (undoRow committed key)
      ((redoVersions log floor key).foldl redoRow (s.rows key)) := by
  intro records committed
  have hwf : ∀ r ∈ records, ∀ v, r.written = some v → RecordWf r v := fun r hr =>
    h.record r (List.mem_of_mem_filter hr)
  have hvers : (versionsOf records key).filter (writtenByOneOf committed) =
      redoVersions log floor key := by
    refine List.filter_congr fun v hv => ?_
    obtain ⟨r, hr, hwr, -⟩ := DbInv.mem_versionsOf.mp hv
    obtain ⟨t, ht⟩ := (hwf r hr v hwr).txn
    have hvt := (hwf r hr v hwr).writer.trans ht
    obtain ⟨hr, hle⟩ := List.mem_filter.mp hr
    rw [Bool.eq_iff_iff, decide_eq_true_eq, committedBy_iff hvt]
    simp only [writtenByOneOf, hvt, Option.any_some, decide_eq_true_eq]
    exact mem_commits_iff h.order hr (of_decide_eq_true hle) ht
  have hrows : (s.replay records).rows =
      (records.reverse.foldl (Db.undoRecord committed)
        (records.foldl (Db.redoRecord committed) s)).rows := by
    unfold Db.replay Db.advancePast
    dsimp only
    split
    · rfl
    · rfl
  rw [hrows, rows_undo, rows_redo committed records hwf, hvers]

omit [DecidableEq κ] [DecidableEq δ] in
/-- What is committed is not undone. -/
theorem notUndone_of_committed (ho : LogOrdered log) (floor : Nat) {v : Tuple κ δ}
    (hc : CommittedBy (commitTs log) v) :
    NotUndone ((log.filter fun r => decide (floor ≤ r.lsn)).filterMap fun r => r.operation.commits)
      (log.filter fun r => decide (floor ≤ r.lsn)) v := by
  intro r hrec t ht hvt
  obtain ⟨hrec, hle⟩ := List.mem_filter.mp hrec
  exact (mem_commits_iff ho hrec (of_decide_eq_true hle) ht).mpr ((committedBy_iff hvt).mp hc)

omit [DecidableEq δ] in
theorem id_of_mem_redoVersions {floor : Nat} {key : κ} {v : Tuple κ δ}
    (hv : v ∈ redoVersions log floor key) : v.id = key := by
  obtain ⟨⟨r, -, -, -, hk⟩, -⟩ := mem_redoVersions.mp hv
  exact hk

/-- Recovery from a recoverable image, with the whole log at hand. -/
theorem restores_of_logRecovers (h : LogWf log) {floor : Nat} {key : κ} {s : Db κ δ}
    (hr : LogRecovers log floor key (s.rows key)) :
    Restores (lastCommitted log key)
      ((s.replay (log.filter fun r => decide (floor ≤ r.lsn))).rows key) := by
  rw [rows_replay h]
  have hstays : ∀ v, CommittedBy (commitTs log) v → _ :=
    fun v => notUndone_of_committed h.order floor
  set records := log.filter fun r => decide (floor ≤ r.lsn) with hrecords
  set committed := records.filterMap fun r => r.operation.commits
  have hnone : records.foldr (undoRow committed key) none = none :=
    foldr_undoRow_notUndone records fun v hv => by cases hv
  have hkey : ∀ v ∈ redoVersions log floor key, v.id = key :=
    fun v hv => id_of_mem_redoVersions hv
  -- where there is no row, and no insert to be redone, there is nothing to restore
  have habsent : s.rows key = none →
      (∀ v ∈ redoVersions log floor key, v.preLsn ≠ none) →
      asRow (lastCommitted log key) = none := by
    intro hd hno
    rcases hr.absent hd with ⟨v, hv, hpre⟩ | hset
    · exact absurd hpre (hno v hv)
    · exact hset
  by_cases hnil : redoVersions log floor key = []
  · rw [hnil, List.foldl_nil]
    cases hd : s.rows key with
    | none => exact Or.inl ⟨habsent hd (by simp [hnil]), hnone⟩
    | some d =>
      rcases hr.present d hd hnil with ⟨hc, hlast⟩ | ⟨w, u, rest, hw, hts, hle, hu, htar⟩
      · refine Or.inr ⟨d, d, hlast, ?_, rfl, alreadyApplied_self d⟩
        refine foldr_undoRow_notUndone records fun v hv => ?_
        cases hv
        exact hstays d hc
      · obtain ⟨r, hrl, -, hwr, -⟩ :=
          record_of_undosOn h.record (hu ▸ List.mem_cons_self : u ∈ undosOn log w key)
        have hwc : w ∉ committed := by
          have hlt := h.order.begun r hrl w hwr
          rw [mem_commits_iff h.order hrl (by omega) hwr, hts]
          rintro ⟨c, hc⟩
          cases hc
        have hcommitted : ∀ v, u.target = some v → CommittedBy (commitTs log) v := by
          intro v hv
          rcases htar with heq | ⟨heq, -⟩
          · have hmem : v ∈ committedVersions log key :=
              List.mem_of_getLast? (heq.symm.trans hv)
            exact (mem_committedVersions.mp hmem).2
          · rw [heq] at hv
            cases hv
        have hundo : undosOn records w key = u :: rest := by
          rw [hrecords, undosOn_survivors h.order hle, hu]
        rw [foldr_undoRow_first hwc records hundo (h.undoShape w key u rest hu).2
          (fun v hv => hstays v (hcommitted v hv)) ⟨d, rfl, hw⟩]
        rcases htar with heq | ⟨heq, hrow⟩
        · rw [heq]
          cases hl : lastCommitted log key with
          | none => exact Or.inl ⟨rfl, rfl⟩
          | some v => exact Or.inr ⟨v, v, rfl, rfl, rfl, alreadyApplied_self v⟩
        · exact Or.inl ⟨hrow, heq⟩
  · have hlast := lastCommitted_eq_redoVersions h.lsn hnil
    obtain ⟨v, hv⟩ : ∃ v, (redoVersions log floor key).getLast? = some v :=
      ⟨_, List.getLast?_eq_some_getLast hnil⟩
    have hvc : CommittedBy (commitTs log) v :=
      (mem_redoVersions.mp (List.mem_of_getLast? hv)).2
    -- a row that redo left is the last version, and stays
    have hredone : ∀ c, c.id = v.id → alreadyApplied c v = true →
        Restores (lastCommitted log key)
          (records.foldr (undoRow committed key) (some c)) := by
      intro c hid ha
      refine Or.inr ⟨v, c, hlast.trans hv, ?_, hid, ha⟩
      refine foldr_undoRow_notUndone records fun x hx => ?_
      cases hx
      refine hstays c ?_
      unfold CommittedBy at hvc ⊢
      rwa [txnId_of_alreadyApplied ha]
    cases hd : s.rows key with
    | some d =>
      obtain ⟨c, hc, hid, ha⟩ := foldl_redoRow_some _ hkey (hr.id d hd) hv
      rw [hc]
      exact hredone c hid ha
    | none =>
      rcases foldl_redoRow_none _ hkey hv with ⟨hno, heq⟩ | ⟨-, c, hc, hid, ha⟩
      · rw [heq]
        exact Or.inl ⟨habsent hd hno, hnone⟩
      · rw [hc]
        exact hredone c hid ha

end Recover

/-! ## Runs with checkpoints -/

/-- The invariant of a database that may crash. -/
structure DurableInv (s : Durable κ δ) : Prop where
  db : DbInv s.db
  ordered : LogOrdered s.db.log
  floorClock : s.floor ≤ s.db.txMgr.clock
  floorActive : ∀ t p, s.db.txMgr.states t = some (.active p) → s.floor ≤ t
  key : ∀ key, Recoverable s.db s.floor key (s.disk key)

namespace Durable

theorem inv_new : DurableInv (new : Durable κ δ) where
  db := Db.inv_new
  ordered := ⟨fun _ hr => (List.not_mem_nil hr).elim, fun _ hr => (List.not_mem_nil hr).elim⟩
  floorClock := Nat.zero_le _
  floorActive := fun _ _ _ => Nat.zero_le _
  key := fun _ => ⟨fun _ hd => (nomatch hd), fun _ => Or.inr rfl, fun _ hd => (nomatch hd)⟩

theorem inv_step (s : Durable κ δ) (a : DurableAction κ δ) (h : DurableInv s)
    (htakes : s.Takes a) : DurableInv (s.step a) := by
  rcases htakes.cases with ⟨a, heq⟩ | heq | ⟨n, heq⟩
  · rw [heq]
    have hspec := Db.step_spec s.db a h.db
    refine ⟨Db.inv_step s.db a h.db, h.ordered.step h.db a, ?_, ?_, ?_⟩
    · exact Nat.le_trans h.floorClock hspec.clock
    · intro t p hp
      rcases hspec.reader t p hp with heq | hold
      · rw [heq]
        exact h.floorClock
      · exact h.floorActive t p hold
    · exact fun key => (h.key key).step h.db h.ordered h.floorActive a
  · rw [heq]
    exact ⟨h.db, h.ordered, retentionFloor_le_clock s.db,
      fun t p hp => retentionFloor_le h.db (Or.inl ⟨p, hp⟩),
      fun key => recoverable_checkpoint h.db key⟩
  · rw [heq]
    exact ⟨h.db, h.ordered, h.floorClock, h.floorActive, h.key⟩

variable {s : Durable κ δ}

theorem inv_of_reachable (h : s.Reachable) : DurableInv s :=
  h.invariant inv_new inv_step

/-- A crash that lost the end of the log could have happened earlier: the
surviving prefix was the whole log of a reachable state with the same image
and header. -/
theorem earlier_crash (h : s.Reachable) {n : Nat} (hsynced : s.synced ≤ n)
    (hn : n ≤ s.db.log.length) :
    ∃ s' : Durable κ δ, s'.Reachable ∧ s'.db.log = s.db.log.take n ∧
      (s'.disk, s'.floor, s'.counter) = (s.disk, s.floor, s.counter) := by
  refine Lib.Reachable.history_prefix (fun s : Durable κ δ => s.db.log) synced
    (fun s : Durable κ δ => (s.disk, s.floor, s.counter)) rfl ?_ ?_ h n hsynced hn
  · intro s a hs htakes
    rcases htakes.cases with ⟨a, heq⟩ | heq | ⟨n, heq⟩
    · rw [heq]
      refine (Db.step_spec s.db a (inv_of_reachable hs).db).log.imp_right ?_
      rintro ⟨r, heq, -⟩
      exact ⟨r, heq⟩
    · exact Or.inl (by rw [heq]; rfl)
    · exact Or.inl (by rw [heq]; rfl)
  · intro s a _
    cases a with
    | operate a => exact Or.inl ⟨rfl, Nat.le_refl _⟩
    | refused a refusal => exact Or.inl ⟨rfl, Nat.le_refl _⟩
    | checkpoint => exact Or.inr rfl
    | sync n => exact Or.inl ⟨rfl, Nat.le_max_left _ _⟩

variable [DecidableEq δ]

theorem recovered_restores (h : s.Reachable) {n : Nat} (hsynced : s.synced ≤ n)
    (hn : n ≤ s.db.log.length) (key : κ) :
    Restores (lastCommitted (s.db.log.take n) key) ((s.recovered n).rows key) := by
  obtain ⟨s', hs', hlog, hframe⟩ := earlier_crash h hsynced hn
  simp only [Prod.mk.injEq] at hframe
  obtain ⟨hdisk, hfloor, hcounter⟩ := hframe
  have hinv := inv_of_reachable hs'
  have hkey : Recoverable s'.db s'.floor key ((s.opened n).rows key) := by
    have hrow : (s.opened n).rows key = s'.disk key := congrFun hdisk.symm key
    rw [hrow]
    exact hinv.key key
  have hres := restores_of_logRecovers (hinv.db.logWf hinv.ordered) (hkey.logRecovers hinv.db)
  rw [hlog, hfloor] at hres
  exact hres

/-- Index entries of 48 bytes, 8 of them next to the key: what a table made with the
default layout refuses.  Keys are byte strings. -/
def smallEntries : Db.Refusals (List Nat) Nat where
  redo r :=
    match r.operation with
    | .add _ post =>
      if 48 < 8 + post.id.length then some (.tupleTooLarge (8 + post.id.length) 48) else none
    | _ => none
  undo _ := none

end Durable

end SquealDb.Store
