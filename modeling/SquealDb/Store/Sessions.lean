import Mathlib.Data.List.Induction
import SquealDb.Store.Founding

/-!
# Recovery after recovery

With no checkpoint in between, every recovery begins at the same page image and replays
the records of all sessions since: what an earlier recovery undid was not logged, and is
undone again after the later sessions' commits were redone.

A session runs over the rows that its recovery left, and appends to the records that it
found.  It is also a session over the log that founds its rows, where the store's
invariant holds, and what that says about the session's own records carries over to the
log that is on disk.
-/

namespace SquealDb.Store

open Lib

variable {κ δ : Type*} [DecidableEq κ]

/-! ## A session's records after the older ones -/

/-- The record is of a write or the commit of `t`. -/
def LogRecord.Names (r : LogRecord κ δ) (t : Nat) : Prop :=
  r.operation.writer = some t ∨ r.operation.commits = some t

omit [DecidableEq κ] in
theorem LogRecord.Names.txn_eq {r : LogRecord κ δ} {t : Nat} (h : r.Names t) :
    r.operation.txn = t := by
  unfold LogRecord.Names at h
  cases hop : r.operation with
  | add txn post => simpa [hop, Operation.writer, Operation.commits, Operation.txn] using h
  | mod txn pre post => simpa [hop, Operation.writer, Operation.commits, Operation.txn] using h
  | del txn pre => simpa [hop, Operation.writer, Operation.commits, Operation.txn] using h
  | commit txn => simpa [hop, Operation.writer, Operation.commits, Operation.txn] using h
  | rollback txn => simp [hop, Operation.writer, Operation.commits] at h
  | purge txn key => simp [hop, Operation.writer, Operation.commits] at h

/-- The numbers of `news` were issued from `start` on, those of `olds` before. -/
structure Follows (olds news : List (LogRecord κ δ)) (start : Nat) : Prop where
  old : ∀ r ∈ olds, r.lsn < start ∧ ∀ t, r.Names t → t < start
  new : ∀ r ∈ news, start ≤ r.lsn ∧ ∀ t, r.Names t → start ≤ t

namespace Follows

variable {olds news : List (LogRecord κ δ)} {start floor : Nat}

variable {t : Nat} {v : Tuple κ δ}

omit [DecidableEq κ] in
theorem commitTs_eq_none {log : List (LogRecord κ δ)}
    (h : ∀ r ∈ log, r.operation.commits ≠ some t) : commitTs log t = none := by
  unfold commitTs
  rw [List.findSome?_eq_none_iff]
  intro r hr
  rw [if_neg (h r hr)]

omit [DecidableEq κ] in
theorem commitTs_append (olds news : List (LogRecord κ δ)) (t : Nat) :
    commitTs (olds ++ news) t = (commitTs olds t).or (commitTs news t) :=
  List.findSome?_append

omit [DecidableEq κ] in
theorem commitTs_old (h : Follows olds news start) (ht : t < start) :
    commitTs (olds ++ news) t = commitTs olds t := by
  have hnone : commitTs news t = none := by
    apply commitTs_eq_none
    intro r hr hcom
    have hle := (h.new r hr).2 t (Or.inr hcom)
    omega
  rw [commitTs_append, hnone, Option.or_none]

omit [DecidableEq κ] in
theorem commitTs_new (h : Follows olds news start) (ht : start ≤ t) :
    commitTs (olds ++ news) t = commitTs news t := by
  have hnone : commitTs olds t = none := by
    apply commitTs_eq_none
    intro r hr hcom
    have hlt := (h.old r hr).2 t (Or.inr hcom)
    omega
  rw [commitTs_append, hnone, Option.none_or]

theorem undosOn_eq_nil {log : List (LogRecord κ δ)} (h : ∀ r ∈ log, r.operation.writer ≠ some t)
    (key : κ) : undosOn log t key = [] := by
  have hnil : undosOf log t = [] := by
    unfold undosOf
    rw [List.filterMap_eq_nil_iff]
    intro r hr
    rw [if_neg (h r hr)]
  unfold undosOn
  rw [hnil]
  rfl

theorem undosOn_old (h : Follows olds news start) (ht : t < start) (key : κ) :
    undosOn (olds ++ news) t key = undosOn olds t key := by
  have hnil : undosOn news t key = [] := by
    apply undosOn_eq_nil
    intro r hr hw
    have hle := (h.new r hr).2 t (Or.inl hw)
    omega
  rw [undosOn_append, hnil, List.append_nil]

theorem undosOn_new (h : Follows olds news start) (ht : start ≤ t) (key : κ) :
    undosOn (olds ++ news) t key = undosOn news t key := by
  have hnil : undosOn olds t key = [] := by
    apply undosOn_eq_nil
    intro r hr hw
    have hlt := (h.old r hr).2 t (Or.inl hw)
    omega
  rw [undosOn_append, hnil, List.nil_append]

omit [DecidableEq κ] in
/-- A version of either part is committed as that part says. -/
theorem committedBy_old (h : Follows olds news start) {r : LogRecord κ δ} (hr : r ∈ olds)
    (hwf : RecordWf r v) :
    CommittedBy (commitTs (olds ++ news)) v ↔ CommittedBy (commitTs olds) v := by
  obtain ⟨t, ht⟩ := hwf.txn
  have hvt := hwf.writer.trans ht
  rw [committedBy_iff hvt, committedBy_iff hvt, h.commitTs_old ((h.old r hr).2 t (Or.inl ht))]

omit [DecidableEq κ] in
theorem committedBy_new (h : Follows olds news start) {r : LogRecord κ δ} (hr : r ∈ news)
    (hwf : RecordWf r v) :
    CommittedBy (commitTs (olds ++ news)) v ↔ CommittedBy (commitTs news) v := by
  obtain ⟨t, ht⟩ := hwf.txn
  have hvt := hwf.writer.trans ht
  rw [committedBy_iff hvt, committedBy_iff hvt, h.commitTs_new ((h.new r hr).2 t (Or.inl ht))]

/-- The versions of a part of the log that are committed by the whole of it. -/
theorem filter_committed (h : Follows olds news start) (hold : LogWf olds) (hnew : LogWf news)
    (key : κ) :
    ((versionsOf olds key).filter fun v => decide (CommittedBy (commitTs (olds ++ news)) v)) =
        (versionsOf olds key).filter (fun v => decide (CommittedBy (commitTs olds) v)) ∧
      ((versionsOf news key).filter fun v => decide (CommittedBy (commitTs (olds ++ news)) v)) =
        (versionsOf news key).filter fun v => decide (CommittedBy (commitTs news) v) := by
  constructor
  · apply List.filter_congr
    intro v hv
    obtain ⟨r, hr, hwr, -⟩ := DbInv.mem_versionsOf.mp hv
    rw [decide_eq_decide, h.committedBy_old hr (hold.record r hr v hwr)]
  · apply List.filter_congr
    intro v hv
    obtain ⟨r, hr, hwr, -⟩ := DbInv.mem_versionsOf.mp hv
    rw [decide_eq_decide, h.committedBy_new hr (hnew.record r hr v hwr)]

theorem committedVersions_eq (h : Follows olds news start) (hold : LogWf olds) (hnew : LogWf news)
    (key : κ) :
    committedVersions (olds ++ news) key =
      committedVersions olds key ++ committedVersions news key := by
  obtain ⟨hl, hr⟩ := h.filter_committed hold hnew key
  unfold committedVersions
  rw [versionsOf_append, List.filter_append, hl, hr]

/-- What is to be redone of the new records is to be redone of the whole log. -/
theorem redoVersions_new (h : Follows olds news start) (hnew : LogWf news) {key : κ}
    (hv : v ∈ redoVersions news floor key) :
    v ∈ redoVersions (olds ++ news) floor key := by
  rw [mem_redoVersions] at hv ⊢
  obtain ⟨⟨r, hr, hle, hwr, hid⟩, hcom⟩ := hv
  exact ⟨⟨r, List.mem_append_right _ hr, hle, hwr, hid⟩,
    (h.committedBy_new hr (hnew.record r hr v hwr)).mpr hcom⟩

/-- The records of a session are in order by themselves. -/
theorem logWf_new (h : Follows olds news start) (hwf : LogWf (olds ++ news)) : LogWf news where
  record r hr := hwf.record r (List.mem_append_right _ hr)
  lsn := (List.pairwise_append.mp hwf.lsn).2.1
  order := by
    constructor
    · exact fun r hr => hwf.order.begun r (List.mem_append_right _ hr)
    · intro r hr t c hw hc
      apply hwf.order.wrote r (List.mem_append_right _ hr) t c hw
      rw [h.commitTs_new ((h.new r hr).2 t (Or.inl hw))]
      exact hc
  undoShape t key u rest hu := by
    have ht : start ≤ t := by
      obtain ⟨r, hr, v, hw, -⟩ := record_of_undosOn
        (fun r hr => hwf.record r (List.mem_append_right _ hr))
        (hu ▸ List.mem_cons_self : u ∈ undosOn news t key)
      exact (h.new r hr).2 t (Or.inl hw)
    exact hwf.undoShape t key u rest ((h.undosOn_new ht key).trans hu)

/-- A session's records keep the log in order. -/
theorem logWf_append (h : Follows olds news start) (hold : LogWf olds) (hnew : LogWf news) :
    LogWf (olds ++ news) where
  record r hr := by
    rcases List.mem_append.mp hr with hr | hr
    · exact hold.record r hr
    · exact hnew.record r hr
  lsn := by
    rw [List.pairwise_append]
    refine ⟨hold.lsn, hnew.lsn, fun r hr r' hr' => ?_⟩
    exact Nat.lt_of_lt_of_le (h.old r hr).1 (h.new r' hr').1
  order := by
    constructor
    · intro r hr
      rcases List.mem_append.mp hr with hr | hr
      · exact hold.order.begun r hr
      · exact hnew.order.begun r hr
    · intro r hr t c hw hc
      rcases List.mem_append.mp hr with hr | hr
      · rw [h.commitTs_old ((h.old r hr).2 t (Or.inl hw))] at hc
        exact hold.order.wrote r hr t c hw hc
      · rw [h.commitTs_new ((h.new r hr).2 t (Or.inl hw))] at hc
        exact hnew.order.wrote r hr t c hw hc
  undoShape t key u rest hu := by
    by_cases ht : t < start
    · rw [h.undosOn_old ht] at hu
      exact hold.undoShape t key u rest hu
    · rw [h.undosOn_new (Nat.le_of_not_lt ht)] at hu
      exact hnew.undoShape t key u rest hu

end Follows

/-! ## Replaying twice -/

section Twice

variable [DecidableEq δ]

/-- What `already_applied` compares. -/
def Tuple.tag (v : Tuple κ δ) : δ × Bool × Option Nat := (v.data, v.tombstoned, v.txnId)

/-- Redo over a row. -/
def settle (c v : Tuple κ δ) : Tuple κ δ := if c.tag = v.tag then c else v

variable {c : Tuple κ δ}

omit [DecidableEq κ] in
theorem alreadyApplied_iff {v : Tuple κ δ} : alreadyApplied c v = true ↔ c.tag = v.tag := by
  simp [alreadyApplied, Tuple.tag, and_assoc]

omit [DecidableEq κ] in
theorem redoRow_settle (c v : Tuple κ δ) : redoRow (some c) v = some (settle c v) := by
  unfold redoRow settle
  dsimp only
  by_cases ha : c.tag = v.tag
  · rw [if_pos (alreadyApplied_iff.mpr ha), if_pos ha]
  · rw [if_neg (fun h => ha (alreadyApplied_iff.mp h)), if_neg ha]

omit [DecidableEq κ] in
theorem foldl_redoRow_settle (vs : List (Tuple κ δ)) (c : Tuple κ δ) :
    vs.foldl redoRow (some c) = some (vs.foldl settle c) := by
  induction vs generalizing c with
  | nil => rfl
  | cons v vs ih =>
    rw [List.foldl_cons, List.foldl_cons, redoRow_settle]
    exact ih _

omit [DecidableEq κ] in
theorem tag_settle (c v : Tuple κ δ) : (settle c v).tag = v.tag := by
  unfold settle
  split
  · next ha => exact ha
  · rfl

omit [DecidableEq κ] in
theorem tag_foldl_concat (vs : List (Tuple κ δ)) (v c : Tuple κ δ) :
    ((vs ++ [v]).foldl settle c).tag = v.tag := by
  rw [List.foldl_append]
  exact tag_settle _ v

omit [DecidableEq κ] in
/-- Redo from its own result, after versions `pre` that leave the row `c` it began with. -/
theorem foldl_settle_again {pre : List (Tuple κ δ)} (hc : pre.foldl settle c = c)
    (hpre : ∀ x, pre.foldl settle x = x ∨ (pre.foldl settle x).tag = c.tag)
    (vs : List (Tuple κ δ)) :
    (pre ++ vs).foldl settle (vs.foldl settle c) = vs.foldl settle c := by
  induction vs using List.reverseRecOn with
  | nil =>
    rw [List.append_nil]
    exact hc
  | append_singleton ws v ih =>
    have hlast : ∀ x, (pre ++ (ws ++ [v])).foldl settle x =
        settle ((pre ++ ws).foldl settle x) v := by
      intro x
      rw [← List.append_assoc, List.foldl_append]
      rfl
    have hres : (ws ++ [v]).foldl settle c = settle (ws.foldl settle c) v := by
      rw [List.foldl_append]
      rfl
    rw [hlast, hres]
    by_cases ha : (ws.foldl settle c).tag = v.tag
    · have hkeep : settle (ws.foldl settle c) v = ws.foldl settle c := if_pos ha
      rw [hkeep, ih]
      exact hkeep
    · have hreplace : settle (ws.foldl settle c) v = v := if_neg ha
      rw [hreplace]
      have hbefore : (pre ++ ws).foldl settle v = v ∨
          ((pre ++ ws).foldl settle v).tag ≠ v.tag := by
        -- what is redone just before `v` decides, whatever the row was
        rcases List.eq_nil_or_concat ws with rfl | ⟨us, w, rfl⟩
        · rw [List.append_nil]
          rcases hpre v with heq | htag
          · exact Or.inl heq
          · right
            rw [htag]
            exact ha
        · right
          rw [List.concat_eq_append] at ha ⊢
          rw [tag_foldl_concat] at ha
          rw [← List.append_assoc, tag_foldl_concat]
          exact ha
      rcases hbefore with heq | hne
      · rw [heq]
        exact if_pos rfl
      · exact if_neg hne

omit [DecidableEq κ] in
theorem tag_of_redoRow {row : Option (Tuple κ δ)} {v : Tuple κ δ} (h : redoRow row v = some c) :
    c.tag = v.tag := by
  cases row with
  | none =>
    unfold redoRow at h
    dsimp only at h
    split at h
    · cases h
      rfl
    · cases h
  | some x =>
    rw [redoRow_settle] at h
    cases h
    exact tag_settle x v

omit [DecidableEq κ] in
/-- Redo leaves no row where nothing is inserted. -/
theorem foldl_redoRow_of_updates {vs : List (Tuple κ δ)} (h : ∀ v ∈ vs, v.preLsn ≠ none) :
    vs.foldl redoRow none = none := by
  induction vs with
  | nil => rfl
  | cons v vs ih =>
    have hv : redoRow none v = none := if_neg (h v List.mem_cons_self)
    rw [List.foldl_cons, hv]
    exact ih fun x hx => h x (List.mem_cons_of_mem _ hx)

omit [DecidableEq κ] in
/-- Redoing the same versions again changes nothing, if an insert is never a transaction's
second write of the key. -/
theorem foldl_redoRow_twice {vs : List (Tuple κ δ)}
    (hvs : vs.Pairwise fun v v' => v.txnId = v'.txnId → v'.preLsn ≠ none)
    (row : Option (Tuple κ δ)) :
    vs.foldl redoRow (vs.foldl redoRow row) = vs.foldl redoRow row := by
  cases row with
  | some c =>
    have hnil : ([] : List (Tuple κ δ)).foldl settle c = c := rfl
    have hagain := foldl_settle_again hnil (fun x => Or.inl rfl) vs
    rw [foldl_redoRow_settle, foldl_redoRow_settle]
    exact congrArg some hagain
  | none =>
    cases hfind : vs.find? fun v => decide (v.preLsn = none) with
    | none =>
      rw [List.find?_eq_none] at hfind
      have hupdates : ∀ v ∈ vs, v.preLsn ≠ none := fun v hv hpre =>
        hfind v hv (decide_eq_true hpre)
      rw [foldl_redoRow_of_updates hupdates, foldl_redoRow_of_updates hupdates]
    | some a =>
      -- redo began with the insert of `a`
      obtain ⟨ha, before, after, rfl, hbefore⟩ := List.find?_eq_some_iff_append.mp hfind
      have hpre : a.preLsn = none := of_decide_eq_true ha
      have hupdates : ∀ v ∈ before, v.preLsn ≠ none := by
        intro v hv hnone
        have hno := hbefore v hv
        rw [hnone] at hno
        cases hno
      have hfirst : (before ++ a :: after).foldl redoRow none =
          after.foldl redoRow (some a) := by
        have hadd : redoRow none a = some a := if_pos hpre
        rw [List.foldl_append, foldl_redoRow_of_updates hupdates, List.foldl_cons, hadd]
      have hother : ∀ v ∈ before, v.tag ≠ a.tag := by
        intro v hv htag
        have htxn : v.txnId = a.txnId := congrArg (fun t => t.2.2) htag
        exact (List.pairwise_append.mp hvs).2.2 v hv a List.mem_cons_self htxn hpre
      have hleave : (before ++ [a]).foldl settle a = a := by
        rw [List.foldl_append, List.foldl_cons, List.foldl_nil]
        rcases List.eq_nil_or_concat before with rfl | ⟨us, u, rfl⟩
        · exact if_pos rfl
        · rw [List.concat_eq_append] at hother ⊢
          have htag : ((us ++ [u]).foldl settle a).tag ≠ a.tag := by
            rw [tag_foldl_concat]
            exact hother u (List.mem_append_right _ List.mem_cons_self)
          exact if_neg htag
      have hagain := foldl_settle_again hleave
        (fun x => Or.inr (tag_foldl_concat before a x)) after
      rw [hfirst, foldl_redoRow_settle, foldl_redoRow_settle]
      rw [List.append_assoc, List.singleton_append] at hagain
      exact congrArg some hagain

omit [DecidableEq δ] in
/-- A transaction inserts a key, if at all, before its other writes of it. -/
theorem pairwise_versionsOf {log : List (LogRecord κ δ)} (h : LogWf log) (key : κ) :
    (versionsOf log key).Pairwise fun v v' => v.txnId = v'.txnId → v'.preLsn ≠ none := by
  unfold versionsOf
  rw [List.pairwise_filterMap, List.pairwise_iff_forall_sublist]
  intro r r' hsub v hv v' hv' htxn hnone
  obtain ⟨hwr, hid⟩ := Option.filter_eq_some_iff.mp hv
  obtain ⟨hwr', hid'⟩ := Option.filter_eq_some_iff.mp hv'
  have hr : RecordWf r v := h.record r (hsub.subset List.mem_cons_self) v hwr
  have hr' : RecordWf r' v' :=
    h.record r' (hsub.subset (List.mem_cons_of_mem _ List.mem_cons_self)) v' hwr'
  obtain ⟨t, ht⟩ := hr.txn
  have ht' : r'.operation.writer = some t := by
    rw [← hr'.writer, ← htxn, hr.writer, ht]
  obtain ⟨u, hu, hkey, -⟩ := hr.undo
  obtain ⟨u', hu', hkey', hpre'⟩ := hr'.undo
  have hpair : undosOn [r, r'] t key = [u, u'] := by
    have huk : u.key = key := hkey.trans (of_decide_eq_true hid)
    have huk' : u'.key = key := hkey'.trans (of_decide_eq_true hid')
    simp [undosOn, undosOf, ht, ht', hu, hu', huk, huk']
  have hundos : List.Sublist [u, u'] (undosOn log t key) := by
    rw [← hpair]
    exact (hsub.filterMap _).filter _
  -- the insert's undo is not the transaction's first on the key
  cases hlog : undosOn log t key with
  | nil =>
    rw [hlog] at hundos
    cases hundos
  | cons x rest =>
    rw [hlog] at hundos
    have hmem : u' ∈ rest := hundos.tail.subset List.mem_cons_self
    obtain ⟨p, hp, -⟩ := (h.undoShape t key x rest hlog).2 u' hmem
    rw [hpre'.mpr hnone] at hp
    cases hp

omit [DecidableEq δ] in
theorem pairwise_redoVersions {log : List (LogRecord κ δ)} (h : LogWf log) (floor : Nat) (key : κ) :
    (redoVersions log floor key).Pairwise fun v v' => v.txnId = v'.txnId → v'.preLsn ≠ none := by
  have hsub : List.Sublist (versionsOf (log.filter fun r => decide (floor ≤ r.lsn)) key)
      (versionsOf log key) := List.filter_sublist.filterMap _
  exact ((pairwise_versionsOf h key).sublist hsub).filter _

end Twice

/-! ## Sessions -/

/-- A step of a session, without checkpoints; a crash that leaves some records of the log
ends it, and the next one begins with their recovery, if the tree does not refuse that. -/
inductive SessionAction (κ δ : Type*) where
  | operate (a : Action κ δ)
  | refused (a : Action κ δ) (refusal : StoreError κ)
  | sync (records : Nat)
  | crash (survive : Nat) (refusals : Db.Refusals κ δ)

namespace Durable

variable [DecidableEq δ]

/-- The next session over a database recovered from the image and the records that
survived, which stay in the log.  Those below the floor are never replayed and stay only
as history. -/
def nextSession (s : Durable κ δ) (n : Nat) (db : Db κ δ) : Durable κ δ :=
  { s with
    db := { db with log := s.db.log.take n }
    synced := (s.db.log.take n).length }

/-- A step of a session, if the database has opened. -/
def sessionStep (s : Except (StoreError κ) (Durable κ δ)) (a : SessionAction κ δ) :
    Except (StoreError κ) (Durable κ δ) := do
  let s ← s
  match a with
  | .operate a => return s.step (.operate a)
  | .refused a refusal => return s.step (.refused a refusal)
  | .sync n => return s.step (.sync n)
  | .crash n refusals =>
    if s.synced ≤ n then return s.nextSession n (← s.recover n refusals) else return s

/-- The pages take what has been decided, and what is replayed. -/
def SessionTakes : Except (StoreError κ) (Durable κ δ) → SessionAction κ δ → Prop
  | .ok s, .refused a refusal => s.Takes (.refused a refusal)
  | .ok s, .crash n refusals => refusals.NoneOf (s.survivors n)
  | _, _ => True

instance : ∀ (s : Except (StoreError κ) (Durable κ δ)) a, Decidable (SessionTakes s a)
  | .ok s, .refused a refusal => inferInstanceAs (Decidable (s.Takes (.refused a refusal)))
  | .ok s, .crash n refusals => inferInstanceAs (Decidable (refusals.NoneOf (s.survivors n)))
  | .ok _, .operate _ | .ok _, .sync _ | .error _, _ => .isTrue trivial

/-- The session after a recovery that is not refused. -/
def restart (s : Durable κ δ) (n : Nat) : Durable κ δ := s.nextSession n (s.recovered n)

/-- The first `n` records of the log are in order and bring the image to the last
committed versions. -/
structure Survives (s : Durable κ δ) (n : Nat) : Prop where
  wf : LogWf (s.db.log.take n)
  key : ∀ key, LogRecovers (s.db.log.take n) s.floor key (s.disk key)

/-- The numbers on the pages are below the header's counter, those in memory and in the
log below the clock. -/
structure Numbers (s : Durable κ δ) : Prop where
  memory : Numbered s.db s.db.txMgr.clock
  log : ∀ r ∈ s.db.log, r.lsn < s.db.txMgr.clock ∧ r.Latest
  floor : s.floor ≤ s.counter
  counter : s.counter ≤ s.db.txMgr.clock
  disk : RowsBelow s.disk s.counter

/-- A session over `rows`, which began at the number `start`: `olds` are the records it
found, `founds` a log that founds its rows, and `d` the database with only the records of
the session in its log. -/
structure Session (s : Durable κ δ) (olds founds : List (LogRecord κ δ)) (d : Db κ δ)
    (rows : κ → Option (Tuple κ δ)) (start : Nat) : Prop where
  db : s.db = d.prepend olds
  inv : DbInv (d.prepend founds)
  ordered : LogOrdered (founds ++ d.log)
  clock : start ≤ d.txMgr.clock
  active : ∀ t p, d.txMgr.states t = some (.active p) → start ≤ t
  virtual : ∀ key, Recoverable (d.prepend founds) start key (rows key)
  after : Follows olds d.log start
  built : Follows founds d.log start
  floor : s.floor ≤ start
  wf : LogWf olds
  base : ∀ key, LogRecovers olds s.floor key (s.disk key)
  absent : ∀ key, s.disk key = none →
    (∀ v ∈ redoVersions olds s.floor key, v.preLsn ≠ none) → rows key = none

namespace Session

variable {s : Durable κ δ} {olds founds : List (LogRecord κ δ)} {d : Db κ δ}
  {rows : κ → Option (Tuple κ δ)} {start : Nat}

omit [DecidableEq δ] in
/-- Where the image has no row and no insert of the older records is to be redone, the
session began with no row, and what it committed begins with an insert. -/
theorem absent_append (h : Session s olds founds d rows start) (hnew : LogWf d.log) (key : κ)
    (hd : s.disk key = none) :
    (∃ v ∈ redoVersions (olds ++ d.log) s.floor key, v.preLsn = none) ∨
      asRow (lastCommitted (olds ++ d.log) key) = none := by
  by_cases hadd : ∃ v ∈ redoVersions olds s.floor key, v.preLsn = none
  · obtain ⟨v, hv, hpre⟩ := hadd
    exact Or.inl ⟨v, redoVersions_append hv, hpre⟩
  · have hno : ∀ v ∈ redoVersions olds s.floor key, v.preLsn ≠ none :=
      fun v hv hpre => hadd ⟨v, hv, hpre⟩
    have hempty : asRow (lastCommitted olds key) = none := by
      rcases (h.base key).absent hd with ⟨v, hv, hpre⟩ | hempty
      · exact absurd hpre (hno v hv)
      · exact hempty
    rcases (h.virtual key).absent (h.absent key hd hno) with ⟨v, hv, hpre⟩ | hset
    · left
      refine ⟨v, ?_, hpre⟩
      obtain ⟨⟨r, hr, hle, hwr, hid⟩, hcom⟩ := mem_redoVersions.mp hv
      have hrnew : r ∈ d.log := by
        rcases List.mem_append.mp hr with hr | hr
        · exact absurd (h.built.old r hr).1 (Nat.not_lt.mpr hle)
        · exact hr
      apply h.after.redoVersions_new hnew
      refine mem_redoVersions.mpr ⟨⟨r, hrnew, Nat.le_trans h.floor hle, hwr, hid⟩, ?_⟩
      exact (h.built.committedBy_new hrnew (hnew.record r hrnew v hwr)).mp hcom
    · right
      have hvirtual := asRow_lastCommitted_of_settled h.inv hset
      have hlog : (d.prepend founds).log = founds ++ d.log := rfl
      have hfounds : committedVersions (founds ++ d.log) key =
          ((versionsOf founds key).filter fun v =>
            decide (CommittedBy (commitTs (founds ++ d.log)) v)) ++
            committedVersions d.log key := by
        unfold committedVersions
        rw [versionsOf_append, List.filter_append]
        congr 1
        apply List.filter_congr
        intro v hv
        obtain ⟨r, hr, hwr, -⟩ := DbInv.mem_versionsOf.mp hv
        rw [decide_eq_decide, h.built.committedBy_new hr (hnew.record r hr v hwr)]
      unfold lastCommitted at hvirtual hempty ⊢
      rw [hlog, hfounds] at hvirtual
      rw [h.after.committedVersions_eq h.wf hnew]
      by_cases hnil : committedVersions d.log key = []
      · rw [hnil, List.append_nil]
        exact hempty
      · rw [List.getLast?_append_of_ne_nil _ hnil] at hvirtual ⊢
        exact hvirtual

omit [DecidableEq δ] in
/-- What a session has appended keeps the image recoverable. -/
theorem survives (h : Session s olds founds d rows start) :
    LogWf s.db.log ∧ ∀ key, LogRecovers s.db.log s.floor key (s.disk key) := by
  have hwhole : LogWf (founds ++ d.log) := h.inv.logWf h.ordered
  have hnew : LogWf d.log := h.built.logWf_new hwhole
  have hlog : s.db.log = olds ++ d.log := by
    rw [h.db]
    rfl
  rw [hlog]
  refine ⟨h.after.logWf_append h.wf hnew, fun key => ⟨(h.base key).id, ?_, ?_⟩⟩
  · exact h.absent_append hnew key
  · intro dk hd hnil
    have hnil' : redoVersions olds s.floor key = [] := by
      rw [List.eq_nil_iff_forall_not_mem] at hnil ⊢
      exact fun v hv => hnil v (redoVersions_append hv)
    have hnone : committedVersions d.log key = [] := by
      rw [List.eq_nil_iff_forall_not_mem] at hnil ⊢
      intro v hv
      obtain ⟨hv, hcom⟩ := mem_committedVersions.mp hv
      obtain ⟨r, hr, hwr, hid⟩ := DbInv.mem_versionsOf.mp hv
      apply hnil v
      apply h.after.redoVersions_new hnew
      exact mem_redoVersions.mpr
        ⟨⟨r, hr, Nat.le_trans h.floor (h.after.new r hr).1, hwr, hid⟩, hcom⟩
    have hlast : lastCommitted (olds ++ d.log) key = lastCommitted olds key := by
      unfold lastCommitted
      rw [h.after.committedVersions_eq h.wf hnew, hnone, List.append_nil]
    rw [hlast]
    rcases (h.base key).present dk hd hnil' with ⟨hcom, heq⟩ | ⟨w, u, rest, hw, hts, hle, hu, htar⟩
    · exact Or.inl ⟨hcom.append, heq⟩
    · have hlt : w < start := by
        obtain ⟨r, hr, -, hwr, -⟩ := record_of_undosOn h.wf.record
          (hu ▸ List.mem_cons_self : u ∈ undosOn olds w key)
        exact (h.after.old r hr).2 w (Or.inl hwr)
      refine Or.inr ⟨w, u, rest, hw, ?_, hle, ?_, htar⟩
      · rw [h.after.commitTs_old hlt]
        exact hts
      · rw [h.after.undosOn_old hlt]
        exact hu

omit [DecidableEq δ] in
/-- An operation keeps the session, and appends at most one record. -/
theorem operate (h : Session s olds founds d rows start) (a : Action κ δ) :
    Session { s with db := s.db.step a } olds founds (d.step a) rows start ∧
      ((d.step a).log = d.log ∨ ∃ r, (d.step a).log = d.log ++ [r]) := by
  have hvirtual : (d.prepend founds).step a = (d.step a).prepend founds :=
    Db.step_prepend founds d a
  have hspec := Db.step_spec (d.prepend founds) a h.inv
  rw [hvirtual] at hspec
  have hinv : DbInv ((d.step a).prepend founds) := by
    rw [← hvirtual]
    exact Db.inv_step _ a h.inv
  have hordered : LogOrdered (founds ++ (d.step a).log) := by
    have hstep : LogOrdered ((d.prepend founds).step a).log := h.ordered.step h.inv a
    rw [hvirtual] at hstep
    exact hstep
  have hrecover : ∀ key, Recoverable ((d.step a).prepend founds) start key (rows key) := by
    intro key
    rw [← hvirtual]
    exact (h.virtual key).step h.inv h.ordered h.active a
  -- the record is one of a transaction of this session
  have hlog : (d.step a).log = d.log ∨ ∃ r, (d.step a).log = d.log ++ [r] ∧ start ≤ r.lsn ∧
      ∀ t, r.Names t → start ≤ t := by
    rcases hspec.log with heq | ⟨r, heq, hr⟩
    · exact Or.inl (List.append_cancel_left (show founds ++ (d.step a).log = _ from heq))
    · have heq' : founds ++ (d.step a).log = founds ++ d.log ++ [r] := heq
      rw [List.append_assoc] at heq'
      refine Or.inr ⟨r, List.append_cancel_left heq', Nat.le_trans h.clock hr.lsn, ?_⟩
      rintro t (hw | hcom)
      · obtain ⟨⟨p, hp⟩, -⟩ := hr.write t hw
        exact h.active t p hp
      · obtain ⟨p, hp⟩ := hr.commit t hcom
        exact h.active t p hp
  have hfollows : ∀ base, Follows base d.log start → Follows base (d.step a).log start := by
    intro base hbase
    refine ⟨hbase.old, fun r hr => ?_⟩
    rcases hlog with heq | ⟨r', heq, hle, hnames⟩
    · exact hbase.new r (heq ▸ hr)
    · rw [heq] at hr
      rcases List.mem_append.mp hr with hr | hr
      · exact hbase.new r hr
      · rw [List.mem_singleton.mp hr]
        exact ⟨hle, hnames⟩
  refine ⟨⟨?_, hinv, hordered, Nat.le_trans h.clock hspec.clock, ?_, hrecover, hfollows _ h.after,
    hfollows _ h.built, h.floor, h.wf, h.base, h.absent⟩, ?_⟩
  · show s.db.step a = _
    rw [h.db]
    exact Db.step_prepend olds d a
  · intro t p hp
    rcases hspec.reader t p hp with heq | hold
    · rw [heq]
      exact h.clock
    · exact h.active t p hold
  · exact hlog.imp_right fun ⟨r, heq, _⟩ => ⟨r, heq⟩

end Session

/-! ### Numbers -/

namespace Numbers

variable {s : Durable κ δ}

omit [DecidableEq κ] [DecidableEq δ] in
theorem new : Numbers (Durable.new : Durable κ δ) where
  memory := Numbered.new
  log _ hr := nomatch hr
  floor := Nat.zero_le _
  counter := Nat.le_refl _
  disk _ _ hv := nomatch hv

omit [DecidableEq δ] in
theorem operate (h : Numbers s) (a : Action κ δ) : Numbers { s with db := s.db.step a } := by
  have hissues := h.memory.step a
  have hold : ∀ r ∈ s.db.log, r.lsn < (s.db.step a).txMgr.clock ∧ r.Latest := fun r hr =>
    ⟨Nat.lt_of_lt_of_le (h.log r hr).1 hissues.clock, (h.log r hr).2⟩
  rcases hissues.log with ⟨hlog, hdb⟩ | ⟨r, hlog, -, hlt, hlatest, hdb⟩
  · refine ⟨hdb.mono hdb.bound (Nat.le_refl _), ?_, h.floor, Nat.le_trans h.counter hissues.clock,
      h.disk⟩
    intro r hr
    exact hold r (hlog ▸ hr)
  · refine ⟨hdb.mono hdb.bound (Nat.le_refl _), ?_, h.floor, Nat.le_trans h.counter hissues.clock,
      h.disk⟩
    intro r' hr'
    have hmem : r' ∈ s.db.log ++ [r] := hlog ▸ hr'
    rcases List.mem_append.mp hmem with hr' | hr'
    · exact hold r' hr'
    · rw [List.mem_singleton.mp hr']
      exact ⟨hlt, hlatest⟩

omit [DecidableEq δ] in
theorem sync (h : Numbers s) (n : Nat) : Numbers (s.step (.sync n)) :=
  ⟨h.memory, h.log, h.floor, h.counter, h.disk⟩

omit [DecidableEq δ] in
theorem step (h : Numbers s) (a : DurableAction κ δ) (htakes : s.Takes a) :
    Numbers (s.step a) := by
  rcases htakes.cases with ⟨a, heq⟩ | heq | ⟨n, heq⟩
  · rw [heq]
    exact h.operate a
  · rw [heq]
    exact ⟨h.memory, h.log, retentionFloor_le_clock s.db, Nat.le_refl _, h.memory.rows⟩
  · rw [heq]
    exact h.sync n

omit [DecidableEq δ] in
theorem of_reachable (h : s.Reachable) : Numbers s := h.invariant new fun _ a hs => hs.step a

end Numbers

/-! ### Recovery begins a session -/

theorem replay_eq (db : Db κ δ) (records : List (LogRecord κ δ)) :
    db.replay records = Media.processLog db (records.map .record) := by
  have hrecords : (records.map LogLine.record).filterMap LogLine.record? = records := by
    rw [List.filterMap_map]
    exact List.filterMap_some
  have hlast : (records.map LogLine.record).map LogLine.lastIssued =
      records.map Db.lastIssued := by
    rw [List.map_map]
    rfl
  unfold Db.replay Db.advancePast Media.processLog
  rewrite [hrecords, hlast]
  rfl

omit [DecidableEq κ] [DecidableEq δ] in
theorem retentionFloor_of_states {db : Db κ δ} (h : ∀ t, db.txMgr.states t = none) :
    db.retentionFloor = db.txMgr.clock := by
  have hnone : db.txMgr.oldestInFlight = none := by
    unfold TransactionManager.oldestInFlight
    rw [List.find?_eq_none]
    intro t _
    rw [h t]
    exact nofun
  unfold Db.retentionFloor
  rw [hnone]

section Restart

variable {s : Durable κ δ} {n : Nat}

theorem survivor_lt (s : Durable κ δ) (n : Nat) {r : LogRecord κ δ} (hr : r ∈ s.survivors n) :
    r.lsn < (s.recovered n).txMgr.clock := by
  have hlt : (LogLine.record r).lastIssued < (s.recovered n).txMgr.clock := by
    unfold recovered
    rw [replay_eq]
    exact Media.lastIssued_lt_processLog _ (List.mem_map_of_mem hr)
  exact Nat.lt_of_le_of_lt (Media.lsn_le_lastIssued (.record r)) hlt

theorem Numbers.replays (h : Numbers s) (n : Nat) :
    Replays (s.opened n) (s.recovered n) (s.recovered n).txMgr.clock := by
  have hrecords : ∀ r ∈ ((s.survivors n).map LogLine.record).filterMap LogLine.record?,
      r.Latest ∧ r.lsn < (s.recovered n).txMgr.clock := by
    intro r hr
    rw [List.filterMap_map] at hr
    have hmem : r ∈ s.survivors n := by
      have hid : (s.survivors n).filterMap (LogLine.record? ∘ LogLine.record) = s.survivors n :=
        List.filterMap_some
      rw [hid] at hr
      exact hr
    have hlog := List.mem_of_mem_take (List.mem_of_mem_filter hmem)
    exact ⟨(h.log r hlog).2, survivor_lt s n hmem⟩
  have hreplays := Media.replays_processLog (s.opened n) hrecords
  rw [← replay_eq] at hreplays
  exact hreplays

theorem Numbers.lsn_lt_recovered (h : Numbers s) {r : LogRecord κ δ} (hr : r ∈ s.db.log.take n) :
    r.lsn < (s.recovered n).txMgr.clock := by
  by_cases hfloor : s.floor ≤ r.lsn
  · exact survivor_lt s n (List.mem_filter.mpr ⟨hr, decide_eq_true hfloor⟩)
  · have hclock : s.counter ≤ (s.recovered n).txMgr.clock := (h.replays n).clock
    have hle := h.floor
    omega

theorem Numbers.rows_recovered (h : Numbers s) (n : Nat) :
    RowsBelow (s.recovered n).rows (s.recovered n).txMgr.clock :=
  (h.replays n).rows (h.disk.mono (h.replays n).clock)

theorem Numbers.restart (h : Numbers s) (n : Nat) : Numbers (s.restart n) := by
  have hreplays := h.replays n
  have hstates : ∀ t, (s.recovered n).txMgr.states t = none := fun t => congrFun hreplays.states t
  refine ⟨⟨Nat.le_refl _, fun t ht => absurd (hstates t) ht, h.rows_recovered n, ?_, ?_⟩, ?_,
    h.floor,
    hreplays.clock, h.disk⟩
  · intro l p hp
    have hnone : (s.recovered n).versions.preImages l = some p := hp
    rw [hreplays.versions] at hnone
    cases hnone
  · intro e he
    have hmem : e ∈ (s.recovered n).versions.tombstones ++ (s.recovered n).purging := he
    rw [hreplays.versions, hreplays.purging] at hmem
    cases hmem
  · exact fun r hr => ⟨h.lsn_lt_recovered hr, (h.log r (List.mem_of_mem_take hr)).2⟩

/-- Where the image has no row and no insert is to be redone, recovery leaves none. -/
theorem Survives.recovered_none (h : Survives s n) {key : κ} (hd : s.disk key = none)
    (hno : ∀ v ∈ redoVersions (s.db.log.take n) s.floor key, v.preLsn ≠ none) :
    (s.recovered n).rows key = none := by
  have hrows := rows_replay h.wf s.floor (s.opened n) key
  have hrow : (s.opened n).rows key = none := hd
  dsimp only at hrows
  rw [hrow] at hrows
  have hredo : (redoVersions (s.db.log.take n) s.floor key).foldl redoRow none = none := by
    cases hlast : (redoVersions (s.db.log.take n) s.floor key).getLast? with
    | none =>
      rw [List.getLast?_eq_none_iff] at hlast
      rw [hlast]
      rfl
    | some v =>
      rcases foldl_redoRow_none _ (fun v hv => id_of_mem_redoVersions hv) hlast with
        ⟨-, heq⟩ | ⟨⟨x, hx, hpre⟩, -⟩
      · exact heq
      · exact absurd hpre (hno x hx)
  rw [hredo] at hrows
  exact hrows.trans (foldr_undoRow_notUndone _ nofun)

theorem Survives.restores (h : Survives s n) (key : κ) :
    Restores (lastCommitted (s.db.log.take n) key) ((s.recovered n).rows key) := by
  have hkey : LogRecovers (s.db.log.take n) s.floor key ((s.opened n).rows key) := h.key key
  exact restores_of_logRecovers h.wf hkey

theorem Survives.foundable (h : Survives s n) (hnum : Numbers s) :
    Foundable (s.db.log.take n) (s.recovered n).rows (s.recovered n).txMgr.clock where
  wf := h.wf
  lsn r hr := hnum.lsn_lt_recovered hr
  rows key c hc := by
    obtain ⟨hid, hbelow⟩ := hnum.rows_recovered n key c hc
    refine ⟨hid, hbelow.preLsn, ?_⟩
    rcases h.restores key with ⟨-, hnone⟩ | ⟨v, c', hlast, hrow, -, happlied⟩
    · rw [hc] at hnone
      cases hnone
    · rw [hc] at hrow
      cases hrow
      exact ⟨v, List.mem_of_getLast? hlast, txnId_of_alreadyApplied happlied⟩

/-- A recovery begins a session. -/
theorem Survives.session (h : Survives s n) (hnum : Numbers s) :
    Session (s.restart n) (s.db.log.take n) (foundation (s.db.log.take n) (s.recovered n).rows)
      { s.recovered n with log := [] } (s.recovered n).rows (s.recovered n).txMgr.clock := by
  have hfound := h.foundable hnum
  have hreplays := hnum.replays n
  have hstates : ∀ t, (s.recovered n).txMgr.states t = none := fun t => congrFun hreplays.states t
  have hdb : Db.prepend (foundation (s.db.log.take n) (s.recovered n).rows)
      { s.recovered n with log := [] } =
      { s.recovered n with log := foundation (s.db.log.take n) (s.recovered n).rows } := by
    simp [Db.prepend]
  have hinv := founded hfound hstates hreplays.versions hreplays.purging
  have hnames : ∀ r ∈ s.db.log.take n, ∀ t, r.Names t → t < (s.recovered n).txMgr.clock := by
    intro r hr t ht
    have hlt := hnum.lsn_lt_recovered hr
    have htxn := (hnum.log r (List.mem_of_mem_take hr)).2.txn
    rw [ht.txn_eq] at htxn
    exact Nat.lt_trans htxn hlt
  constructor
  · simp [restart, nextSession, Db.prepend]
  · rw [hdb]
    exact hinv
  · rw [List.append_nil]
    exact hfound.logOrdered_foundation
  · exact Nat.le_refl _
  · intro t p hp
    have hnone := hstates t
    rw [show (s.recovered n).txMgr.states t = some (.active p) from hp] at hnone
    cases hnone
  · intro key
    rw [hdb]
    have hcheck := recoverable_checkpoint hinv key
    have hfloor : Db.retentionFloor { s.recovered n with
        log := foundation (s.db.log.take n) (s.recovered n).rows } =
        (s.recovered n).txMgr.clock := retentionFloor_of_states hstates
    rw [hfloor] at hcheck
    exact hcheck
  · exact ⟨fun r hr => ⟨hnum.lsn_lt_recovered hr, hnames r hr⟩, by intros; contradiction⟩
  · refine ⟨fun r hr => ?_, by intros; contradiction⟩
    obtain ⟨⟨r₀, hr₀, hlsn⟩, hkind⟩ := hfound.mem_foundation hr
    have hlt := hnum.lsn_lt_recovered hr₀
    refine ⟨hlsn ▸ hlt, fun t ht => ?_⟩
    rcases hkind with ⟨hold, -⟩ | ⟨r₁, hr₁, -, c, t', -, hct, hw, rfl⟩
    · exact hnames r hold t ht
    · rcases ht with ht | ht
      · have heq : some t' = some t := (writer_foundingOp hct).symm.trans ht
        cases heq
        exact hnames r₁ hr₁ t (Or.inl hw)
      · rw [commits_foundingOp] at ht
        cases ht
  · exact Nat.le_trans hnum.floor hreplays.clock
  · exact h.wf
  · exact h.key
  · exact fun key hd hno => h.recovered_none hd hno

end Restart

/-! ### Every session -/

/-- What the two passes do to a row of a recoverable image they do not do again. -/
theorem replay_twice {log : List (LogRecord κ δ)} (h : LogWf log) {floor : Nat} {key : κ}
    {db : Db κ δ} (hr : LogRecovers log floor key (db.rows key)) :
    ((db.replay (log.filter fun r => decide (floor ≤ r.lsn))).replay
        (log.filter fun r => decide (floor ≤ r.lsn))).rows key =
      (db.replay (log.filter fun r => decide (floor ≤ r.lsn))).rows key := by
  have hrestores := restores_of_logRecovers h hr
  have hfirst := rows_replay h floor db key
  dsimp only at hfirst
  rw [rows_replay h]
  set records := log.filter fun r => decide (floor ≤ r.lsn)
  set committed := records.filterMap fun r => r.operation.commits
  set row := (db.replay records).rows key
  -- what is committed stays as the redo pass left it
  have hstays : ∀ x : Option (Tuple κ δ), (∀ c, x = some c → CommittedBy (commitTs log) c) →
      records.foldr (undoRow committed key) x = x := by
    intro x hx
    apply foldr_undoRow_notUndone
    exact fun c hc => notUndone_of_committed h.order floor (hx c hc)
  have hlast : ∀ c, row = some c → CommittedBy (commitTs log) c := by
    intro c hc
    rcases hrestores with ⟨-, hnone⟩ | ⟨v, c', hv, hrow, -, happlied⟩
    · rw [hc] at hnone
      cases hnone
    · have heq : some c = some c' := hc.symm.trans hrow
      cases heq
      have hcom := (mem_committedVersions.mp (List.mem_of_getLast? hv)).2
      unfold CommittedBy at hcom ⊢
      rw [txnId_of_alreadyApplied happlied]
      exact hcom
  have hredo : (redoVersions log floor key).foldl redoRow row = row := by
    rcases List.eq_nil_or_concat (redoVersions log floor key) with hnil | ⟨ws, v, hvs⟩
    · rw [hnil]
      rfl
    · rw [List.concat_eq_append] at hvs
      have hv : CommittedBy (commitTs log) v := by
        have hmem : v ∈ redoVersions log floor key := by
          rw [hvs]
          exact List.mem_append_right _ List.mem_cons_self
        exact (mem_redoVersions.mp hmem).2
      have hcom : ∀ c, (redoVersions log floor key).foldl redoRow (db.rows key) = some c →
          CommittedBy (commitTs log) c := by
        intro c hc
        rw [hvs, List.foldl_append] at hc
        have htxn : c.txnId = v.txnId := congrArg (fun t => t.2.2) (tag_of_redoRow hc)
        unfold CommittedBy at hv ⊢
        rw [htxn]
        exact hv
      have hrow : row = (redoVersions log floor key).foldl redoRow (db.rows key) :=
        hfirst.trans (hstays _ hcom)
      rw [hrow]
      exact foldl_redoRow_twice (pairwise_redoVersions h floor key) _
  rw [hredo]
  exact hstays row hlast

/-- Between the crashes: every crash that may come is recovered from, and the run so far
is one of the store or of a session after a recovery. -/
structure Sound (s : Durable κ δ) : Prop where
  numbers : Numbers s
  survives : ∀ n, s.synced ≤ n → Survives s n
  origin : s.Reachable ∨ ∃ olds founds d rows start, Session s olds founds d rows start

variable {s : Durable κ δ}

omit [DecidableEq δ] in
theorem Survives.of_take {s' : Durable κ δ} {m n : Nat} (h : Survives s m)
    (hlog : s'.db.log.take n = s.db.log.take m) (hfloor : s'.floor = s.floor)
    (hdisk : s'.disk = s.disk) : Survives s' n := by
  constructor
  · rw [hlog]
    exact h.wf
  · intro key
    rw [hlog, hfloor, hdisk]
    exact h.key key

omit [DecidableEq δ] in
theorem survives_of_reachable (h : s.Reachable) {n : Nat} (hsynced : s.synced ≤ n) :
    Survives s n := by
  by_cases hn : n ≤ s.db.log.length
  · obtain ⟨s', hs', hlog, hframe⟩ := earlier_crash h hsynced hn
    simp only [Prod.mk.injEq] at hframe
    obtain ⟨hdisk, hfloor, -⟩ := hframe
    have hinv := inv_of_reachable hs'
    have hwhole : Survives s' s'.db.log.length := by
      constructor
      · rw [List.take_length]
        exact hinv.db.logWf hinv.ordered
      · intro key
        rw [List.take_length]
        exact (hinv.key key).logRecovers hinv.db
    apply hwhole.of_take _ hfloor.symm hdisk.symm
    rw [List.take_length, hlog]
  · have hinv := inv_of_reachable h
    have hall : s.db.log.take n = s.db.log := List.take_of_length_le (by omega)
    constructor
    · rw [hall]
      exact hinv.db.logWf hinv.ordered
    · intro key
      rw [hall]
      exact (hinv.key key).logRecovers hinv.db

omit [DecidableEq δ] in
theorem Session.survives_whole {olds founds : List (LogRecord κ δ)} {d : Db κ δ}
    {rows : κ → Option (Tuple κ δ)} {start n : Nat} (h : Session s olds founds d rows start)
    (hn : s.db.log.length ≤ n) : Survives s n := by
  have hall : s.db.log.take n = s.db.log := List.take_of_length_le hn
  obtain ⟨hwf, hkey⟩ := h.survives
  constructor
  · rw [hall]
    exact hwf
  · intro key
    rw [hall]
    exact hkey key

namespace Sound

variable {s : Durable κ δ}

omit [DecidableEq δ] in
theorem of_reachable (h : s.Reachable) : Sound s :=
  ⟨.of_reachable h, fun _ hn => survives_of_reachable h hn, Or.inl h⟩

omit [DecidableEq δ] in
theorem operate (h : Sound s) (a : Action κ δ) : Sound (s.step (.operate a)) := by
  rcases h.origin with hreach | ⟨olds, founds, d, rows, start, hs⟩
  · exact of_reachable (hreach.step _ trivial)
  · obtain ⟨hs', hlog⟩ := hs.operate a
    refine ⟨h.numbers.operate a, fun n hn => ?_, Or.inr ⟨olds, founds, d.step a, rows, start, hs'⟩⟩
    have hold : s.db.log = olds ++ d.log := by
      rw [hs.db]
      rfl
    have hnew : (s.db.step a).log = olds ++ (d.step a).log := congrArg Db.log hs'.db
    by_cases hle : (s.db.step a).log.length ≤ n
    · exact hs'.survives_whole hle
    · -- the record was appended behind the ones that are left
      have htake : (s.db.step a).log.take n = s.db.log.take n := by
        rcases hlog with heq | ⟨r, heq⟩
        · rw [hnew, hold, heq]
        · rw [hnew, heq, ← List.append_assoc, ← hold] at hle ⊢
          rw [List.length_append, List.length_singleton] at hle
          exact List.take_append_of_le_length (by omega)
      exact (h.survives n hn).of_take htake rfl rfl

omit [DecidableEq δ] in
theorem sync (h : Sound s) (n : Nat) : Sound (s.step (.sync n)) := by
  rcases h.origin with hreach | ⟨olds, founds, d, rows, start, hs⟩
  · exact of_reachable (hreach.step _ trivial)
  · refine ⟨h.numbers.sync n, fun m hm => ?_, Or.inr ⟨olds, founds, d, rows, start, ?_⟩⟩
    · have hle : s.synced ≤ m := Nat.le_trans (Nat.le_max_left _ _) hm
      exact (h.survives m hle).of_take rfl rfl rfl
    · exact ⟨hs.db, hs.inv, hs.ordered, hs.clock, hs.active, hs.virtual, hs.after, hs.built,
        hs.floor, hs.wf, hs.base, hs.absent⟩

theorem restart (h : Sound s) {n : Nat} (hn : s.synced ≤ n) : Sound (s.restart n) := by
  have hsession := (h.survives n hn).session h.numbers
  exact ⟨h.numbers.restart n, fun m hm => hsession.survives_whole hm,
    Or.inr ⟨_, _, _, _, _, hsession⟩⟩

theorem step (h : Sound s) {a : SessionAction κ δ} (htakes : SessionTakes (.ok s) a) :
    ∃ s', sessionStep (.ok s) a = .ok s' ∧ Sound s' := by
  cases a with
  | operate a => exact ⟨_, rfl, h.operate a⟩
  | refused a refusal =>
    have heq : s.step (.refused a refusal) = s.step (.operate a) := by
      simp only [Durable.step, Db.refusedStep_of_not_isDecided htakes refusal]
    exact ⟨_, congrArg Except.ok heq, h.operate a⟩
  | sync n => exact ⟨_, rfl, h.sync n⟩
  | crash n refusals =>
    by_cases hn : s.synced ≤ n
    · refine ⟨s.restart n, ?_, h.restart hn⟩
      have hopens : s.recover n refusals = .ok (s.recovered n) := s.recover_eq n htakes
      have hstep : sessionStep (.ok s) (.crash n refusals) =
          (s.recover n refusals).map (s.nextSession n) := if_pos hn
      rw [hstep, hopens]
      rfl
    · exact ⟨s, if_neg hn, h⟩

end Sound

end Durable

end SquealDb.Store
