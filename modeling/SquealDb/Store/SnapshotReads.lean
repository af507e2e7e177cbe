import SquealDb.Store.Interleaving

/-!
# Snapshot reads

A reader finds, under every key and at every moment of its life, its own last
write of the key, or else the row that was committed as it began; and of two
transactions that committed a write of the same key, one committed before the
other began.
-/

namespace SquealDb.Store

open Lib

variable {κ δ : Type*} [DecidableEq κ]

/-- The version was committed before `reader` began. -/
def SeenAt (ts : Nat → Option Nat) (reader : Nat) (v : Tuple κ δ) : Prop :=
  ((v.txnId.bind ts).any fun c => decide (c < reader)) = true

instance (ts : Nat → Option Nat) (reader : Nat) (v : Tuple κ δ) :
    Decidable (SeenAt ts reader v) :=
  inferInstanceAs (Decidable (_ = true))

/-- The versions of a key that were committed before `reader` began. -/
def snapshotVersions (log : List (LogRecord κ δ)) (reader : Nat) (key : κ) :
    List (Tuple κ δ) :=
  (versionsOf log key).filter fun v => decide (SeenAt (commitTs log) reader v)

variable {ts : Nat → Option Nat} {v : Tuple κ δ}

omit [DecidableEq κ] in
theorem seenAt_iff {reader w : Nat} (hw : v.txnId = some w) :
    SeenAt ts reader v ↔ ∃ c, ts w = some c ∧ c < reader := by
  unfold SeenAt
  rw [hw, Option.bind_some]
  cases ts w with
  | none => simp
  | some c => simp

omit [DecidableEq κ] in
theorem SeenAt.committedBy {reader : Nat} (h : SeenAt ts reader v) : CommittedBy ts v := by
  unfold SeenAt at h
  unfold CommittedBy
  cases hts : v.txnId.bind ts with
  | none => simp [hts] at h
  | some c => rfl

omit [DecidableEq κ] in
theorem SeenByAll.seenAt {m : TransactionManager} (h : SeenByAll m ts v) {r : Nat}
    {p : ConflictPolicy} (hr : m.states r = some (.active p)) : SeenAt ts r v := by
  obtain ⟨w, c, hw, hc, hall⟩ := h
  exact (seenAt_iff hw).mpr ⟨c, hc, hall r p hr⟩

/-! ## Walking back -/

omit [DecidableEq κ] in
/-- The walk back along a chain ends at the first visible version. -/
theorem walkLoop_eq {versions : VersionStore κ δ} {isVisible : Nat → Bool}
    {settled : Tuple κ δ → Prop}
    (hset : ∀ x, settled x → ∃ w, x.txnId = some w ∧ isVisible w = true) (vs : List (Tuple κ δ))
    {fuel : Nat} (hchain : Chain Tuple.preLsn versions.find settled (some v) (v :: vs))
    (hv : ∀ w, v.txnId = some w → isVisible w = false) (hvs : ∀ x ∈ vs, ∃ w, x.txnId = some w)
    (hpos : 0 < fuel) (hfuel : ∀ l, v.preLsn = some l → l + 1 < fuel) :
    Db.walkLoop versions isVisible fuel v.preLsn =
      match vs.find? fun x => x.txnId.any isVisible with
      | some x => .ancestor x
      | none => .noAncestor := by
  induction vs generalizing v fuel with
  | nil =>
    obtain ⟨fuel, rfl⟩ := Nat.exists_eq_succ_of_ne_zero (Nat.ne_of_gt hpos)
    cases hchain with
    | first hl => simp [Db.walkLoop, hl]
    | cut hl hs hset' =>
      obtain ⟨w, hw, hvis⟩ := hset v hset'
      rw [hv w hw] at hvis
      cases hvis
    | cons hl hs hlt hc =>
      have hhead := hc.head_eq
      cases hhead
  | cons x xs ih =>
    obtain ⟨fuel, rfl⟩ := Nat.exists_eq_succ_of_ne_zero (Nat.ne_of_gt hpos)
    cases hchain with
    | @cons _ p l _ hl hs hlt hc =>
      obtain rfl : p = x := Option.some.inj hc.head_eq
      obtain ⟨w, hw⟩ := hvs p (by simp)
      have hl' := hfuel l hl
      simp only [Db.walkLoop, hl, hs, hw]
      cases hvis : isVisible w with
      | true => simp [hw, hvis]
      | false =>
        rw [if_neg (by simp)]
        have hrec := @ih p fuel hc (fun w' hw' => by rw [hw] at hw'; cases hw'; exact hvis)
          (fun y hy => hvs y (List.mem_cons_of_mem _ hy)) (by omega)
          (fun l' hl'' => by have := hlt l' hl''; omega)
        rw [hrec, List.find?_cons_of_neg]
        simp [hw, hvis]

namespace Db

variable {db : Db κ δ} {r : Nat}

omit [DecidableEq κ] in
/-- What a reader sees of a writer is the rule of snapshot isolation. -/
theorem snapshotSees_iff (h : TxnInv db.txMgr (commitTs db.log) (Wrote db.log))
    (hnc : ∀ id c p, db.txMgr.states id ≠ some (.committing c p)) {w : Nat} {p : ConflictPolicy}
    (hr : db.txMgr.states r = some (.active p)) (hw : Wrote db.log w)
    (hk : Known db.txMgr (commitTs db.log) w) {sn : Snapshot}
    (hsn : db.txMgr.snapshots r = some sn) :
    db.snapshotSees sn w = true ↔ Visible (commitTs db.log) w r := by
  have hreader : sn.reader = r := by
    obtain ⟨sn', hsn', hinv⟩ := h.snapshot r p hr
    rw [hsn] at hsn'
    cases hsn'
    exact hinv.reader
  unfold snapshotSees
  cases hsees : sn.sees w with
  | some b => exact h.sees_iff hr hw hk hsn hsees
  | none =>
    rw [Option.getD_none, hreader]
    simp only [TransactionManager.isVisible, List.findSome?_cons, List.findSome?_nil]
    cases hone : db.txMgr.isVisibleOnce w r with
    | some b => exact h.isVisibleOnce_iff hr hw hk hone
    | none =>
      -- no transaction is committing between two operations
      obtain ⟨⟨c, q, hst⟩, -⟩ := h.visible_of_waits hr hone
      exact absurd hst (hnc w c q)

omit [DecidableEq κ] in
/-- What the walk back from a row finds, in terms of its chain. -/
theorem find_of_chain {sn : Snapshot} {key : κ} (hsn : db.txMgr.snapshot r = some sn)
    {settled : Tuple κ δ → Prop} {vs : List (Tuple κ δ)}
    (hchain : Chain Tuple.preLsn db.versions.find settled (db.rows key) vs)
    (hset : ∀ x, settled x → ∃ w, x.txnId = some w ∧ db.snapshotSees sn w = true)
    (hvs : ∀ x ∈ vs, ∃ w, x.txnId = some w)
    (hlt : ∀ x ∈ vs, ∀ l, x.preLsn = some l → l < db.txMgr.clock) :
    db.find r key =
      .ok (asRow (vs.find? fun x => x.txnId.any (db.snapshotSees sn))) := by
  unfold find
  rw [hsn]
  dsimp only
  cases hrow : db.rows key with
  | none =>
    rw [hrow] at hchain
    cases hchain
    rfl
  | some v =>
    rw [hrow] at hchain
    obtain ⟨vs, rfl⟩ : ∃ vs', vs = v :: vs' := by
      cases hchain with
      | first => exact ⟨[], rfl⟩
      | cut => exact ⟨[], rfl⟩
      | cons => exact ⟨_, rfl⟩
    obtain ⟨w, hw⟩ := hvs v (by simp)
    cases hvis : db.snapshotSees sn w with
    | true =>
      rw [List.find?_cons_of_pos (by simp [hw, hvis])]
      simp only [visibleVersion, walkBack, hw, hvis, if_true]
      cases ht : v.tombstoned with
      | true => simp [asRow_tombstoned ht]
      | false => simp [asRow_live ht]
    | false =>
      have hwalk := walkLoop_eq hset vs hchain
        (fun w' hw' => by rw [hw] at hw'; cases hw'; exact hvis)
        (fun x hx => hvs x (List.mem_cons_of_mem _ hx)) (Nat.succ_pos db.txMgr.clock)
        (fun l hl => Nat.succ_lt_succ (hlt v (by simp) l hl))
      rw [List.find?_cons_of_neg (by simp [hw, hvis])]
      simp only [visibleVersion, walkBack, hw, hvis, Bool.false_eq_true, if_false, hwalk]
      cases hfind : vs.find? fun x => x.txnId.any (db.snapshotSees sn) with
      | none => rfl
      | some x =>
        cases ht : x.tombstoned with
        | true => simp [asRow_tombstoned ht, ht]
        | false => simp [asRow_live ht, ht]

/-- What a reader finds, in terms of the log. -/
theorem find_eq (h : DbInv db) {p : ConflictPolicy} (hr : db.txMgr.states r = some (.active p))
    (key : κ) :
    db.find r key = .ok (asRow (
      match (ownVersions db.log r key).getLast? with
      | some v => some v
      | none => (snapshotVersions db.log r key).getLast?)) := by
  obtain ⟨own, base, older, hk⟩ := h.key key
  obtain ⟨sn, hsn, -⟩ := h.txn.snapshot r p hr
  have hnone : commitTs db.log r = none := h.txn.activeTs r p hr
  have hsees : ∀ x ∈ own ++ base, ∃ w, x.txnId = some w ∧
      (db.snapshotSees sn w = true ↔ Visible (commitTs db.log) w r) := by
    intro x hx
    obtain ⟨w, hw, hwrote, hknown⟩ := h.known_of_mem hk hx
    exact ⟨w, hw, snapshotSees_iff h.txn h.noCommitting hr hwrote hknown hsn⟩
  have hstored : ∀ x ∈ own ++ base, Stored db x := by
    intro x hx
    rcases hk.full_chain.mem_stored hx with hrow | hl
    · exact Or.inl ⟨key, hrow⟩
    · exact Or.inr hl
  have hbase : ∀ x ∈ base, (x.txnId.any (db.snapshotSees sn) =
      decide (SeenAt (commitTs db.log) r x)) := by
    intro x hx
    obtain ⟨w, hw, hiff⟩ := hsees x (List.mem_append_right _ hx)
    obtain ⟨c, hc⟩ := (committedBy_iff hw).mp
      (hk.committed_of_mem (List.mem_append_left older hx)).2
    have hwr : w ≠ r := by
      rintro rfl
      rw [hnone] at hc
      cases hc
    rw [hw, Option.any_some, Bool.eq_iff_iff, hiff, decide_eq_true_eq, seenAt_iff hw]
    simp [Visible, hwr]
  have hchain : Chain Tuple.preLsn db.versions.find
      (fun x => x ∈ own ++ base ∧ SeenByAll db.txMgr (commitTs db.log) x)
      (db.rows key) (own ++ base) :=
    hk.full_chain.mono fun x hx hs => ⟨hx, hs⟩
  rw [find_of_chain (h.txn.snapshot_eq_some hr hsn) hchain ?_
    (fun x hx => (hsees x hx).imp fun _ hw => hw.1)
    (fun x hx l hl => h.preLt x l (hstored x hx) hl)]
  · congr 1
    by_cases hwk : WroteKey db.log r key
    · -- the reader's own last write is the row itself
      obtain ⟨hne, hby, hfilter⟩ := hk.active r p hr hwk
      have hown : ownVersions db.log r key = own.reverse := by
        have hsub : ownVersions db.log r key =
            ((versionsOf db.log key).filter (fun v =>
              decide (CommittedBy (commitTs db.log) v) ||
                decide (v.txnId = some r))).filter (fun v => decide (v.txnId = some r)) := by
          unfold ownVersions
          rw [List.filter_filter]
          refine List.filter_congr fun x _ => ?_
          cases hx : decide (x.txnId = some r) <;> simp
        rw [hsub, hfilter, List.filter_reverse, List.append_assoc, List.filter_append,
          List.filter_eq_self.mpr (fun x hx => by simp [hby x hx]),
          List.filter_eq_nil_iff.mpr, List.append_nil]
        intro x hx
        obtain ⟨-, hcom⟩ := hk.committed_of_mem hx
        simp only [decide_eq_true_eq]
        intro hxr
        rw [committedBy_iff hxr, hnone] at hcom
        obtain ⟨c, hc⟩ := hcom
        cases hc
      obtain ⟨o, os, rfl⟩ := List.exists_cons_of_ne_nil hne
      obtain ⟨w, hw, hiff⟩ := hsees o (by simp)
      have hwr : w = r := by
        have ho := hby o (by simp)
        rw [hw] at ho
        exact Option.some.inj ho
      rw [hown, List.getLast?_reverse, List.head?_cons, List.cons_append,
        List.find?_cons_of_pos]
      rw [hw, Option.any_some, hiff]
      exact Or.inl hwr
    · have hownNil : ownVersions db.log r key = [] := by
        unfold ownVersions
        rw [List.filter_eq_nil_iff]
        intro x hx hxr
        exact hwk ⟨x, hx, of_decide_eq_true hxr⟩
      have hownUnseen : ∀ x ∈ own, ¬ x.txnId.any (db.snapshotSees sn) = true := by
        intro x hx
        obtain ⟨w, hw, hiff⟩ := hsees x (List.mem_append_left _ hx)
        obtain ⟨t, ht, hfl, hwt⟩ := hk.holder x hx
        rw [hw] at ht
        cases ht
        rw [hw, Option.any_some, hiff]
        rintro (rfl | ⟨c, hc, -⟩)
        · exact hwk hwt
        · rw [commitTs_of_inFlight h.txn hfl] at hc
          cases hc
      have hsnap : (snapshotVersions db.log r key).getLast? =
          (base ++ older).find? fun x => decide (SeenAt (commitTs db.log) r x) := by
        have hsub : snapshotVersions db.log r key =
            (committedVersions db.log key).filter
              (fun x => decide (SeenAt (commitTs db.log) r x)) := by
          unfold snapshotVersions committedVersions
          rw [List.filter_filter]
          refine List.filter_congr fun x _ => ?_
          by_cases hs : SeenAt (commitTs db.log) r x
          · simp [hs, hs.committedBy]
          · simp [hs]
        rw [hsub, ← hk.history, ← List.head?_reverse, ← List.filter_reverse,
          List.head?_filter]
      rw [hownNil, List.getLast?_nil]
      dsimp only
      rw [hsnap, List.find?_append, List.find?_append,
        List.find?_eq_none.mpr hownUnseen, Option.none_or]
      have hbaseFind : (base.find? fun x => x.txnId.any (db.snapshotSees sn)) =
          base.find? fun x => decide (SeenAt (commitTs db.log) r x) := by
        rw [← List.head?_filter, ← List.head?_filter, List.filter_congr hbase]
      rw [hbaseFind]
      cases hfound : base.find? fun x => decide (SeenAt (commitTs db.log) r x) with
      | some x => rfl
      | none =>
        rw [List.find?_eq_none] at hfound
        rw [Option.none_or]
        -- nothing the reader sees is left of what was cut off
        rcases hk.cut with rfl | ⟨v, hv, hs⟩ | ⟨v, hv, hs, ht⟩
        · rfl
        · refine absurd ?_ (hfound v (List.mem_of_getLast? hv))
          simpa using hs.seenAt hr
        · obtain ⟨vs, rfl⟩ : ∃ vs, older = v :: vs := by
            cases older with
            | nil => cases hv
            | cons a as =>
              cases hv
              exact ⟨as, rfl⟩
          rw [List.find?_cons_of_pos (by simpa using hs.seenAt hr)]
          rw [asRow_tombstoned ht]
          rfl
  · rintro x ⟨hx, hs⟩
    obtain ⟨w, hw, hiff⟩ := hsees x hx
    refine ⟨w, hw, hiff.mpr (Or.inr ?_)⟩
    exact (seenAt_iff hw).mp (hs.seenAt hr)

/-! ## The snapshot does not change -/

/-- While a reader is active, nothing that was committed before it began is
added or taken away. -/
theorem StepSpec.snapshotVersions_eq {db' : Db κ δ} (h : DbInv db) (hs : StepSpec db db')
    (hr : r < db.txMgr.clock) (key : κ) :
    snapshotVersions db'.log r key = snapshotVersions db.log r key := by
  rcases hs.log with heq | ⟨rec, heq, hrec⟩
  · rw [heq]
  · rw [heq]
    unfold snapshotVersions
    cases hop : rec.operation.commits with
    | some t =>
      -- a new timestamp is above the reader's id
      obtain ⟨p, hp⟩ := hrec.commit t hop
      have hopEq : rec = ⟨rec.lsn, .commit t⟩ := by
        obtain ⟨lsn, op⟩ := rec
        cases op with
        | commit t' =>
          cases hop
          rfl
        | add => cases hop
        | mod => cases hop
        | del => cases hop
        | rollback => cases hop
        | purge => cases hop
      have hnone := h.txn.activeTs t p hp
      rw [hopEq, commitTs_append_commit _ hnone, versionsOf_append_other _ _ _ rfl]
      refine List.filter_congr fun v _ => ?_
      cases hv : v.txnId with
      | none => simp [SeenAt, hv]
      | some w =>
        rw [Bool.eq_iff_iff, decide_eq_true_eq, decide_eq_true_eq, seenAt_iff hv,
          seenAt_iff hv]
        by_cases hw : w = t
        · subst hw
          rw [Function.update_self, hnone]
          refine iff_of_false ?_ (by simp)
          rintro ⟨c, hc, hlt⟩
          cases hc
          have hle := hrec.lsn
          omega
        · rw [Function.update_of_ne hw]
    | none =>
      rw [commitTs_append_other _ _ hop]
      cases hwr : rec.written with
      | none => rw [versionsOf_append_other _ _ _ hwr]
      | some v =>
        by_cases hkey : v.id = key
        · -- a new version belongs to a transaction that has not committed
          rw [versionsOf_append_self _ _ hwr hkey, List.filter_append]
          have hwriter : ∃ t, rec.operation.writer = some t := by
            cases hop' : rec.operation with
            | add t _ => exact ⟨t, rfl⟩
            | mod t _ _ => exact ⟨t, rfl⟩
            | del t _ => exact ⟨t, rfl⟩
            | commit t => simp [LogRecord.written, hop', Operation.written] at hwr
            | rollback t => simp [LogRecord.written, hop', Operation.written] at hwr
            | purge t k => simp [LogRecord.written, hop', Operation.written] at hwr
          obtain ⟨t, ht⟩ := hwriter
          obtain ⟨⟨p, hp⟩, v', u, hv', hvt, -⟩ := hrec.write t ht
          rw [hwr] at hv'
          cases hv'
          rw [List.filter_singleton, decide_eq_false, cond_false, List.append_nil]
          rw [seenAt_iff hvt, h.txn.activeTs t p hp]
          rintro ⟨c, hc, -⟩
          cases hc
        · rw [versionsOf_append_of_ne _ _ hwr hkey]

theorem run_snapshotVersions (h : DbInv db) (as : List (Action κ δ)) (hr : r < db.txMgr.clock)
    (key : κ) :
    snapshotVersions (Lib.run step db as).log r key = snapshotVersions db.log r key := by
  induction as generalizing db with
  | nil => rfl
  | cons a as ih =>
    have hs := step_spec db a h
    exact (ih (inv_step db a h) (Nat.lt_of_lt_of_le hr hs.clock)).trans
      (hs.snapshotVersions_eq h hr key)

/-- As a reader begins, what it sees is what is committed. -/
theorem snapshotVersions_begin (h : DbInv db) (key : κ) :
    snapshotVersions db.log db.txMgr.clock key = committedVersions db.log key := by
  unfold snapshotVersions committedVersions
  refine List.filter_congr fun v _ => ?_
  rw [Bool.eq_iff_iff, decide_eq_true_eq, decide_eq_true_eq]
  refine ⟨SeenAt.committedBy, fun hc => ?_⟩
  cases hv : v.txnId with
  | none => simp [CommittedBy, hv] at hc
  | some w =>
    obtain ⟨c, hc⟩ := (committedBy_iff hv).mp hc
    exact (seenAt_iff hv).mpr ⟨c, hc, (h.txn.tsBound w c hc).2⟩

/-- Snapshot reads.  Let a transaction begin in any reachable state `db`, and
take any interleaving `as` after that in which it stays active.  `find` under
any key then returns, without error, its own last write of the key, or else
the row that was committed as it began; and any later read agrees for as long
as it has not written the key in between. -/
theorem find_eq_snapshot {db : Db κ δ} (h : Reachable db) (policy : ConflictPolicy)
    (as : List (Action κ δ))
    (hact : (Lib.run step (db.begin policy).1 as).txMgr.isTransactionActive
      (db.begin policy).2 = true) (key : κ) :
    (Lib.run step (db.begin policy).1 as).find (db.begin policy).2 key =
      .ok (asRow (match (ownVersions (Lib.run step (db.begin policy).1 as).log
          (db.begin policy).2 key).getLast? with
        | some v => some v
        | none => lastCommitted db.log key)) ∧
    ∀ bs, (Lib.run step (db.begin policy).1 (as ++ bs)).txMgr.isTransactionActive
        (db.begin policy).2 = true →
      ownVersions (Lib.run step (db.begin policy).1 (as ++ bs)).log (db.begin policy).2 key =
        ownVersions (Lib.run step (db.begin policy).1 as).log (db.begin policy).2 key →
      (Lib.run step (db.begin policy).1 (as ++ bs)).find (db.begin policy).2 key =
        (Lib.run step (db.begin policy).1 as).find (db.begin policy).2 key := by
  have hinv := inv_of_reachable h
  have hbegin : DbInv (db.begin policy).1 := hinv.begin policy
  have hr : (db.begin policy).2 < (db.begin policy).1.txMgr.clock := Nat.lt_succ_self _
  -- what a read at any moment of the reader's life returns
  have hread : ∀ as : List (Action κ δ),
      (Lib.run step (db.begin policy).1 as).txMgr.isTransactionActive
        (db.begin policy).2 = true →
      (Lib.run step (db.begin policy).1 as).find (db.begin policy).2 key =
        .ok (asRow (match (ownVersions (Lib.run step (db.begin policy).1 as).log
            (db.begin policy).2 key).getLast? with
          | some v => some v
          | none => lastCommitted db.log key)) := by
    intro as hact
    obtain ⟨p, hp⟩ := (TransactionManager.isTransactionActive_iff _ _).mp hact
    rw [find_eq (inv_run hbegin as) hp key, run_snapshotVersions hbegin as hr key]
    have hsnap : snapshotVersions (db.begin policy).1.log (db.begin policy).2 key =
        committedVersions db.log key := snapshotVersions_begin hinv key
    rw [hsnap]
    rfl
  refine ⟨hread as hact, fun bs hact' hown => ?_⟩
  rw [hread as hact, hread (as ++ bs) hact', hown]

/-- A reader that began before an update committed still finds the row it
replaced. -/
theorem find_eq_snapshot_updated :
    let db : Db Nat Nat := Lib.run step new [.begin .continueOnConflict,
      .insert 1 ⟨7, 10, none, none, false⟩, .commit 1]
    let as : List (Action Nat Nat) := [.begin .continueOnConflict,
      .update 5 ⟨7, 20, none, none, false⟩, .commit 5]
    let db' := Lib.run step (db.begin .continueOnConflict).1 as
    db'.txMgr.isTransactionActive 4 = true ∧
      db'.rows 7 = some ⟨7, 20, some 5, some 6, false⟩ ∧
      db'.find 4 7 = .ok (some ⟨7, 10, some 1, none, false⟩) := by
  intro db as db'
  have hact : db'.txMgr.isTransactionActive 4 = true := by decide
  have hfind := (find_eq_snapshot (Lib.reachable_run _ (Lib.allowed_true _ _) : Reachable db)
    .continueOnConflict as hact 7).1
  exact ⟨hact, by decide, hfind.trans rfl⟩

/-! ## First committer wins -/

/-- Versions of one key by different committed writers, in the order of the
log: the earlier writer committed before the later one began. -/
theorem committedVersions_ordered (h : DbInv db) (key : κ) :
    (committedVersions db.log key).Pairwise fun v v' => BuiltOn (commitTs db.log) v' v := by
  obtain ⟨own, base, older, hk⟩ := h.key key
  have hord := hk.ordered
  rw [List.append_assoc, List.pairwise_append] at hord
  have hrev := hord.2.1
  rw [← hk.history, List.pairwise_reverse] at hrev
  exact hrev

/-- First committer wins.  If two transactions that both committed each wrote
the same key, then one of them committed before the other began; and it is the
one whose write came first in the log, so no committed write is overwritten by
a transaction that could not have seen it. -/
theorem first_committer_wins {db : Db κ δ} (h : Reachable db) {key : κ}
    {r r' : LogRecord κ δ} (hr : r ∈ db.log) (hr' : r' ∈ db.log) {v v' : Tuple κ δ}
    (hv : r.written = some v) (hv' : r'.written = some v') (hkey : v.id = key)
    (hkey' : v'.id = key) {t t' c c' : Nat} (ht : r.operation.writer = some t)
    (ht' : r'.operation.writer = some t') (hne : t ≠ t')
    (hc : commitTs db.log t = some c) (hc' : commitTs db.log t' = some c') :
    (c < t' ∨ c' < t) ∧ (r.lsn < r'.lsn → c < t') := by
  have hinv := inv_of_reachable h
  -- what the order of committed versions says of two records of the log
  have hpair : db.log.Pairwise fun a b => a.lsn < b.lsn ∧
      ∀ x, a.written = some x → x.id = key → CommittedBy (commitTs db.log) x →
      ∀ y, b.written = some y → y.id = key → CommittedBy (commitTs db.log) y →
        BuiltOn (commitTs db.log) y x := by
    have hord := committedVersions_ordered hinv key
    unfold committedVersions versionsOf at hord
    rw [List.pairwise_filter, List.pairwise_filterMap] at hord
    refine (hinv.lsnOrdered.and hord).imp ?_
    rintro a b ⟨hlt, hab⟩
    refine ⟨hlt, fun x hx hxk hxc y hy hyk hyc => ?_⟩
    refine hab x ?_ y ?_ (by simpa using hxc) (by simpa using hyc)
    · simp [hx, Option.filter_some, hxk]
    · simp [hy, Option.filter_some, hyk]
  have hvt : v.txnId = some t := (hinv.recordWf r hr v hv).writer.trans ht
  have hvt' : v'.txnId = some t' := (hinv.recordWf r' hr' v' hv').writer.trans ht'
  have hcom : CommittedBy (commitTs db.log) v := (committedBy_iff hvt).mpr ⟨c, hc⟩
  have hcom' : CommittedBy (commitTs db.log) v' := (committedBy_iff hvt').mpr ⟨c', hc'⟩
  have hbuilt : ∀ {x y : Tuple κ δ} {a b d : Nat}, x.txnId = some a → y.txnId = some b →
      a ≠ b → commitTs db.log a = some d → BuiltOn (commitTs db.log) y x → d < b := by
    rintro x y a b d hx hy hab hd (heq | ⟨wu, wv, e, hu, hw, he, hlt⟩)
    · rw [hx, hy] at heq
      exact absurd (Option.some.inj heq).symm hab
    · rw [hy] at hu
      rw [hx] at hw
      cases hu
      cases hw
      rw [hd] at he
      cases he
      exact hlt
  obtain ⟨i, hi, rfl⟩ := List.mem_iff_getElem.mp hr
  obtain ⟨j, hj, rfl⟩ := List.mem_iff_getElem.mp hr'
  rw [List.pairwise_iff_getElem] at hpair
  rcases Nat.lt_trichotomy i j with hij | rfl | hij
  · have hlt : c < t' :=
      hbuilt hvt hvt' hne hc ((hpair i j hi hj hij).2 v hv hkey hcom v' hv' hkey' hcom')
    exact ⟨Or.inl hlt, fun _ => hlt⟩
  · rw [ht] at ht'
    exact absurd (Option.some.inj ht') hne
  · obtain ⟨hlsn, hab⟩ := hpair j i hj hi hij
    have hlt : c' < t :=
      hbuilt hvt' hvt (Ne.symm hne) hc' (hab v' hv' hkey' hcom' v hv hkey hcom)
    exact ⟨Or.inr hlt, fun h => absurd h (Nat.lt_asymm hlsn)⟩

/-- Two updates of one key, the second by a transaction that began after the
first had committed. -/
theorem first_committer_wins_updates :
    let db : Db Nat Nat := Lib.run step new [.begin .continueOnConflict,
      .insert 1 ⟨7, 10, none, none, false⟩, .commit 1, .begin .continueOnConflict,
      .update 4 ⟨7, 20, none, none, false⟩, .commit 4]
    commitTs db.log 1 = some 3 ∧ commitTs db.log 4 = some 6 ∧ (3 < 4 ∨ 6 < 1) := by
  intro db
  have hc : commitTs db.log 1 = some 3 := by decide
  have hc' : commitTs db.log 4 = some 6 := by decide
  refine ⟨hc, hc', ?_⟩
  have hr : (⟨2, .add 1 ⟨7, 10, some 1, none, false⟩⟩ : LogRecord Nat Nat) ∈ db.log := by decide
  have hr' : (⟨5, .mod 4 ⟨7, 10, some 1, none, false⟩ ⟨7, 20, some 4, some 5, false⟩⟩ :
      LogRecord Nat Nat) ∈ db.log := by decide
  exact (first_committer_wins (Lib.reachable_run _ (Lib.allowed_true _ _) : Reachable db)
    hr hr' rfl rfl rfl rfl rfl rfl (by decide) hc hc').1

end Db

end SquealDb.Store
