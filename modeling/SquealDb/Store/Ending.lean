import SquealDb.Store.Maintenance

/-!
# Beginning and ending a transaction keeps the invariant

A commit turns what its transaction holds into committed versions, at every
key it wrote.  An abort takes one undo after another: each of them puts back a
version from which the holder's own versions lead to the same committed row,
so the invariant holds after any number of them, in any order, and a revert
that failed half way can be run again from the start.
-/

namespace SquealDb.Store

open Lib

variable {κ δ : Type*} [DecidableEq κ] {db : Db κ δ}

/-! ## Timestamps only grow -/

section Timestamps

variable {m m' : TransactionManager} {ts ts' : Nat → Option Nat}

omit [DecidableEq κ] in
theorem BuiltOn.mono {u v : Tuple κ δ} (h : BuiltOn ts u v)
    (hts : ∀ w c, ts w = some c → ts' w = some c) : BuiltOn ts' u v := by
  rcases h with heq | ⟨wu, wv, c, hu, hv, hc, hlt⟩
  · exact Or.inl heq
  · exact Or.inr ⟨wu, wv, c, hu, hv, hts wv c hc, hlt⟩

omit [DecidableEq κ] in
theorem SeenByAll.mono_ts {v : Tuple κ δ} (h : SeenByAll m ts v)
    (hts : ∀ w c, ts w = some c → ts' w = some c)
    (hact : ∀ r p, m'.states r = some (.active p) → m.states r = some (.active p)) :
    SeenByAll m' ts' v := by
  obtain ⟨w, c, hw, hc, hall⟩ := h
  exact ⟨w, c, hw, hts w c hc, fun r p hp => hall r p (hact r p hp)⟩

omit [DecidableEq κ] in
theorem CutAt.mono_ts {base older : List (Tuple κ δ)} (h : CutAt m ts base older)
    (hts : ∀ w c, ts w = some c → ts' w = some c)
    (hact : ∀ r p, m'.states r = some (.active p) → m.states r = some (.active p)) :
    CutAt m' ts' base older := by
  rcases h with h | ⟨v, hv, hs⟩ | ⟨v, hv, hs, ht⟩
  · exact Or.inl h
  · exact Or.inr (Or.inl ⟨v, hv, hs.mono_ts hts hact⟩)
  · exact Or.inr (Or.inr ⟨v, hv, hs.mono_ts hts hact, ht⟩)

end Timestamps

/-! ## Committing -/

section Commit

variable {m m' : TransactionManager} {log log' : List (LogRecord κ δ)}
  {find : Nat → Option (Tuple κ δ)} {key : κ} {row : Option (Tuple κ δ)}
  {own base older : List (Tuple κ δ)} {txn c : Nat}

/-- What a commit of `txn` changes, as far as a key can tell. -/
structure CommitFacts (m m' : TransactionManager) (log log' : List (LogRecord κ δ))
    (txn c : Nat) : Prop where
  states : m'.states = Function.update m.states txn (some (.committed c))
  fresh : commitTs log txn = none
  ts : commitTs log' = Function.update (commitTs log) txn (some c)
  versions : ∀ key, versionsOf log' key = versionsOf log key
  undos : ∀ t key, undosOn log' t key = undosOn log t key

namespace CommitFacts

theorem ts_mono (h : CommitFacts m m' log log' txn c) (w d : Nat)
    (hw : commitTs log w = some d) : commitTs log' w = some d := by
  have hne : w ≠ txn := by
    rintro rfl
    rw [h.fresh] at hw
    cases hw
  rw [h.ts, Function.update_of_ne hne]
  exact hw

theorem active (h : CommitFacts m m' log log' txn c) (r : Nat) (p : ConflictPolicy)
    (hp : m'.states r = some (.active p)) : r ≠ txn ∧ m.states r = some (.active p) := by
  rw [h.states] at hp
  have hne : r ≠ txn := by
    rintro rfl
    rw [Function.update_self] at hp
    cases hp
  rw [Function.update_of_ne hne] at hp
  exact ⟨hne, hp⟩

theorem inFlight (h : CommitFacts m m' log log' txn c) (t : Nat) :
    InFlight m' t ↔ t ≠ txn ∧ InFlight m t := by
  unfold InFlight
  rw [h.states]
  by_cases ht : t = txn
  · subst ht
    simp
  · simp [ht]

theorem committedBy (h : CommitFacts m m' log log' txn c) (v : Tuple κ δ) :
    CommittedBy (commitTs log') v ↔ CommittedBy (commitTs log) v ∨ v.txnId = some txn := by
  cases hv : v.txnId with
  | none => simp [CommittedBy, hv]
  | some w =>
    rw [committedBy_iff hv, committedBy_iff hv, h.ts]
    by_cases hw : w = txn
    · subst hw
      simp
    · simp [hw]

theorem wroteKey (h : CommitFacts m m' log log' txn c) (t : Nat) :
    WroteKey log' t key ↔ WroteKey log t key := by
  unfold WroteKey
  rw [h.versions]

/-- The record of a commit is put behind the log. -/
theorem append (hstates : m'.states = Function.update m.states txn (some (.committed c)))
    (hfresh : commitTs log txn = none) :
    CommitFacts m m' log (log ++ [⟨c, .commit txn⟩]) txn c :=
  ⟨hstates, hfresh, commitTs_append_commit _ hfresh, fun k => versionsOf_append_other _ _ k rfl,
    fun _ _ => undosOn_append_of_ne _ _ (by simp [Operation.writer])⟩

theorem noCommitting (h : CommitFacts m m' log log' txn c)
    (hno : ∀ id c p, m.states id ≠ some (.committing c p)) (id d : Nat) (q : ConflictPolicy) :
    m'.states id ≠ some (.committing d q) := by
  rw [h.states]
  by_cases hid : id = txn
  · subst hid
    simp
  · rw [Function.update_of_ne hid]
    exact hno id d q

/-- What waits for the vacuum is committed as its entry says. -/
theorem committedQueue (h : CommitFacts m m' log log' txn c) {s : VersionStore κ δ}
    (hq : ∀ e ∈ s.committed, commitTs log e.2.1 = some e.1) :
    ∀ e ∈ (s.markCommitted txn c).committed, commitTs log' e.2.1 = some e.1 := by
  intro e he
  rcases VersionStore.mem_committed_markCommitted _ _ _ he with he | ⟨h1, h2⟩
  · exact h.ts_mono _ _ (hq e he)
  · rw [h.ts, h1, h2, Function.update_self]

end CommitFacts

/-- At a key the committing transaction wrote, what it holds becomes part of
what is committed. -/
theorem KeyInv.commit_wrote (h : KeyInv m log find key row own base older)
    (hc : CommitFacts m m' log log' txn c) {p : ConflictPolicy}
    (hact : m.states txn = some (.active p)) (hw : WroteKey log txn key) :
    KeyInv m' log' find key row [] (own ++ base) older := by
  obtain ⟨hne, hby, hfilter⟩ := h.active txn p hact hw
  have hseen : ∀ v : Tuple κ δ, SeenByAll m (commitTs log) v →
      SeenByAll m' (commitTs log') v :=
    fun v hv => hv.mono_ts hc.ts_mono fun r q hq => (hc.active r q hq).2
  refine ⟨?_, ?_, h.keyed, ?_, ?_, ?_, by simp, by simp, ?_, ?_⟩
  · rw [h.row_eq_head]
    exact Path.nil _
  · rw [← h.row_eq_head]
    exact h.full_chain.mono fun v _ hv => hseen v hv
  · have hcv : committedVersions log' key =
        (versionsOf log key).filter (fun v =>
          decide (CommittedBy (commitTs log) v) || decide (v.txnId = some txn)) := by
      unfold committedVersions
      rw [hc.versions]
      refine List.filter_congr fun v _ => ?_
      rw [Bool.eq_iff_iff]
      simp only [decide_eq_true_eq, Bool.or_eq_true]
      exact hc.committedBy v
    rw [hcv, hfilter, List.reverse_reverse]
  · exact h.ordered.imp fun hb => hb.mono hc.ts_mono
  · rcases h.cut.mono_ts hc.ts_mono fun r q hq => (hc.active r q hq).2 with
      hnil | ⟨v, hv, hs⟩ | hold
    · exact Or.inl hnil
    · refine Or.inr (Or.inl ⟨v, ?_, hs⟩)
      rw [List.getLast?_append, hv]
      rfl
    · exact Or.inr (Or.inr hold)
  · intro t q hq hwk
    obtain ⟨hne', hq⟩ := hc.active t q hq
    obtain ⟨-, hby', -⟩ := h.active t q hq ((hc.wroteKey t).mp hwk)
    obtain ⟨o, os, rfl⟩ := List.exists_cons_of_ne_nil hne
    have heq := (hby' o (by simp)).symm.trans (hby o (by simp))
    exact absurd (Option.some.inj heq) hne'
  · intro t v ht hv hvt
    obtain ⟨hne', -⟩ := (hc.inFlight t).mp ht
    have hmem : v ∈ own := by
      rw [h.path.head_eq hne] at hv
      exact List.mem_of_mem_head? hv
    rw [hby v hmem] at hvt
    exact absurd (Option.some.inj hvt).symm hne'

/-- At every other key a commit changes nothing. -/
theorem KeyInv.commit_other (h : KeyInv m log find key row own base older)
    (hc : CommitFacts m m' log log' txn c) (hw : ¬ WroteKey log txn key) :
    KeyInv m' log' find key row own base older := by
  have hcom : ∀ v ∈ versionsOf log key,
      (CommittedBy (commitTs log') v ↔ CommittedBy (commitTs log) v) := by
    intro v hv
    rw [hc.committedBy]
    exact or_iff_left fun hvt => hw ⟨v, hv, hvt⟩
  have hne : ∀ t, WroteKey log t key → t ≠ txn := by
    rintro t ht rfl
    exact hw ht
  refine ⟨h.path, ?_, h.keyed, ?_, ?_, ?_, ?_, h.same, ?_, ?_⟩
  · exact h.chain.mono fun v _ hv =>
      hv.mono_ts hc.ts_mono fun r q hq => (hc.active r q hq).2
  · rw [← h.history]
    unfold committedVersions
    rw [hc.versions]
    congr 1
    refine List.filter_congr fun v hv => ?_
    rw [Bool.eq_iff_iff, decide_eq_true_eq, decide_eq_true_eq]
    exact hcom v hv
  · exact h.ordered.imp fun hb => hb.mono hc.ts_mono
  · exact h.cut.mono_ts hc.ts_mono fun r q hq => (hc.active r q hq).2
  · intro v hv
    obtain ⟨t, ht, hfl, hwt⟩ := h.holder v hv
    exact ⟨t, ht, (hc.inFlight t).mpr ⟨hne t hwt, hfl⟩, (hc.wroteKey t).mpr hwt⟩
  · intro t q hq hwk
    obtain ⟨-, hq⟩ := hc.active t q hq
    obtain ⟨hne', hby, hfilter⟩ := h.active t q hq ((hc.wroteKey t).mp hwk)
    refine ⟨hne', hby, ?_⟩
    rw [hc.versions, ← hfilter]
    refine List.filter_congr fun v hv => ?_
    rw [Bool.eq_iff_iff]
    simp only [decide_eq_true_eq, Bool.or_eq_true]
    rw [hcom v hv]
  · intro t v ht hv hvt
    rw [hc.undos]
    exact h.undo t v ((hc.inFlight t).mp ht).2 hv hvt

end Commit

namespace DbInv

theorem begin (h : DbInv db) (policy : ConflictPolicy) : DbInv (db.begin policy).1 := by
  have hstates : ∀ t, t ≠ db.txMgr.clock →
      (db.txMgr.createTransaction policy).1.states t = db.txMgr.states t := by
    intro t ht
    simp [TransactionManager.createTransaction, ht]
  have hnew : (db.txMgr.createTransaction policy).1.states db.txMgr.clock =
      some (.active policy) := by
    simp [TransactionManager.createTransaction]
  refine h.withMgr (h.txn.createTransaction policy) (Nat.le_succ _) ?_ ?_ ?_ ?_
  · intro id c p hs
    by_cases hid : id = db.txMgr.clock
    · subst hid
      rw [hnew] at hs
      cases hs
    · rw [hstates id hid] at hs
      exact h.noCommitting id c p hs
  · intro t p hs
    by_cases ht : t = db.txMgr.clock
    · exact Or.inr (Nat.le_of_eq ht.symm)
    · rw [hstates t ht] at hs
      exact Or.inl ⟨p, hs⟩
  · intro t hs
    by_cases ht : t = db.txMgr.clock
    · exact Or.inr (Nat.le_of_eq ht.symm)
    · unfold InFlight at hs
      rw [hstates t ht] at hs
      exact Or.inl hs
  · intro t key v hs _ _
    have ht : t ≠ db.txMgr.clock := Nat.ne_of_lt (inFlight_lt h.txn hs)
    unfold InFlight at hs ⊢
    rwa [hstates t ht]

/-- Whoever wrote a row has written. -/
theorem wrote_of_row (h : DbInv db) {key : κ} {v : Tuple κ δ} {t : Nat}
    (hv : db.rows key = some v) (ht : v.txnId = some t) : Wrote db.log t := by
  obtain ⟨own, base, older, hk⟩ := h.key key
  obtain ⟨w, hw, hwrote, -⟩ := h.known_of_mem hk (hk.row_mem hv)
  rw [ht] at hw
  cases hw
  exact hwrote

/-- Ending a transaction that holds no row. -/
theorem endState (h : DbInv db) {m' : TransactionManager} {t : Nat} {state : Option TxnState}
    (ht : TxnInv m' (commitTs db.log) (Wrote db.log)) (hclock : db.txMgr.clock ≤ m'.clock)
    (hstates : m'.states = Function.update db.txMgr.states t state)
    (hactive : ∀ p, state ≠ some (.active p)) (hab : state ≠ some .aborting)
    (hcom : ∀ c p, state ≠ some (.committing c p))
    (hrow : ∀ key v, db.rows key = some v → v.txnId ≠ some t) :
    DbInv { db with txMgr := m' } := by
  have hne : ∀ r s, m'.states r = some s → state ≠ some s → r ≠ t := by
    rintro r s hs hst rfl
    rw [hstates, Function.update_self] at hs
    exact hst hs
  have hold : ∀ r, r ≠ t → m'.states r = db.txMgr.states r := by
    intro r hr
    rw [hstates, Function.update_of_ne hr]
  refine h.withMgr ht hclock ?_ ?_ ?_ ?_
  · intro id c p hs
    rw [hold id (hne id _ hs (hcom c p))] at hs
    exact h.noCommitting id c p hs
  · intro r p hs
    rw [hold r (hne r _ hs (hactive p))] at hs
    exact Or.inl ⟨p, hs⟩
  · rintro r (⟨p, hs⟩ | hs)
    · rw [hold r (hne r _ hs (hactive p))] at hs
      exact Or.inl (Or.inl ⟨p, hs⟩)
    · rw [hold r (hne r _ hs hab)] at hs
      exact Or.inl (Or.inr hs)
  · intro r key v hr hv hvt
    have hrt : r ≠ t := by
      rintro rfl
      exact hrow key v hv hvt
    unfold InFlight at hr ⊢
    rwa [hold r hrt]

/-- The commit of a transaction that wrote. -/
theorem commitWrites (h : DbInv db) {txn : Nat} {p : ConflictPolicy}
    (hp : db.txMgr.states txn = some (.active p)) {m : TransactionManager}
    (htxn : TxnInv m (Function.update (commitTs db.log) txn (some db.txMgr.clock)) (Wrote db.log))
    (hclock : m.clock = db.txMgr.clock + 1)
    (hstates : m.states = Function.update db.txMgr.states txn (some (.committed db.txMgr.clock))) :
    DbInv { db with
      txMgr := m
      versions := db.versions.markCommitted txn db.txMgr.clock
      log := db.log ++ [⟨db.txMgr.clock, .commit txn⟩] } := by
  have hfacts : CommitFacts db.txMgr m db.log (db.log ++ [⟨db.txMgr.clock, .commit txn⟩]) txn
      db.txMgr.clock := .append hstates (h.txn.activeTs txn p hp)
  have hwr : Wrote (db.log ++ [⟨db.txMgr.clock, .commit txn⟩]) = Wrote db.log :=
    wrote_append_other _ _ rfl
  have hundo : ∀ t, undosOf (db.log ++ [⟨db.txMgr.clock, .commit txn⟩]) t =
      undosOf db.log t := fun t => undosOf_append_of_ne _ _ (by simp [Operation.writer])
  have hwritten : ∀ {t l}, .replaced l ∈
      (db.versions.markCommitted txn db.txMgr.clock).writtenBy t →
      .replaced l ∈ db.versions.writtenBy t := VersionStore.replaced_mem_markCommitted _ _ _ _
  have hstored : ∀ v, Stored { db with
      txMgr := m
      versions := db.versions.markCommitted txn db.txMgr.clock
      log := db.log ++ [⟨db.txMgr.clock, .commit txn⟩] } v → Stored db v := by
    rintro v (hk | ⟨l, hl⟩)
    · exact Or.inl hk
    · exact Or.inr ⟨l, by simpa using hl⟩
  have hlater : ∀ {l}, l < db.txMgr.clock → l < m.clock := fun hl =>
    hclock ▸ Nat.lt_succ_of_lt hl
  obtain ⟨hlt, hord, hwf⟩ := h.log_append (.commit txn) fun v hv => by cases hv
  refine ⟨hfacts.ts ▸ hwr ▸ htxn, hfacts.noCommitting h.noCommitting, hclock ▸ hlt, hord, hwf,
    ?_, ?_, fun v l hv hl => hlater (h.preLt v l (hstored v hv) hl),
    fun t l hl => hlater (h.writtenLt t l (hwritten hl)),
    fun v l t hv hpl hl => h.owner v l t (hstored v hv) hpl (hwritten hl),
    fun l t t' hl hl' => h.ownerUnique l t t' (hwritten hl) (hwritten hl'),
    fun t ht => hlater (h.byTxnLt t (VersionStore.hasWrites_of_markCommitted _ _ _ ht)),
    ?_, ?_, ?_, hfacts.committedQueue h.committedQueue, ?_, ?_⟩
  · intro k
    obtain ⟨own, base, older, hk⟩ := h.key k
    dsimp only
    rw [VersionStore.find_markCommitted]
    by_cases hw : WroteKey db.log txn k
    · exact ⟨[], own ++ base, older, hk.commit_wrote hfacts hp hw⟩
    · exact ⟨own, base, older, hk.commit_other hfacts hw⟩
  · intro l v hl
    dsimp only at hl
    rw [VersionStore.find_markCommitted] at hl
    exact hlater (h.findLt l v hl)
  · intro t ht
    obtain ⟨hne, hfl⟩ := (hfacts.inFlight t).mp ht
    dsimp only
    rw [hwr, VersionStore.hasWrites_markCommitted_of_ne _ _ _ hne]
    exact h.hasWrites t hfl
  · intro t ht
    obtain ⟨hne, hfl⟩ := (hfacts.inFlight t).mp ht
    dsimp only
    rw [hundo, ← h.undoOf t hfl, VersionStore.undoOf_markCommitted_of_ne _ _ _ hne]
  · intro t k u rest hu
    dsimp only at hu
    rw [hfacts.undos] at hu
    exact h.undoShape t k u rest hu
  · intro t ht
    dsimp only
    rcases VersionStore.mem_tombstones_markCommitted _ _ _ ht with ht | ⟨h1, h2⟩
    · exact hfacts.ts_mono _ _ (h.tombstones t ht)
    · rw [hfacts.ts, h1, h2, Function.update_self]
  · intro t ht
    obtain ⟨hc, hall⟩ := h.purging t ht
    exact ⟨hfacts.ts_mono _ _ hc, fun r q hq => hall r q (hfacts.active r q hq).2⟩

theorem commit (h : DbInv db) (txn : Nat) : DbInv (db.commit txn).1 := by
  obtain ⟨db', heq, hcommit⟩ := db.commit_cases txn
  rw [heq]
  cases hcommit with
  | refused => exact h
  | logged hp hhas hbegin hclock hstates =>
    have hwrote := (h.hasWrites txn (Or.inl ⟨_, hp⟩)).mp hhas
    exact h.commitWrites hp ((h.txn.beginCommit hwrote hbegin).finishCommit txn) hclock hstates
  | silent hp hhas hm hclock hstates =>
    have hnot : ¬ Wrote db.log txn := by
      rw [← h.hasWrites txn (Or.inl ⟨_, hp⟩), hhas]
      exact Bool.false_ne_true
    refine h.nextLsn.endState (h.nextLsn.txn.commit hnot hm) (Nat.le_of_eq hclock.symm)
      hstates (by simp) (by simp) (by simp) ?_
    intro key v hv hvt
    exact hnot (h.wrote_of_row hv hvt)

end DbInv

/-! ## Aborting -/

/-- What `revert_one` does to the row it is about. -/
def revertRow (txn : Nat) (row : Option (Tuple κ δ)) (u : Undo κ δ) : Option (Tuple κ δ) :=
  if row.any fun t => t.isSameTxn txn then u.target else row

variable {row : Option (Tuple κ δ)} {t : Nat}

omit [DecidableEq κ] in
theorem revertRow_of_same {txn : Nat} {v : Tuple κ δ} (hrow : row = some v)
    (hv : v.txnId = some txn) (u : Undo κ δ) :
    revertRow txn row u = u.target := by
  simp [revertRow, hrow, hv]

omit [DecidableEq κ] in
theorem revertRow_of_other {txn : Nat} (h : ∀ v, row = some v → v.txnId ≠ some txn) (u : Undo κ δ) :
    revertRow txn row u = row := by
  cases hrow : row with
  | none => rfl
  | some v => simp [revertRow, h v hrow]

theorem revertOne_eq (txn : Nat) (db : Db κ δ) (u : Undo κ δ) :
    Db.revertOne txn db u = { db.nextLsn.1 with
      rows := Function.update db.rows u.key (revertRow txn (db.rows u.key) u) } := by
  unfold Db.revertOne
  have hrows : db.nextLsn.1.rows u.key = db.rows u.key := rfl
  dsimp only
  rw [hrows]
  cases u with
  | remove key =>
    cases hrow : db.rows (Undo.remove key : Undo κ δ).key with
    | none => rfl
    | some cur =>
      dsimp only
      by_cases hs : cur.isSameTxn txn = true
      · simp [hs, revertRow, Db.applyDecision, Undo.key, Undo.target, Db.nextLsn]
      · have hself : Function.update db.rows key (some cur) = db.rows := by
          rw [← hrow]
          exact Function.update_eq_self key db.rows
        simp [hs, revertRow, Db.applyDecision, Undo.key, Db.nextLsn, hself]
  | restore pre =>
    cases hrow : db.rows (Undo.restore pre).key with
    | none =>
      have hself : Function.update db.rows pre.id none = db.rows := by
        rw [← hrow]
        exact Function.update_eq_self pre.id db.rows
      simp [revertRow, Db.applyDecision, Undo.key, Db.nextLsn, hself]
    | some cur =>
      dsimp only
      by_cases hs : cur.isSameTxn txn = true
      · simp [hs, revertRow, Db.applyDecision, Undo.key, Undo.target, Db.nextLsn]
      · have hself : Function.update db.rows pre.id (some cur) = db.rows := by
          rw [← hrow]
          exact Function.update_eq_self pre.id db.rows
        simp [hs, revertRow, Db.applyDecision, Undo.key, Db.nextLsn, hself]

/-- A held row may be put back to any version of the holder's that leads to
the same committed row, or to that row. -/
theorem KeyInv.reown {m : TransactionManager} {log : List (LogRecord κ δ)}
    {find : Nat → Option (Tuple κ δ)} {key : κ} {row' : Option (Tuple κ δ)}
    {own own' base older : List (Tuple κ δ)} {wrote : Nat → Prop} {v : Tuple κ δ}
    (h : KeyInv m log find key row own base older) (ht : TxnInv m (commitTs log) wrote)
    (hab : m.states t = some .aborting) (hrow : row = some v) (hv : v.txnId = some t)
    (hby : ∀ x ∈ own', x.txnId = some t ∧ x.id = key)
    (hpath : Path Tuple.preLsn find row' own' base.head?) :
    KeyInv m log find key row' own' base older := by
  have hnone : commitTs log t = none := ht.abortingTs t hab
  have hne : own ≠ [] := by
    refine h.own_ne_nil hrow ?_
    rw [committedBy_iff hv, hnone]
    rintro ⟨c, hc⟩
    cases hc
  have hown : ∀ x ∈ own, x.txnId = some t := fun x hx => (h.own_by hrow hne hx).trans hv
  obtain ⟨o, os, hoEq⟩ := List.exists_cons_of_ne_nil hne
  have ho : o ∈ own := hoEq ▸ List.mem_cons_self
  have hwk : WroteKey log t key := by
    obtain ⟨t', ht', -, hw⟩ := h.holder o ho
    rw [hown o ho] at ht'
    cases ht'
    exact hw
  have hord : (own ++ (base ++ older)).Pairwise (BuiltOn (commitTs log)) := by
    rw [← List.append_assoc]
    exact h.ordered
  rw [List.pairwise_append] at hord
  refine ⟨hpath, h.chain, ?_, h.history, ?_, h.cut, ?_, ?_, ?_, ?_⟩
  · intro x hx
    rcases List.mem_append.mp hx with hx | hx
    · exact (hby x hx).2
    · exact h.keyed x (List.mem_append_right _ hx)
  · rw [List.append_assoc, List.pairwise_append]
    refine ⟨List.pairwise_of_forall_mem_list fun a ha b hb => ?_, hord.2.1, fun a ha b hb => ?_⟩
    · exact Or.inl ((hby a ha).1.trans (hby b hb).1.symm)
    · have hb' := hord.2.2 o ho b hb
      unfold BuiltOn at hb' ⊢
      rwa [(hby a ha).1, ← hown o ho]
  · exact fun x hx => ⟨t, (hby x hx).1, Or.inr hab, hwk⟩
  · exact fun a ha b hb => (hby a ha).1.trans (hby b hb).1.symm
  · intro t' p hp hw
    obtain ⟨-, hby', -⟩ := h.active t' p hp hw
    have heq := (hby' o ho).symm.trans (hown o ho)
    cases heq
    rw [hab] at hp
    cases hp
  · intro t' x ht' hx hxt
    have hfull := hpath.append_chain h.chain
    have hmem : x ∈ own' ++ base := by
      have hhead := hfull.head_eq
      rw [hx] at hhead
      exact List.mem_of_mem_head? hhead.symm
    rcases List.mem_append.mp hmem with hmem | hmem
    · have heq := hxt.symm.trans (hby x hmem).1
      cases heq
      exact h.undo t v (Or.inr hab) hrow hv
    · obtain ⟨-, hcom⟩ := h.committed_of_mem (List.mem_append_left older hmem)
      rw [committedBy_iff hxt, commitTs_of_inFlight ht ht'] at hcom
      obtain ⟨c, hc⟩ := hcom
      cases hc

namespace DbInv

/-- One step of a revert keeps the invariant, whichever undo of the
transaction it takes. -/
theorem revertOne (h : DbInv db) {t : Nat} (hab : db.txMgr.states t = some .aborting)
    {u : Undo κ δ} (hu : u ∈ undosOf db.log t) : DbInv (Db.revertOne t db u) := by
  rw [revertOne_eq]
  have h1 := h.nextLsn
  have huOn : u ∈ undosOn db.log t u.key := List.mem_filter.mpr ⟨hu, by simp⟩
  obtain ⟨own, base, older, hk⟩ := h1.key u.key
  by_cases hrow : ∃ v, db.rows u.key = some v ∧ v.txnId = some t
  · obtain ⟨v, hrow, hv⟩ := hrow
    rw [revertRow_of_same hrow hv]
    refine h1.setRow (fun p hp => Or.inr (h.stored_of_undo (Or.inr hab) huOn hp)) ?_
    obtain ⟨u0, rest, hu0, htar, hrest⟩ := hk.undo t v (Or.inr hab) hrow hv
    have hmem : u ∈ u0 :: rest := hu0 ▸ huOn
    rcases List.mem_cons.mp hmem with rfl | hmem
    · exact ⟨[], base, older, hk.reown h1.txn hab hrow hv (by simp) (htar ▸ Path.nil _)⟩
    · obtain ⟨p, own', hp, -, hby, hpath⟩ := hrest u hmem
      exact ⟨own', base, older, hk.reown h1.txn hab hrow hv hby (hp ▸ hpath)⟩
  · rw [revertRow_of_other fun v hv hvt => hrow ⟨v, hv, hvt⟩]
    refine h1.setRow (fun p hp => Or.inl ⟨u.key, hp⟩) ⟨own, base, older, hk⟩

end DbInv

/-- A revert changes only rows and the clock. -/
theorem revert_fields (txn : Nat) (us : List (Undo κ δ)) (db : Db κ δ) :
    (us.foldl (Db.revertOne txn) db).log = db.log ∧
      (us.foldl (Db.revertOne txn) db).versions = db.versions ∧
      (us.foldl (Db.revertOne txn) db).purging = db.purging ∧
      (us.foldl (Db.revertOne txn) db).txMgr.states = db.txMgr.states ∧
      (us.foldl (Db.revertOne txn) db).txMgr.snapshots = db.txMgr.snapshots := by
  induction us generalizing db with
  | nil => exact ⟨rfl, rfl, rfl, rfl, rfl⟩
  | cons u us ih =>
    have hstep := ih (Db.revertOne txn db u)
    rw [revertOne_eq] at hstep
    rw [List.foldl_cons, revertOne_eq]
    exact hstep

/-- At one key a revert takes the undos of that key, in their order. -/
theorem rows_revert (txn : Nat) (us : List (Undo κ δ)) (db : Db κ δ) (key : κ) :
    (us.foldl (Db.revertOne txn) db).rows key =
      (us.filter fun u => decide (u.key = key)).foldl (revertRow txn) (db.rows key) := by
  induction us generalizing db with
  | nil => rfl
  | cons u us ih =>
    rw [List.foldl_cons, ih, revertOne_eq]
    by_cases hkey : u.key = key
    · subst hkey
      simp
    · simp [hkey, Function.update_of_ne (Ne.symm hkey)]

omit [DecidableEq κ] in
/-- While only its own versions are restored, a row stays its transaction's,
and another's row is left alone. -/
theorem foldl_revertRow_own {us : List (Undo κ δ)}
    (hus : ∀ u ∈ us, ∃ p, u.target = some p ∧ p.txnId = some t) (row : Option (Tuple κ δ)) :
    ((row.any fun v => v.isSameTxn t) = true →
      ((us.foldl (revertRow t) row).any fun v => v.isSameTxn t) = true) ∧
    ((row.any fun v => v.isSameTxn t) = false → us.foldl (revertRow t) row = row) := by
  induction us generalizing row with
  | nil => exact ⟨id, fun _ => rfl⟩
  | cons x xs ih =>
    have ih' := ih (fun u hu => hus u (List.mem_cons_of_mem _ hu))
    rw [List.foldl_cons]
    constructor
    · intro hrow
      obtain ⟨p, hp, hpt⟩ := hus x List.mem_cons_self
      refine (ih' _).1 ?_
      simp [revertRow, hrow, hp, hpt]
    · intro hrow
      have hself : revertRow t row x = row := by simp [revertRow, hrow]
      rw [hself]
      exact (ih' row).2 hrow

omit [DecidableEq κ] in
/-- The undos of one key, newest first, put back the row before the first
write if the row is still the transaction's, and leave it alone otherwise. -/
theorem foldl_revertRow {u : Undo κ δ} {rest : List (Undo κ δ)}
    (hrest : ∀ u' ∈ rest, ∃ p, u'.target = some p ∧ p.txnId = some t) (row : Option (Tuple κ δ)) :
    (u :: rest).reverse.foldl (revertRow t) row =
      if row.any fun v => v.isSameTxn t then u.target else row := by
  rw [List.reverse_cons, List.foldl_append, List.foldl_cons, List.foldl_nil]
  have hk := foldl_revertRow_own
    (fun u' (hu' : u' ∈ rest.reverse) => hrest u' (List.mem_reverse.mp hu')) row
  cases hrow : row.any fun v => v.isSameTxn t with
  | true => exact if_pos (hk.1 hrow)
  | false =>
    rw [hk.2 hrow]
    exact if_neg (by simp [hrow])

namespace DbInv

variable {t : Nat}

theorem foldl_revertOne (h : DbInv db) (hab : db.txMgr.states t = some .aborting)
    (us : List (Undo κ δ)) (hus : ∀ u ∈ us, u ∈ undosOf db.log t) :
    DbInv (us.foldl (Db.revertOne t) db) := by
  induction us generalizing db with
  | nil => exact h
  | cons u us ih =>
    have hstep := h.revertOne hab (hus u (by simp))
    have hlog : (Db.revertOne t db u).log = db.log := by rw [revertOne_eq]; rfl
    have hst : (Db.revertOne t db u).txMgr.states = db.txMgr.states := by
      rw [revertOne_eq]
      rfl
    refine ih hstep (hst ▸ hab) fun u' hu' => ?_
    rw [hlog]
    exact hus u' (List.mem_cons_of_mem _ hu')

theorem revert (h : DbInv db) (hab : db.txMgr.states t = some .aborting) (steps : Option Nat) :
    DbInv (db.revert t steps) := by
  refine h.foldl_revertOne hab _ fun u hu => ?_
  rw [← h.undoOf t (Or.inr hab), ← List.mem_reverse]
  cases steps with
  | none => exact hu
  | some n => exact List.mem_of_mem_take hu

/-- What a revert that ran to its end leaves of a row: the row before the
transaction's first write if the row was still the transaction's. -/
theorem rows_revert_none (h : DbInv db) (hab : db.txMgr.states t = some .aborting) (key : κ) :
    (db.revert t none).rows key =
      match undosOn db.log t key with
      | [] => db.rows key
      | u :: _ =>
        if (db.rows key).any fun v => v.isSameTxn t then u.target else db.rows key := by
  have hrev : db.revert t none = (db.versions.undoOf t).reverse.foldl (Db.revertOne t) db := rfl
  rw [hrev, rows_revert, List.filter_reverse, h.undoOf t (Or.inr hab)]
  have hon : (undosOf db.log t).filter (fun u => decide (u.key = key)) =
      undosOn db.log t key := rfl
  rw [hon]
  cases hu : undosOn db.log t key with
  | nil => rfl
  | cons u rest => exact foldl_revertRow (h.undoShape t key u rest hu).2 _

/-- After a revert that ran to its end no row is the transaction's. -/
theorem row_ne_of_revert (h : DbInv db) (hab : db.txMgr.states t = some .aborting) {key : κ}
    {v : Tuple κ δ} (hv : (db.revert t none).rows key = some v) : v.txnId ≠ some t := by
  rw [h.rows_revert_none hab key] at hv
  intro hvt
  cases hu : undosOn db.log t key with
  | nil =>
    rw [hu] at hv
    obtain ⟨own, base, older, hk⟩ := h.key key
    obtain ⟨u, rest, hu', -⟩ := hk.undo t v (Or.inr hab) hv hvt
    rw [hu] at hu'
    cases hu'
  | cons u rest =>
    rw [hu] at hv
    dsimp only at hv
    split at hv
    · exact (h.undoShape t key u rest hu).1 v hv hvt
    · next hany =>
        rw [hv] at hany
        simp [hvt] at hany

theorem completeAbort (h : DbInv db) (hab : db.txMgr.states t = some .aborting)
    (hrow : ∀ key v, db.rows key = some v → v.txnId ≠ some t) (wrote : Bool) :
    DbInv (db.completeAbort t wrote) := by
  have hdb : DbInv (if wrote then db.logNew (.rollback t) else db) := by
    split
    · exact h.logNew rfl rfl
    · exact h
  have hab' : (if wrote then db.logNew (.rollback t) else db).txMgr.states t =
      some .aborting := by
    split
    · exact hab
    · exact hab
  have hrow' : ∀ key v, (if wrote then db.logNew (.rollback t) else db).rows key = some v →
      v.txnId ≠ some t := by
    split
    · exact hrow
    · exact hrow
  unfold Db.completeAbort
  dsimp only
  generalize (if wrote then db.logNew (.rollback t) else db) = db1 at hdb hab' hrow' ⊢
  obtain ⟨state, hstates, hclock, hstate⟩ : ∃ state,
      (db1.txMgr.abortComplete t wrote).1.states = Function.update db1.txMgr.states t state ∧
      (db1.txMgr.abortComplete t wrote).1.clock = db1.txMgr.clock ∧
      (state = none ∨ ∃ a, state = some (.aborted a)) := by
    unfold TransactionManager.abortComplete
    dsimp only
    split
    · exact ⟨_, rfl, rfl, Or.inr ⟨_, rfl⟩⟩
    · exact ⟨_, rfl, rfl, Or.inl rfl⟩
  have hend : DbInv { db1 with txMgr := (db1.txMgr.abortComplete t wrote).1 } := by
    have htxn := hdb.txn.abortComplete wrote (hab' ▸ trivial) (hdb.txn.abortingTs t hab')
    refine hdb.endState htxn (Nat.le_of_eq hclock.symm) hstates ?_ ?_ ?_ hrow'
    · rcases hstate with rfl | ⟨a, rfl⟩ <;> simp
    · rcases hstate with rfl | ⟨a, rfl⟩ <;> simp
    · rcases hstate with rfl | ⟨a, rfl⟩ <;> simp
  split
  · refine hend.discard ?_ ?_
    · intro hfl
      unfold InFlight at hfl
      dsimp only at hfl
      rw [hstates, Function.update_self] at hfl
      rcases hstate with rfl | ⟨a, rfl⟩ <;> simp at hfl
    · intro c hc
      rw [hdb.txn.abortingTs t hab'] at hc
      cases hc
  · exact hend

theorem finishAbort (h : DbInv db) (hab : db.txMgr.states t = some .aborting)
    (failsAfter : Option Nat) : DbInv (db.finishAbort t failsAfter) := by
  unfold Db.finishAbort
  split
  · exact h.revert hab failsAfter
  · refine (h.revert hab none).completeAbort ?_ (fun key v hv => h.row_ne_of_revert hab hv) _
    rw [show (db.revert t none).txMgr.states = db.txMgr.states from
      (revert_fields t _ db).2.2.2.1]
    exact hab

/-- Marking a transaction as aborting. -/
theorem markAborting (h : DbInv db) {m' : TransactionManager} (hm : db.txMgr.abort t = some m') :
    m'.states t = some .aborting ∧ DbInv { db with txMgr := m' } := by
  have htxn := h.txn.abort hm
  unfold TransactionManager.abort at hm
  split at hm
  · next p hp =>
      cases hm
      refine ⟨by simp, h.withMgr htxn (Nat.le_refl _) ?_ ?_ ?_ ?_⟩
      · intro id c q hs
        by_cases hid : id = t
        · subst hid
          simp at hs
        · simp only [TransactionManager.setActive_states, TransactionManager.setState_states,
            Function.update_of_ne hid] at hs
          exact h.noCommitting id c q hs
      · intro r q hs
        by_cases hr : r = t
        · subst hr
          simp at hs
        · simp only [TransactionManager.setActive_states, TransactionManager.setState_states,
            Function.update_of_ne hr] at hs
          exact Or.inl ⟨q, hs⟩
      · intro r hs
        by_cases hr : r = t
        · subst hr
          exact Or.inl (Or.inl ⟨p, hp⟩)
        · unfold InFlight at hs
          simp only [TransactionManager.setActive_states, TransactionManager.setState_states,
            Function.update_of_ne hr] at hs
          exact Or.inl hs
      · intro r key v hs _ _
        by_cases hr : r = t
        · subst hr
          exact Or.inr (by simp)
        · unfold InFlight at hs ⊢
          simp only [TransactionManager.setActive_states, TransactionManager.setState_states,
            Function.update_of_ne hr]
          exact hs
  · cases hm

theorem abort (h : DbInv db) (t : Nat) (failsAfter : Option Nat) :
    DbInv (db.abort t failsAfter) := by
  obtain ⟨db', heq, habort⟩ := db.abort_cases t failsAfter
  rw [heq]
  cases habort with
  | refused => exact h
  | forgotten hp hhas hend hclock hstates =>
    refine h.endState (h.txn.endReadOnly hend) (Nat.le_of_eq hclock.symm) hstates (by simp)
      (by simp) (by simp) ?_
    intro key v hv hvt
    have hwrote := (h.hasWrites t (Or.inl ⟨_, hp⟩)).mpr (h.wrote_of_row hv hvt)
    rw [hhas] at hwrote
    cases hwrote
  | reverted hp hhas hm =>
    obtain ⟨hab, hinv⟩ := h.markAborting hm
    exact hinv.finishAbort hab failsAfter

theorem retryAbort (h : DbInv db) (t : Nat) (failsAfter : Option Nat) :
    DbInv (db.retryAbort t failsAfter) := by
  unfold Db.retryAbort
  split
  · next hab => exact h.finishAbort hab failsAfter
  · exact h

end DbInv

end SquealDb.Store
