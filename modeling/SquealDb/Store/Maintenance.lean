import SquealDb.Store.Invariant

/-!
# Maintenance keeps the invariant

What the maintenance thread does between the transactions' operations: it
forgets transactions, discards their records, and purges tombstones.  The one
argument is `DbInv.discard`: the records of a transaction that is not in
flight may go if every active reader sees what that transaction committed, if
it committed anything.
-/

namespace SquealDb.Store

open Lib

variable {κ δ : Type*} [DecidableEq κ] {db : Db κ δ}

namespace DbInv

/-- The version store matters only through its records and its queues. -/
theorem congrVersions (h : DbInv db) {s : VersionStore κ δ}
    (hfind : s.find = db.versions.find) (hby : s.byTxn = db.versions.byTxn)
    (hcq : ∀ e ∈ s.committed, e ∈ db.versions.committed)
    (htq : ∀ t ∈ s.tombstones, t ∈ db.versions.tombstones) :
    DbInv { db with versions := s } := by
  have hwritten : ∀ t, s.writtenBy t = db.versions.writtenBy t := by
    intro t
    unfold VersionStore.writtenBy
    rw [hby]
  have hhas : ∀ t, s.hasWrites t = db.versions.hasWrites t := by
    intro t
    unfold VersionStore.hasWrites
    rw [hby]
  have hundo : ∀ t, s.undoOf t = db.versions.undoOf t := fun t =>
    VersionStore.undoOf_congr (hwritten t) fun l _ => congrFun hfind l
  have hstored : ∀ v, Stored { db with versions := s } v → Stored db v := by
    rintro v (hk | ⟨l, hl⟩)
    · exact Or.inl hk
    · exact Or.inr ⟨l, hfind ▸ hl⟩
  exact { h with
    key := fun k => hfind ▸ h.key k
    findLt := fun l v hl => h.findLt l v (hfind ▸ hl)
    preLt := fun v l hv hl => h.preLt v l (hstored v hv) hl
    writtenLt := fun t l hl => h.writtenLt t l (hwritten t ▸ hl)
    owner := fun v l t hv hp hl => h.owner v l t (hstored v hv) hp (hwritten t ▸ hl)
    ownerUnique := fun l t t' hl hl' =>
      h.ownerUnique l t t' (hwritten t ▸ hl) (hwritten t' ▸ hl')
    byTxnLt := fun t ht => h.byTxnLt t (hhas t ▸ ht)
    hasWrites := fun t ht => hhas t ▸ h.hasWrites t ht
    undoOf := fun t ht => (hundo t).trans (h.undoOf t ht)
    committedQueue := fun e he => h.committedQueue e (hcq e he)
    tombstones := fun t ht => h.tombstones t (htq t ht) }

/-- A record that is neither a write nor a commit changes nothing. -/
theorem logNew (h : DbInv db) {op : Operation κ δ} (hw : op.writer = none)
    (hc : op.commits = none) : DbInv (db.logNew op) := by
  have h1 := h.nextLsn
  have hts : commitTs (db.log ++ [⟨db.txMgr.clock, op⟩]) = commitTs db.log :=
    commitTs_append_other _ _ hc
  have hwr : Wrote (db.log ++ [⟨db.txMgr.clock, op⟩]) = Wrote db.log :=
    wrote_append_other _ _ hw
  have hwritten : LogRecord.written ⟨db.txMgr.clock, op⟩ = none := by
    unfold LogRecord.written
    cases op with
    | add => cases hw
    | mod => cases hw
    | del => cases hw
    | commit => rfl
    | rollback => rfl
    | purge => rfl
  have hundo : ∀ t, undosOf (db.log ++ [⟨db.txMgr.clock, op⟩]) t = undosOf db.log t :=
    fun t => undosOf_append_of_ne _ _ (by simp [hw])
  have hundoOn : ∀ t k, undosOn (db.log ++ [⟨db.txMgr.clock, op⟩]) t k =
      undosOn db.log t k :=
    fun t k => undosOn_append_of_ne _ _ (by simp [hw])
  have hlog : (db.logNew op).log = db.log ++ [⟨db.txMgr.clock, op⟩] := rfl
  obtain ⟨hlt, hord, hwf⟩ := h.log_append op fun v hv => by
    rw [hwritten] at hv
    cases hv
  refine { h1 with
    txn := ?_
    lsnLt := ?_
    lsnOrdered := ?_
    recordWf := ?_
    key := ?_
    hasWrites := ?_
    undoOf := ?_
    undoShape := ?_
    committedQueue := ?_
    tombstones := ?_
    purging := ?_ }
  · rw [hlog, hts, hwr]
    exact h1.txn
  · exact hlt
  · exact hord
  · exact hwf
  · intro k
    obtain ⟨own, base, older, hk⟩ := h1.key k
    have hk' : KeyInv db.nextLsn.1.txMgr db.log db.versions.find k (db.rows k) own
        (base ++ []) older := by rwa [List.append_nil]
    refine ⟨own, base, older, hk'.frame hts (versionsOf_append_other _ _ _ hwritten)
      (fun t => hundoOn t k) (fun _ => rfl) hk.chain hk.cut ?_
      (fun _ _ _ _ _ _ _ _ hs => hs) (fun _ q hq => Or.inl ⟨q, hq⟩)
      (fun _ ht => Or.inl ht) ?_⟩
    · exact fun t u p ht hu hp => h1.stored_of_undo ht hu hp
    · intro v hv t ht
      obtain ⟨t', ht', hfl, -⟩ := hk.holder v hv
      rw [ht] at ht'
      cases ht'
      exact hfl
  · intro t ht
    rw [hlog, hwr]
    exact h1.hasWrites t ht
  · intro t ht
    rw [hlog, hundo]
    exact h1.undoOf t ht
  · intro t k u rest hu
    rw [hlog, hundoOn] at hu
    exact h.undoShape t k u rest hu
  · intro e he
    rw [hlog, hts]
    exact h.committedQueue e he
  · intro t ht
    rw [hlog, hts]
    exact h.tombstones t ht
  · intro t ht
    rw [hlog, hts]
    exact h1.purging t ht

/-- The records of a transaction that is not in flight may go if every active
reader sees what it committed. -/
theorem discard (h : DbInv db) {w : Nat} (hfl : ¬ InFlight db.txMgr w)
    (hseen : ∀ c, commitTs db.log w = some c →
      ∀ r p, db.txMgr.states r = some (.active p) → c < r) :
    DbInv { db with versions := (db.versions.discard w).1 } := by
  have hfindEq : ∀ l, .replaced l ∉ db.versions.writtenBy w →
      (db.versions.discard w).1.find l = db.versions.find l := by
    intro l hl
    rw [VersionStore.find_discard, if_neg]
    rwa [VersionStore.mem_replacedLsns]
  have hfindNone : ∀ l, .replaced l ∈ db.versions.writtenBy w →
      (db.versions.discard w).1.find l = none := by
    intro l hl
    rw [VersionStore.find_discard, if_pos]
    rwa [VersionStore.mem_replacedLsns]
  have hfindSub : ∀ l v, (db.versions.discard w).1.find l = some v →
      db.versions.find l = some v := by
    intro l v hl
    by_cases hm : .replaced l ∈ db.versions.writtenBy w
    · rw [hfindNone l hm] at hl
      cases hl
    · rwa [hfindEq l hm] at hl
  have hby : ∀ t, t ≠ w → (db.versions.discard w).1.byTxn t = db.versions.byTxn t := by
    intro t ht
    rw [VersionStore.byTxn_discard, Function.update_of_ne ht]
  have hbyW : (db.versions.discard w).1.byTxn w = none := by
    rw [VersionStore.byTxn_discard, Function.update_self]
  have hwritten : ∀ t l, .replaced l ∈ (db.versions.discard w).1.writtenBy t →
      .replaced l ∈ db.versions.writtenBy t := by
    intro t l hl
    unfold VersionStore.writtenBy at hl ⊢
    by_cases ht : t = w
    · subst ht
      simp [hbyW] at hl
    · rwa [hby t ht] at hl
  have hstored : ∀ v, Stored { db with versions := (db.versions.discard w).1 } v →
      Stored db v := by
    rintro v (hk | ⟨l, hl⟩)
    · exact Or.inl hk
    · exact Or.inr ⟨l, hfindSub l v hl⟩
  have hneFl : ∀ t, InFlight db.txMgr t → t ≠ w := by
    rintro t ht rfl
    exact hfl ht
  refine { h with
    key := ?_
    findLt := fun l v hl => h.findLt l v (hfindSub l v hl)
    preLt := fun v l hv hl => h.preLt v l (hstored v hv) hl
    writtenLt := fun t l hl => h.writtenLt t l (hwritten t l hl)
    owner := fun v l t hv hp hl => h.owner v l t (hstored v hv) hp (hwritten t l hl)
    ownerUnique := fun l t t' hl hl' =>
      h.ownerUnique l t t' (hwritten t l hl) (hwritten t' l hl')
    byTxnLt := ?_
    hasWrites := ?_
    undoOf := ?_
    committedQueue := fun e he => h.committedQueue e (by simpa using he)
    tombstones := fun t ht => h.tombstones t (by simpa using ht) }
  · intro k
    obtain ⟨own, base, older, hk⟩ := h.key k
    have hstoredMem : ∀ v ∈ own ++ base, Stored db v := by
      intro v hv
      rcases hk.full_chain.mem_stored hv with hrow | hl
      · exact Or.inl ⟨k, hrow⟩
      · exact Or.inr hl
    obtain ⟨kept, gone, rfl, hchain, hgone⟩ := hk.chain.discard
      (db.versions.discard w).1.find fun v hv l hl => by
        by_cases hm : .replaced l ∈ db.versions.writtenBy w
        · refine Or.inr ⟨hfindNone l hm, ?_⟩
          have hvw := h.owner v l w (hstoredMem v (List.mem_append_right _ hv)) hl hm
          obtain ⟨c, hc⟩ := (committedBy_iff hvw).mp
            (hk.committed_of_mem (List.mem_append_left _ hv)).2
          exact ⟨w, c, hvw, hc, hseen c hc⟩
        · exact Or.inl (hfindEq l hm)
    have hnil : kept = [] → gone = [] := by
      rintro rfl
      rcases hgone with hgone | ⟨v, hv, -⟩
      · exact hgone
      · cases hv
    have hhead : (kept ++ gone).head? = kept.head? := by
      cases kept with
      | nil => simp [hnil rfl]
      | cons b bs => rfl
    refine ⟨own, kept, gone ++ older, hk.frame rfl rfl (fun _ => rfl) hnil (hhead ▸ hchain)
      ?_ (fun t u p ht hu hp => h.stored_of_undo ht hu hp) ?_
      (fun _ q hq => Or.inl ⟨q, hq⟩) (fun _ ht => Or.inl ht) ?_⟩
    · rcases hgone with rfl | ⟨v, hv, hs⟩
      · have hcut := hk.cut
        rwa [List.append_nil] at hcut
      · exact Or.inr (Or.inl ⟨v, hv, hs⟩)
    · intro t v l p ht hvt hst hl hp
      rw [hfindEq l]
      · exact hp
      · intro hm
        have hvw := h.owner v l w (hst.imp_left fun hr => ⟨k, hr⟩) hl hm
        rw [hvt] at hvw
        exact hneFl t ht (Option.some.inj hvw)
    · intro v hv t ht
      obtain ⟨t', ht', hf, -⟩ := hk.holder v hv
      rw [ht] at ht'
      cases ht'
      exact hf
  · intro t ht
    by_cases htw : t = w
    · subst htw
      simp [VersionStore.hasWrites, hbyW] at ht
    · refine h.byTxnLt t ?_
      unfold VersionStore.hasWrites at ht ⊢
      rwa [hby t htw] at ht
  · intro t ht
    unfold VersionStore.hasWrites
    rw [hby t (hneFl t ht)]
    exact h.hasWrites t ht
  · intro t ht
    refine (VersionStore.undoOf_congr ?_ fun l hl => hfindEq l fun hm =>
      hneFl t ht (h.ownerUnique l t w hl hm)).trans (h.undoOf t ht)
    unfold VersionStore.writtenBy
    rw [hby t (hneFl t ht)]

/-! ## Pruning and vacuum -/

theorem pruneStates (h : DbInv db) :
    DbInv { db with txMgr := db.txMgr.pruneCommitted.1 } := by
  have hsome : ∀ id s, db.txMgr.pruneCommitted.1.states id = some s →
      db.txMgr.states id = some s := by
    intro id s hs
    simp only [TransactionManager.pruneCommitted, Option.filter_eq_some_iff] at hs
    exact hs.1
  refine h.withMgr h.txn.pruneCommitted (Nat.le_refl _) ?_ ?_ ?_ ?_
  · exact fun id c p hs => h.noCommitting id c p (hsome id _ hs)
  · exact fun t p hs => Or.inl ⟨p, hsome t _ hs⟩
  · rintro t (⟨p, hs⟩ | hs)
    · exact Or.inl (Or.inl ⟨p, hsome t _ hs⟩)
    · exact Or.inl (Or.inr (hsome t _ hs))
  · rintro t key v (⟨p, hs⟩ | hs) - -
    · refine Or.inl ⟨p, ?_⟩
      simp [TransactionManager.pruneCommitted, hs, TransactionManager.keptByPrune]
    · refine Or.inr ?_
      simp [TransactionManager.pruneCommitted, hs, TransactionManager.keptByPrune]

theorem discardAll (h : DbInv db) (ids : List Nat)
    (hids : ∀ w ∈ ids, ¬ InFlight db.txMgr w ∧ commitTs db.log w = none) :
    DbInv { db with
      versions := ids.foldl (fun s w => (s.discard w).1) db.versions } := by
  induction ids generalizing db with
  | nil => exact h
  | cons w ids ih =>
    obtain ⟨hfl, hnone⟩ := hids w (by simp)
    refine ih (h.discard hfl (by simp [hnone])) fun w' hw' => ?_
    exact hids w' (List.mem_cons_of_mem _ hw')

theorem pruneCommitted (h : DbInv db) : DbInv db.pruneCommitted := by
  refine h.pruneStates.discardAll db.txMgr.pruneCommitted.2 fun w hw => ?_
  simp only [TransactionManager.pruneCommitted, List.mem_filter, List.mem_range] at hw
  obtain ⟨-, hw⟩ := hw
  split at hw
  · next a hst =>
      have hkept : TransactionManager.keptByPrune db.txMgr.oldestActive (.aborted a) = false := by
        simpa using hw
      have hnone : db.txMgr.pruneCommitted.1.states w = none := by
        simp [TransactionManager.pruneCommitted, hst, hkept]
      refine ⟨fun hfl => ?_, h.txn.abortedTs w a hst⟩
      rcases hfl with ⟨p, hp⟩ | hp
      · rw [hnone] at hp
        cases hp
      · rw [hnone] at hp
        cases hp
  · cases hw

theorem forgetAll (h : DbInv db) (es : List (Nat × Nat × Nat))
    (hes : ∀ e ∈ es, commitTs db.log e.2.1 = some e.1 ∧ e.1 < db.txMgr.horizon) :
    DbInv { db with versions := (db.versions.forgetAll es).1 } := by
  induction es generalizing db with
  | nil => exact h
  | cons e es ih =>
    obtain ⟨hts, hlt⟩ := hes e (by simp)
    have hfl : ¬ InFlight db.txMgr e.2.1 := by
      intro hfl
      rw [commitTs_of_inFlight h.txn hfl] at hts
      cases hts
    have hd := h.discard hfl fun c hc r p hp => by
      rw [hts] at hc
      cases hc
      exact Nat.lt_of_lt_of_le hlt (h.txn.horizon_le hp)
    have hforget : DbInv { db with versions := db.versions.forget e } :=
      hd.congrVersions rfl rfl (fun _ he => he) (fun _ ht => ht)
    exact ih hforget fun e' he' => hes e' (List.mem_cons_of_mem _ he')

theorem vacuum (h : DbInv db) : DbInv db.vacuum := by
  have hq : DbInv { db with versions := { db.versions with
      committed := db.versions.committed.filter fun e =>
        !VersionStore.reclaimable (some db.txMgr.horizon) e.1
      tombstones := db.versions.tombstones.filter fun t =>
        !VersionStore.reclaimable (some db.txMgr.horizon) t.commitTs } } :=
    h.congrVersions rfl rfl (fun e he => List.mem_of_mem_filter he)
      (fun t ht => List.mem_of_mem_filter ht)
  have hf := hq.forgetAll (db.versions.committed.filter fun e =>
      VersionStore.reclaimable (some db.txMgr.horizon) e.1) (by
    intro e he
    rw [List.mem_filter] at he
    exact ⟨h.committedQueue e he.1, by simpa [VersionStore.reclaimable] using he.2⟩)
  refine { hf with purging := ?_ }
  intro t ht
  rcases List.mem_append.mp ht with ht | ht
  · exact h.purging t ht
  · have ht' : t ∈ db.versions.tombstones.filter fun t =>
        VersionStore.reclaimable (some db.txMgr.horizon) t.commitTs := ht
    rw [List.mem_filter] at ht'
    refine ⟨h.tombstones t ht'.1, fun r p hp => ?_⟩
    have hlt : t.commitTs < db.txMgr.horizon := by
      simpa [VersionStore.reclaimable] using ht'.2
    exact Nat.lt_of_lt_of_le hlt (h.txn.horizon_le hp)

/-! ## Purging -/

/-- A row may be replaced by what its key's invariant holds for. -/
theorem setRow (h : DbInv db) {key : κ} {row : Option (Tuple κ δ)}
    (hstored : ∀ v, row = some v → Stored db v)
    (hkey : ∃ own base older,
      KeyInv db.txMgr db.log db.versions.find key row own base older) :
    DbInv { db with rows := Function.update db.rows key row } := by
  have hst : ∀ v, Stored { db with rows := Function.update db.rows key row } v →
      Stored db v := by
    rintro v (⟨k, hk⟩ | hl)
    · by_cases hkk : k = key
      · subst hkk
        simp only [Function.update_self] at hk
        exact hstored v hk
      · simp only [Function.update_of_ne hkk] at hk
        exact Or.inl ⟨k, hk⟩
    · exact Or.inr hl
  refine { h with
    key := ?_
    preLt := fun v l hv hl => h.preLt v l (hst v hv) hl
    owner := fun v l t hv hp hl => h.owner v l t (hst v hv) hp hl }
  intro k
  by_cases hkk : k = key
  · subst hkk
    simp only [Function.update_self]
    exact hkey
  · simp only [Function.update_of_ne hkk]
    exact h.key k

end DbInv

/-- A tombstone that every active reader sees may go. -/
theorem KeyInv.purge {key : κ} {c : Tuple κ δ} {own base older : List (Tuple κ δ)}
    (hk : KeyInv db.txMgr db.log db.versions.find key (some c) own base older)
    (h : DbInv db) (htomb : c.tombstoned = true) (hseen : SeenByAll db.txMgr (commitTs db.log) c) :
    KeyInv db.txMgr db.log db.versions.find key none [] [] (base ++ older) := by
  obtain ⟨w, cts, hw, hts, -⟩ := id hseen
  obtain rfl : own = [] :=
    hk.own_eq_nil h.txn rfl ((committedBy_iff hw).mpr ⟨cts, hts⟩)
  have hhead : base.head? = some c := hk.row_eq_head.symm
  refine ⟨Path.nil _, Chain.nil, by simp, hk.history, ?_, ?_, by simp, by simp, ?_, ?_⟩
  · have hord := hk.ordered
    simpa using hord
  · refine Or.inr (Or.inr ⟨c, ?_, hseen, htomb⟩)
    cases base with
    | nil => cases hhead
    | cons b bs => exact hhead
  · intro t p hp hwk
    exact absurd rfl (hk.active t p hp hwk).1
  · intro t v _ hv
    cases hv

namespace DbInv

theorem purge (h : DbInv db) : DbInv db.purge := by
  unfold Db.purge
  cases hp : db.purging with
  | nil => exact h
  | cons t rest =>
    have hrest : DbInv { db with purging := rest } :=
      { h with purging := fun t' ht' => h.purging t' (hp ▸ List.mem_cons_of_mem _ ht') }
    obtain ⟨hts, hall⟩ := h.purging t (by simp [hp])
    have hlog : DbInv ({ db with purging := rest }.nextLsn.1.logNew (.purge t.txn t.key)) :=
      hrest.nextLsn.logNew rfl rfl
    obtain ⟨own, base, older, hk⟩ := hlog.key t.key
    have hrows : ({ db with purging := rest }.nextLsn.1.logNew
      (.purge t.txn t.key)).rows t.key = db.rows t.key := rfl
    rw [hrows] at hk
    dsimp only
    split
    · next hpur =>
        have hpurges : db.purges t = true := hpur
        unfold Db.purges at hpurges
        cases hrow : db.rows t.key with
        | none =>
          -- no row behind the key: the record is logged, nothing is removed
          rw [hrow] at hk
          exact hlog.setRow (by simp) ⟨own, base, older, hk⟩
        | some c =>
          rw [hrow] at hk hpurges
          simp only [Bool.and_eq_true, Tuple.isSameTxn_iff] at hpurges
          refine hlog.setRow (by simp) ⟨[], [], base ++ older, hk.purge hlog hpurges.1 ?_⟩
          refine ⟨t.txn, t.commitTs, hpurges.2, ?_, hall⟩
          rw [← hts]
          exact congrFun (commitTs_append_other _ _ rfl) t.txn
    · exact hrest.nextLsn

end DbInv

end SquealDb.Store
