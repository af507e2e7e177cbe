import Mathlib.Algebra.GroupWithZero.Nat
import SquealDb.Store.AbortUndo

/-!
# Reclaiming what the past leaves behind

A committed delete leaves a tombstone on its row, which a maintenance pass purges once
every active reader sees the delete.  The tombstone is queued once, by the commit, and a
purge that finds something else on the row drops it from the queue: if what it found was
the version of a transaction that revived the key and rolls back later, the tombstone is
back on the row and nobody is left to purge it.
-/

namespace SquealDb.Store

open Lib

variable {κ δ : Type*}

/-! ## What the version store keeps -/

namespace VersionStore

/-- The counter of the pre-images kept for readers is that of the committed queue. -/
def Counted (s : VersionStore κ δ) : Prop := s.retained = (s.committed.map (·.2.2)).sum

/-- Every pre-image is kept by some transaction's write log. -/
def Owned (s : VersionStore κ δ) : Prop :=
  ∀ l p, s.preImages l = some p → ∃ t, .replaced l ∈ s.writtenBy t

variable {s : VersionStore κ δ}

theorem hasWrites_iff {t : Nat} : s.hasWrites t = true ↔ ∃ written, s.byTxn t = some written := by
  rw [hasWrites, Option.isSome_iff_exists]

theorem hasWrites_discard (t id : Nat) :
    (s.discard t).1.hasWrites id = true ↔ id ≠ t ∧ s.hasWrites id = true := by
  rw [hasWrites, byTxn_discard, hasWrites]
  by_cases hid : id = t
  · subst hid
    simp
  · simp [hid]

theorem writtenBy_discard {t id : Nat} (hid : id ≠ t) :
    (s.discard t).1.writtenBy id = s.writtenBy id := by
  rw [writtenBy, byTxn_discard, Function.update_of_ne hid, writtenBy]

theorem preImages_discard (t l : Nat) :
    (s.discard t).1.preImages l =
      if l ∈ replacedLsns (s.writtenBy t) then none else s.preImages l := by
  unfold discard writtenBy
  cases h : s.byTxn t with
  | none => simp [replacedLsns]
  | some written => rfl

theorem Owned.discard (h : Owned s) (t : Nat) : Owned (s.discard t).1 := by
  intro l p hl
  rw [preImages_discard] at hl
  split at hl
  · cases hl
  · next hnot =>
      obtain ⟨id, hid⟩ := h l p hl
      have hne : id ≠ t := by
        rintro rfl
        exact hnot ((mem_replacedLsns l).mpr hid)
      exact ⟨id, (writtenBy_discard hne).symm ▸ hid⟩

theorem retained_discard (t : Nat) : (s.discard t).1.retained = s.retained := by
  unfold VersionStore.discard
  cases h : s.byTxn t with
  | none => rfl
  | some written => rfl

/-- No two transactions keep the same pre-image. -/
def Apart (s : VersionStore κ δ) : Prop :=
  ∀ l t t', .replaced l ∈ s.writtenBy t → .replaced l ∈ s.writtenBy t' → t = t'

/-- Another transaction's pre-images are left alone. -/
theorem Apart.preImages_discard (h : Apart s) {t t' l : Nat} (hne : t' ≠ t)
    (hl : .replaced l ∈ s.writtenBy t') : (s.discard t).1.preImages l = s.preImages l := by
  rw [VersionStore.preImages_discard, if_neg]
  intro hmem
  exact hne (h l t' t hl ((mem_replacedLsns l).mp hmem))

theorem writtenBy_discard_subset {t t' l : Nat}
    (hl : .replaced l ∈ (s.discard t).1.writtenBy t') : .replaced l ∈ s.writtenBy t' := by
  by_cases hne : t' = t
  · subst hne
    simp [writtenBy, byTxn_discard] at hl
  · rw [writtenBy_discard hne] at hl
    exact hl

/-- The records of some transactions forgotten, one after the other. -/
structure Forgot (s s' : VersionStore κ δ) (ids : List Nat) : Prop where
  retained : s'.retained = s.retained
  committed : s'.committed = s.committed
  tombstones : s'.tombstones = s.tombstones
  owned : Owned s → Owned s'
  hasWrites : ∀ t, s'.hasWrites t = true ↔ t ∉ ids ∧ s.hasWrites t = true
  kept : ∀ t l, t ∉ ids → .replaced l ∈ s.writtenBy t →
    s'.preImages l = s.preImages l ∧ .replaced l ∈ s'.writtenBy t

theorem forgot_discardAll (h : Apart s) (ids : List Nat) :
    Forgot s (ids.foldl (fun s t => (s.discard t).1) s) ids := by
  induction ids generalizing s with
  | nil => exact ⟨rfl, rfl, rfl, fun ho => ho, fun t => by simp, fun t l _ hl => ⟨rfl, hl⟩⟩
  | cons id ids ih =>
    have hapart : Apart (s.discard id).1 := fun l t t' hl hl' =>
      h l t t' (writtenBy_discard_subset hl) (writtenBy_discard_subset hl')
    have hrest := ih hapart
    constructor
    · exact hrest.retained.trans (retained_discard id)
    · exact hrest.committed.trans (committed_discard s id)
    · exact hrest.tombstones.trans (tombstones_discard s id)
    · exact fun ho => hrest.owned (ho.discard id)
    · intro t
      rw [List.foldl_cons, hrest.hasWrites t, hasWrites_discard]
      simp only [List.mem_cons, not_or]
      tauto
    · intro t l ht hl
      simp only [List.mem_cons, not_or] at ht
      have hl' : .replaced l ∈ (s.discard id).1.writtenBy t := by
        rw [writtenBy_discard ht.1]
        exact hl
      obtain ⟨hpre, hmem⟩ := hrest.kept t l ht.2 hl'
      exact ⟨hpre.trans (h.preImages_discard ht.1 hl), hmem⟩

/-! ### Vacuum -/

theorem discardAll_retained (ids : List Nat) (s : VersionStore κ δ) (n : Nat) :
    ids.foldl (fun s t => (s.discard t).1) { s with retained := n } =
      { ids.foldl (fun s t => (s.discard t).1) s with retained := n } := by
  induction ids generalizing s with
  | nil => rfl
  | cons id ids ih =>
    have hone : ({ s with retained := n }.discard id).1 =
      { (s.discard id).1 with retained := n } := by
      unfold discard
      dsimp only
      split <;> rfl
    rw [List.foldl_cons, List.foldl_cons, hone, ih]

/-- Forgetting committed transactions is discarding them and counting them off. -/
theorem forgetAll_eq (es : List (Nat × Nat × Nat)) (s : VersionStore κ δ) :
    (s.forgetAll es).1 =
      { (es.map (·.2.1)).foldl (fun s t => (s.discard t).1) s with
        retained := s.retained - (es.map (·.2.2)).sum } := by
  induction es generalizing s with
  | nil => rfl
  | cons e es ih =>
    have hforget : s.forget e =
        { (s.discard e.2.1).1 with retained := s.retained - e.2.2 } := by
      unfold forget
      dsimp only
      rw [retained_discard]
    show ((s.forget e).forgetAll es).1 = _
    rw [ih, hforget, discardAll_retained, List.map_cons, List.map_cons, List.sum_cons,
      List.foldl_cons, ← Nat.sub_sub]

private theorem sum_filter_split (es : List (Nat × Nat × Nat)) (p : Nat × Nat × Nat → Bool) :
    (es.map (·.2.2)).sum =
      ((es.filter p).map (·.2.2)).sum + ((es.filter fun e => !p e).map (·.2.2)).sum := by
  induction es with
  | nil => rfl
  | cons e es ih =>
    cases hp : p e with
    | true =>
      simp only [List.map_cons, List.sum_cons, List.filter_cons, hp, Bool.not_true,
        if_true, Bool.false_eq_true, if_false]
      omega
    | false =>
      simp only [List.map_cons, List.sum_cons, List.filter_cons, hp, Bool.not_false,
        if_true, Bool.false_eq_true, if_false]
      omega

/-- The transactions a vacuum pass forgets. -/
def forgottenBy (s : VersionStore κ δ) (horizon : Option Nat) : List Nat :=
  (s.committed.filter fun e => reclaimable horizon e.1).map (·.2.1)

/-- What a vacuum pass leaves: it forgets the reclaimable transactions and hands out the
reclaimable tombstones. -/
theorem vacuum_spec (hcount : Counted s) (hapart : Apart s) (horizon : Option Nat) :
    Counted (s.vacuum horizon).1 ∧
      (s.vacuum horizon).1.committed = s.committed.filter (fun e => !reclaimable horizon e.1) ∧
      (s.vacuum horizon).1.tombstones =
        s.tombstones.filter (fun t => !reclaimable horizon t.commitTs) ∧
      (Owned s → Owned (s.vacuum horizon).1) ∧
      (∀ t, (s.vacuum horizon).1.hasWrites t = true ↔
        t ∉ s.forgottenBy horizon ∧ s.hasWrites t = true) ∧
      ∀ t l, t ∉ s.forgottenBy horizon → .replaced l ∈ s.writtenBy t →
        (s.vacuum horizon).1.preImages l = s.preImages l ∧
          .replaced l ∈ (s.vacuum horizon).1.writtenBy t := by
  have heq : (s.vacuum horizon).1 = _ :=
    forgetAll_eq (s.committed.filter fun e => reclaimable horizon e.1)
      { s with
        committed := s.committed.filter fun e => !reclaimable horizon e.1
        tombstones := s.tombstones.filter fun t => !reclaimable horizon t.commitTs }
  have hforgot := forgot_discardAll (s := { s with
      committed := s.committed.filter fun e => !reclaimable horizon e.1
      tombstones := s.tombstones.filter fun t => !reclaimable horizon t.commitTs })
    hapart (s.forgottenBy horizon)
  rw [heq]
  refine ⟨?_, hforgot.committed, hforgot.tombstones, hforgot.owned, hforgot.hasWrites,
    hforgot.kept⟩
  have hsplit := sum_filter_split s.committed fun e => reclaimable horizon e.1
  have hcount' : s.retained = (s.committed.map (·.2.2)).sum := hcount
  have hkept := hforgot.committed
  unfold Counted
  dsimp only [forgottenBy] at hkept ⊢
  rw [hkept]
  omega

/-! ### Committing -/

variable {txn : Nat} {written : List (Written κ)}

theorem markCommitted_of_some (h : s.byTxn txn = some written) (commitTs : Nat) :
    s.markCommitted txn commitTs =
      { s with
        byTxn := Function.update s.byTxn txn (if replacedLsns written = [] then none
          else some (written.filter fun w => w.lsn?.isSome))
        retained := s.retained + (replacedLsns written).length
        committed := if replacedLsns written = [] then s.committed
          else s.committed ++ [(commitTs, txn, (replacedLsns written).length)]
        tombstones := s.tombstones ++ s.tombstonesOf txn commitTs (replacedLsns written) } := by
  unfold markCommitted
  rw [h]

theorem Counted.markCommitted (h : Counted s) (hw : s.byTxn txn = some written) (commitTs : Nat) :
    Counted (s.markCommitted txn commitTs) := by
  rw [markCommitted_of_some hw]
  show s.retained + _ = ((if _ then _ else _ : List (Nat × Nat × Nat)).map (·.2.2)).sum
  have hcount : s.retained = (s.committed.map (·.2.2)).sum := h
  split
  · next hnil => rw [hnil, hcount]; rfl
  · rw [List.map_append, List.sum_append, hcount]
    rfl

/-- A commit keeps the entries that have a pre-image. -/
theorem replaced_mem_markCommitted_iff {l : Nat} (hw : s.byTxn txn = some written)
    (commitTs id : Nat) :
    .replaced l ∈ (s.markCommitted txn commitTs).writtenBy id ↔ .replaced l ∈ s.writtenBy id := by
  constructor
  · exact replaced_mem_markCommitted s txn l commitTs
  · intro hmem
    by_cases hid : id = txn
    · subst hid
      have hwritten : .replaced l ∈ written := by
        rw [writtenBy, hw] at hmem
        exact hmem
      have hne : replacedLsns written ≠ [] :=
        List.ne_nil_of_mem ((mem_replacedLsns l).mpr hwritten)
      rw [markCommitted_of_some hw, writtenBy]
      simp only [Function.update_self, if_neg hne, Option.getD_some, List.mem_filter]
      exact ⟨hwritten, rfl⟩
    · rw [writtenBy, byTxn_markCommitted_of_ne s txn commitTs hid]
      exact hmem

theorem Owned.markCommitted (h : Owned s) (hw : s.byTxn txn = some written) (commitTs : Nat) :
    Owned (s.markCommitted txn commitTs) := by
  intro l p hl
  have hpre : (s.markCommitted txn commitTs).preImages = s.preImages := by
    rw [markCommitted_of_some hw]
  rw [hpre] at hl
  obtain ⟨id, hid⟩ := h l p hl
  exact ⟨id, (replaced_mem_markCommitted_iff hw commitTs id).mpr hid⟩

/-- The commit of a delete queues its tombstone. -/
theorem tombstone_of_markCommitted {l : Nat} {p : PreImage κ δ}
    (hl : .replaced l ∈ s.writtenBy txn) (hp : s.preImages l = some p) (hdel : p.deleted = true)
    (commitTs : Nat) :
    ⟨commitTs, p.tuple.id, txn⟩ ∈ (s.markCommitted txn commitTs).tombstones := by
  obtain ⟨written, hw⟩ : ∃ written, s.byTxn txn = some written := by
    cases hby : s.byTxn txn with
    | none => simp [writtenBy, hby] at hl
    | some written => exact ⟨written, rfl⟩
  rw [markCommitted_of_some hw]
  apply List.mem_append_right
  apply List.mem_filterMap.mpr
  refine ⟨l, (mem_replacedLsns l).mpr ?_, ?_⟩
  · rw [writtenBy, hw] at hl
    exact hl
  · simp only [hp, hdel, if_true]

/-! ### Writing -/

theorem Owned.push (h : Owned s) (txn : Nat) (w : Written κ) : Owned (s.push txn w) := by
  intro l p hl
  obtain ⟨id, hid⟩ := h l p hl
  refine ⟨id, ?_⟩
  by_cases hne : id = txn
  · subst hne
    rw [writtenBy_push_self]
    exact List.mem_append_left _ hid
  · rw [writtenBy_push_of_ne _ _ _ hne]
    exact hid

theorem hasWrites_push (txn id : Nat) (w : Written κ) :
    (s.push txn w).hasWrites id = true ↔ id = txn ∨ s.hasWrites id = true := by
  rw [hasWrites, push, hasWrites]
  by_cases hid : id = txn
  · subst hid
    simp
  · simp [hid]

/-- A pre-image that is kept with its entry in the write log. -/
theorem Owned.replace (h : Owned s) (txn lsn : Nat) (t : Tuple κ δ) (deleted : Bool) :
    Owned ((s.keepPreImage lsn t deleted).push txn (.replaced lsn)) := by
  intro l p hl
  by_cases hne : l = lsn
  · subst hne
    refine ⟨txn, ?_⟩
    rw [writtenBy_push_self]
    exact List.mem_append_right _ (List.mem_singleton.mpr rfl)
  · have hold : s.preImages l = some p := by
      have hself : ((s.keepPreImage lsn t deleted).push txn (.replaced lsn)).preImages l =
          s.preImages l := Function.update_of_ne hne _ _
      rw [← hself]
      exact hl
    obtain ⟨id, hid⟩ := h l p hold
    refine ⟨id, ?_⟩
    by_cases hid' : id = txn
    · subst hid'
      rw [writtenBy_push_self]
      exact List.mem_append_left _ hid
    · rw [writtenBy_push_of_ne _ _ _ hid']
      exact hid

end VersionStore

/-! ## What waits to be purged -/

/-- The tombstones that a purge is still due for. -/
def Db.queued (db : Db κ δ) : List (Tombstone κ) := db.versions.tombstones ++ db.purging

/-- Every tombstone of another transaction that the rollback of `txn` restores is still
queued. -/
def Db.RestoresQueued (db : Db κ δ) (txn : Nat) : Prop :=
  ∀ pre, .restore pre ∈ db.versions.undoOf txn → pre.tombstoned = true →
    pre.txnId ≠ some txn → ∃ e ∈ db.queued, e.key = pre.id ∧ pre.txnId = some e.txn

/-- No step fails half way, and a step that rolls a transaction back restores only
tombstones that are still queued: an abort, or a write that meets a conflict which takes
its transaction down. -/
def Db.KeepsQueued (db : Db κ δ) : Action κ δ → Prop
  | .insert txn tuple =>
    Db.TakesDown db txn tuple.id → (db.rows tuple.id).any (·.tombstoned) = true →
      db.RestoresQueued txn
  | .update txn tuple => Db.TakesDown db txn tuple.id → db.RestoresQueued txn
  | .remove txn key => Db.TakesDown db txn key → db.RestoresQueued txn
  | .abort txn failsAfter =>
    failsAfter = none ∧ (db.txMgr.isTransactionActive txn = true → db.RestoresQueued txn)
  | .retryAbort txn failsAfter =>
    failsAfter = none ∧ (db.txMgr.states txn = some .aborting → db.RestoresQueued txn)
  | _ => True

/-- What is kept is kept for a transaction that will be forgotten, and a tombstone on a
row is queued, or will be by its transaction's commit. -/
structure Reclaims (db : Db κ δ) : Prop where
  counted : db.versions.Counted
  owned : db.versions.Owned
  writers : ∀ t, db.versions.hasWrites t = true → InFlight db.txMgr t ∨
    (∃ e ∈ db.versions.committed, e.2.1 = t) ∨ ∃ a, db.txMgr.states t = some (.aborted a)
  tombstone : ∀ key v w c, db.rows key = some v → v.tombstoned = true → v.txnId = some w →
    commitTs db.log w = some c → ∃ e ∈ db.queued, e.key = key ∧ e.txn = w
  deleting : ∀ key v t, db.rows key = some v → v.tombstoned = true → v.txnId = some t →
    InFlight db.txMgr t → ∃ l p, .replaced l ∈ db.versions.writtenBy t ∧
      db.versions.preImages l = some p ∧ p.deleted = true ∧ p.tuple.id = key

namespace Reclaims

variable {db : Db κ δ}

theorem new : Reclaims (Db.new : Db κ δ) where
  counted := rfl
  owned _ _ hl := nomatch hl
  writers _ ht := nomatch ht
  tombstone _ _ _ _ hv := nomatch hv
  deleting _ _ _ hv := nomatch hv

variable {m : TransactionManager} {t txn : Nat}

/-- A step of the transaction table that leaves each writer in flight or aborted. -/
theorem withMgr (h : Reclaims db)
    (hfl : ∀ t, db.versions.hasWrites t = true → InFlight db.txMgr t →
      InFlight m t ∨ ∃ a, m.states t = some (.aborted a))
    (hab : ∀ t a, db.versions.hasWrites t = true → db.txMgr.states t = some (.aborted a) →
      ∃ b, m.states t = some (.aborted b))
    (hnew : ∀ key v t, db.rows key = some v → v.txnId = some t → InFlight m t →
      InFlight db.txMgr t) :
    Reclaims { db with txMgr := m } where
  counted := h.counted
  owned := h.owned
  writers t ht := by
    rcases h.writers t ht with hin | hcom | ⟨a, ha⟩
    · rcases hfl t ht hin with hin' | hab'
      · exact Or.inl hin'
      · exact Or.inr (Or.inr hab')
    · exact Or.inr (Or.inl hcom)
    · exact Or.inr (Or.inr (hab t a ht ha))
  tombstone := h.tombstone
  deleting key v t hv htomb hvt hin := h.deleting key v t hv htomb hvt (hnew key v t hv hvt hin)

theorem nextLsn (h : Reclaims db) : Reclaims db.nextLsn.1 :=
  h.withMgr (fun _ _ hin => Or.inl hin) (fun _ a _ ha => ⟨a, ha⟩) fun _ _ _ _ _ hin => hin

/-- A transaction that wrote nothing ends. -/
theorem endReader (h : Reclaims db) {state : Option TxnState}
    (hnone : db.versions.hasWrites t = false)
    (hstates : m.states = Function.update db.txMgr.states t state)
    (hstate : ∀ s, state = some s → s.isInFlight = false) :
    Reclaims { db with txMgr := m } := by
  have hold : ∀ r, r ≠ t → m.states r = db.txMgr.states r := by
    intro r hr
    rw [hstates, Function.update_of_ne hr]
  have hself : ¬ InFlight m t := by
    unfold InFlight
    rw [hstates, Function.update_self]
    rintro (⟨p, hp⟩ | hp)
    · exact absurd (hstate _ hp) nofun
    · exact absurd (hstate _ hp) nofun
  have hne : ∀ r, db.versions.hasWrites r = true → r ≠ t := by
    rintro r hr rfl
    rw [hnone] at hr
    cases hr
  apply h.withMgr
  · intro r hr hin
    left
    unfold InFlight at hin ⊢
    rw [hold r (hne r hr)]
    exact hin
  · intro r a hr ha
    rw [hold r (hne r hr)]
    exact ⟨a, ha⟩
  · intro key v r hv hvr hin
    have hrt : r ≠ t := by
      rintro rfl
      exact hself hin
    unfold InFlight at hin ⊢
    rw [hold r hrt] at hin
    exact hin

/-- The records of transactions that are not in flight are forgotten. -/
theorem forgot (h : Reclaims db) {s : VersionStore κ δ} {ids : List Nat}
    (hforgot : VersionStore.Forgot db.versions s ids) (hids : ∀ t ∈ ids, ¬ InFlight db.txMgr t) :
    Reclaims { db with versions := s } where
  counted := by
    show s.retained = (s.committed.map (·.2.2)).sum
    rw [hforgot.retained, hforgot.committed]
    exact h.counted
  owned := hforgot.owned h.owned
  writers t ht := by
    show InFlight db.txMgr t ∨ (∃ e ∈ s.committed, e.2.1 = t) ∨ _
    rw [hforgot.committed]
    exact h.writers t ((hforgot.hasWrites t).mp ht).2
  tombstone key v w c hv htomb hvw hc := by
    obtain ⟨e, he, hkey⟩ := h.tombstone key v w c hv htomb hvw hc
    refine ⟨e, ?_, hkey⟩
    show e ∈ s.tombstones ++ db.purging
    rw [hforgot.tombstones]
    exact he
  deleting key v t hv htomb hvt hin := by
    obtain ⟨l, p, hl, hp, hdel, hid⟩ := h.deleting key v t hv htomb hvt hin
    obtain ⟨hpre, hmem⟩ := hforgot.kept t l (fun hmem => hids t hmem hin) hl
    exact ⟨l, p, hmem, hpre.trans hp, hdel, hid⟩

/-- A record that is neither a write nor a commit. -/
theorem logNew (h : Reclaims db) {op : Operation κ δ} (hc : op.commits = none) :
    Reclaims (db.logNew op) := by
  have hts : commitTs (db.logNew op).log = commitTs db.log := commitTs_append_other _ _ hc
  constructor
  · exact h.counted
  · exact h.owned
  · exact h.writers
  · intro key v w c hv htomb hvw hcom
    rw [hts] at hcom
    exact h.tombstone key v w c hv htomb hvw hcom
  · exact h.deleting

variable [DecidableEq κ]

theorem begin (h : Reclaims db) (hinv : DbInv db) (policy : ConflictPolicy) :
    Reclaims (db.begin policy).1 := by
  have hstates : ∀ t, t ≠ db.txMgr.clock →
      (db.txMgr.createTransaction policy).1.states t = db.txMgr.states t := by
    intro t ht
    simp [TransactionManager.createTransaction, ht]
  apply h.withMgr
  · intro t _ hin
    left
    have hne : t ≠ db.txMgr.clock := Nat.ne_of_lt (inFlight_lt hinv.txn hin)
    unfold InFlight at hin ⊢
    rw [hstates t hne]
    exact hin
  · intro t a _ ha
    have hne : t ≠ db.txMgr.clock := Nat.ne_of_lt (hinv.txn.idLt t (by simp [ha]))
    rw [hstates t hne]
    exact ⟨a, ha⟩
  · intro key v t hv hvt hin
    have hne : t ≠ db.txMgr.clock :=
      Nat.ne_of_lt (hinv.txn.wroteLt t (hinv.wrote_of_row hv hvt))
    unfold InFlight at hin ⊢
    rw [hstates t hne] at hin
    exact hin

/-- The commit of a transaction that wrote queues its tombstones. -/
theorem commitWrites (h : Reclaims db) (hinv : DbInv db) {c : Nat} {p : ConflictPolicy}
    (hp : db.txMgr.states txn = some (.active p)) (hhas : db.versions.hasWrites txn = true)
    (hstates : m.states = Function.update db.txMgr.states txn (some (.committed c))) :
    Reclaims { db with
      txMgr := m
      versions := db.versions.markCommitted txn c
      log := db.log ++ [⟨c, .commit txn⟩] } := by
  obtain ⟨written, hw⟩ := VersionStore.hasWrites_iff.mp hhas
  have hts : commitTs (db.log ++ [⟨c, .commit txn⟩]) =
      Function.update (commitTs db.log) txn (some c) :=
    commitTs_append_commit _ (hinv.txn.activeTs txn p hp)
  have hold : ∀ t, t ≠ txn → m.states t = db.txMgr.states t := by
    intro t ht
    rw [hstates, Function.update_of_ne ht]
  have hself : ¬ InFlight m txn := by
    unfold InFlight
    rw [hstates, Function.update_self]
    simp
  constructor
  · exact h.counted.markCommitted hw c
  · exact h.owned.markCommitted hw c
  · intro t ht
    by_cases hne : t = txn
    · subst hne
      refine Or.inr (Or.inl ⟨(c, t, (replacedLsns written).length), ?_, rfl⟩)
      have hhas' := ht
      dsimp only at hhas' ⊢
      rw [VersionStore.markCommitted_of_some hw] at hhas' ⊢
      unfold VersionStore.hasWrites at hhas'
      simp only [Function.update_self] at hhas'
      by_cases hnil : replacedLsns written = []
      · simp [hnil] at hhas'
      · simp [hnil]
    · have ht' := VersionStore.hasWrites_of_markCommitted db.versions txn c ht
      rcases h.writers t ht' with hin | ⟨e, he, het⟩ | ⟨a, ha⟩
      · left
        unfold InFlight at hin ⊢
        rw [hold t hne]
        exact hin
      · refine Or.inr (Or.inl ⟨e, ?_, het⟩)
        dsimp only
        rw [VersionStore.markCommitted_of_some hw]
        dsimp only
        split
        · exact he
        · exact List.mem_append_left _ he
      · refine Or.inr (Or.inr ⟨a, ?_⟩)
        dsimp only
        rw [hold t hne]
        exact ha
  · intro key v w d hv htomb hvw hd
    have hsub : ∀ e ∈ db.versions.tombstones,
        e ∈ (db.versions.markCommitted txn c).tombstones := by
      intro e he
      rw [VersionStore.markCommitted_of_some hw]
      exact List.mem_append_left _ he
    by_cases hne : w = txn
    · subst hne
      obtain ⟨l, q, hl, hq, hdel, hid⟩ := h.deleting key v w hv htomb hvw (Or.inl ⟨p, hp⟩)
      exact ⟨_, List.mem_append_left _
        (VersionStore.tombstone_of_markCommitted hl hq hdel c), hid, rfl⟩
    · dsimp only at hd
      rw [hts, Function.update_of_ne hne] at hd
      obtain ⟨e, he, hkey⟩ := h.tombstone key v w d hv htomb hvw hd
      refine ⟨e, ?_, hkey⟩
      rcases List.mem_append.mp he with he | he
      · exact List.mem_append_left _ (hsub e he)
      · exact List.mem_append_right _ he
  · intro key v t hv htomb hvt hin
    have hne : t ≠ txn := by
      rintro rfl
      exact hself hin
    have hin' : InFlight db.txMgr t := by
      unfold InFlight at hin ⊢
      rw [← hold t hne]
      exact hin
    obtain ⟨l, q, hl, hq, hdel, hid⟩ := h.deleting key v t hv htomb hvt hin'
    refine ⟨l, q, (VersionStore.replaced_mem_markCommitted_iff hw c t).mpr hl, ?_, hdel, hid⟩
    dsimp only
    rw [VersionStore.markCommitted_of_some hw]
    exact hq

theorem commit (h : Reclaims db) (hinv : DbInv db) (txn : Nat) : Reclaims (db.commit txn).1 := by
  obtain ⟨db', heq, hcommit⟩ := db.commit_cases txn
  rw [heq]
  cases hcommit with
  | refused => exact h
  | logged hp hhas hbegin hclock hstates => exact h.commitWrites hinv hp hhas hstates
  | silent hp hhas hm hclock hstates =>
    exact h.nextLsn.endReader hhas hstates fun s hs => by cases hs; rfl

/-- A write leaves the queues, adds to its transaction's log and keeps the other entries
and their pre-images. -/
theorem write (h : Reclaims db) (hinv : DbInv db) {p : ConflictPolicy}
    (hp : db.txMgr.states txn = some (.active p)) {key : κ} {op : Operation κ δ} {v : Tuple κ δ}
    (hw : WriteSpec db.nextLsn.1.txMgr txn db.nextLsn.2 key (db.rows key) op v) :
    Reclaims (db.nextLsn.1.write db.nextLsn.2 key op v) := by
  have hts : commitTs (db.log ++ [⟨db.nextLsn.2, op⟩]) = commitTs db.log :=
    commitTs_append_other _ _ hw.commits_eq_none
  obtain ⟨hretained, hcommitted, htombs, howned, hhas, hkept⟩ :
      (db.versions.insert db.nextLsn.2 op).retained = db.versions.retained ∧
        (db.versions.insert db.nextLsn.2 op).committed = db.versions.committed ∧
        (db.versions.insert db.nextLsn.2 op).tombstones = db.versions.tombstones ∧
        (db.versions.insert db.nextLsn.2 op).Owned ∧
        (∀ t, (db.versions.insert db.nextLsn.2 op).hasWrites t = true →
          t = txn ∨ db.versions.hasWrites t = true) ∧
        ∀ t l, .replaced l ∈ db.versions.writtenBy t →
          (db.versions.insert db.nextLsn.2 op).preImages l = db.versions.preImages l ∧
            .replaced l ∈ (db.versions.insert db.nextLsn.2 op).writtenBy t := by
    have hpush : ∀ (s : VersionStore κ δ) w t l, .replaced l ∈ s.writtenBy t →
        .replaced l ∈ (s.push txn w).writtenBy t := by
      intro s w t l hl
      by_cases hne : t = txn
      · subst hne
        rw [VersionStore.writtenBy_push_self]
        exact List.mem_append_left _ hl
      · rw [VersionStore.writtenBy_push_of_ne _ _ _ hne]
        exact hl
    rcases hw.replaces with ⟨-, -, hins⟩ | ⟨c, w, -, -, -, -, deleted, hins⟩
    · rw [hins]
      refine ⟨rfl, rfl, rfl, h.owned.push _ _, ?_, ?_⟩
      · exact fun t ht => (VersionStore.hasWrites_push txn t _).mp ht
      · exact fun t l hl => ⟨rfl, hpush _ _ t l hl⟩
    · rw [hins]
      refine ⟨rfl, rfl, rfl, h.owned.replace _ _ _ _, ?_, ?_⟩
      · exact fun t ht => (VersionStore.hasWrites_push txn t _).mp ht
      · intro t l hl
        have hne : l ≠ db.nextLsn.2 := Nat.ne_of_lt (hinv.writtenLt t l hl)
        exact ⟨Function.update_of_ne hne _ _, hpush _ _ t l hl⟩
  constructor
  · show (db.versions.insert _ op).retained = ((db.versions.insert _ op).committed.map (·.2.2)).sum
    rw [hretained, hcommitted]
    exact h.counted
  · exact howned
  · intro t ht
    rcases hhas t ht with rfl | ht'
    · exact Or.inl (Or.inl ⟨p, hp⟩)
    · show InFlight db.txMgr t ∨ (∃ e ∈ (db.versions.insert _ op).committed, e.2.1 = t) ∨ _
      rw [hcommitted]
      exact h.writers t ht'
  · intro k x w c hx htomb hxw hc
    have hc' : commitTs db.log w = some c := hts ▸ hc
    by_cases hk : k = key
    · subst hk
      have hxv : x = v := by
        simp only [Db.write, Function.update_self, Option.some.injEq] at hx
        exact hx.symm
      rw [hxv, hw.txnId] at hxw
      cases hxw
      rw [hinv.txn.activeTs _ p hp] at hc'
      cases hc'
    · simp only [Db.write, Function.update_of_ne hk] at hx
      obtain ⟨e, he, hkey⟩ := h.tombstone k x w c hx htomb hxw hc'
      refine ⟨e, ?_, hkey⟩
      show e ∈ (db.versions.insert _ op).tombstones ++ db.purging
      rw [htombs]
      exact he
  · intro k x t hx htomb hxt hin
    by_cases hk : k = key
    · subst hk
      have hxv : x = v := by
        simp only [Db.write, Function.update_self, Option.some.injEq] at hx
        exact hx.symm
      subst hxv
      obtain ⟨pre, rfl⟩ := hw.tombstone htomb
      rw [hw.txnId] at hxt
      cases hxt
      have hwritten := hw.written
      simp only [Operation.written, Option.some.injEq] at hwritten
      have hid : pre.id = k := by
        rw [← hw.id, ← hwritten]
      refine ⟨db.nextLsn.2, ⟨pre, true⟩, ?_, ?_, rfl, hid⟩
      · show .replaced db.nextLsn.2 ∈ (VersionStore.push _ txn _).writtenBy txn
        rw [VersionStore.writtenBy_push_self]
        exact List.mem_append_right _ (List.mem_singleton.mpr rfl)
      · exact Function.update_self _ _ _
    · simp only [Db.write, Function.update_of_ne hk] at hx
      obtain ⟨l, q, hl, hq, hdel, hid⟩ := h.deleting k x t hx htomb hxt hin
      obtain ⟨hpre, hmem⟩ := hkept t l hl
      exact ⟨l, q, hmem, hpre.trans hq, hdel, hid⟩

/-! ### Maintenance -/

theorem vacuum (h : Reclaims db) (hinv : DbInv db) : Reclaims db.vacuum := by
  obtain ⟨hcount, hcommitted, htombs, howned, hhas, hkept⟩ :=
    VersionStore.vacuum_spec h.counted hinv.ownerUnique (some db.txMgr.horizon)
  constructor
  · exact hcount
  · exact howned h.owned
  · intro t ht
    obtain ⟨hnot, ht'⟩ := (hhas t).mp ht
    rcases h.writers t ht' with hin | ⟨e, he, het⟩ | hab
    · exact Or.inl hin
    · refine Or.inr (Or.inl ⟨e, ?_, het⟩)
      show e ∈ (db.versions.vacuum (some db.txMgr.horizon)).1.committed
      rw [hcommitted, List.mem_filter]
      refine ⟨he, ?_⟩
      by_contra hrec
      apply hnot
      have hrec' : VersionStore.reclaimable (some db.txMgr.horizon) e.1 = true :=
        by simpa using hrec
      exact het ▸ List.mem_map_of_mem (List.mem_filter.mpr ⟨he, hrec'⟩)
    · exact Or.inr (Or.inr hab)
  · intro key v w c hv htomb hvw hc
    obtain ⟨e, he, hkey⟩ := h.tombstone key v w c hv htomb hvw hc
    refine ⟨e, ?_, hkey⟩
    show e ∈ (db.versions.vacuum (some db.txMgr.horizon)).1.tombstones ++
      (db.purging ++ (db.versions.vacuum (some db.txMgr.horizon)).2.tombstones)
    have hreleased : (db.versions.vacuum (some db.txMgr.horizon)).2.tombstones =
        db.versions.tombstones.filter fun t =>
          VersionStore.reclaimable (some db.txMgr.horizon) t.commitTs := rfl
    rw [htombs, hreleased]
    simp only [Db.queued, List.mem_append, List.mem_filter] at he ⊢
    cases VersionStore.reclaimable (some db.txMgr.horizon) e.commitTs <;> simp <;> tauto
  · intro key v t hv htomb hvt hin
    obtain ⟨l, q, hl, hq, hdel, hid⟩ := h.deleting key v t hv htomb hvt hin
    have hnot : t ∉ db.versions.forgottenBy (some db.txMgr.horizon) := by
      intro hmem
      obtain ⟨e, he, rfl⟩ := List.mem_map.mp hmem
      have hts := hinv.committedQueue e (List.mem_of_mem_filter he)
      rw [commitTs_of_inFlight hinv.txn hin] at hts
      cases hts
    obtain ⟨hpre, hmem⟩ := hkept t l hnot hl
    exact ⟨l, q, hmem, hpre.trans hq, hdel, hid⟩

theorem pruneCommitted (h : Reclaims db) (hinv : DbInv db) : Reclaims db.pruneCommitted := by
  have hforgot := VersionStore.forgot_discardAll hinv.ownerUnique db.txMgr.pruneCommitted.2
  have hpruned : ∀ t ∈ db.txMgr.pruneCommitted.2,
      ∃ a, db.txMgr.states t = some (.aborted a) := by
    intro t ht
    simp only [TransactionManager.pruneCommitted, List.mem_filter] at ht
    split at ht
    · next a ha => exact ⟨a, ha⟩
    · exact absurd ht.2 (by simp)
  have hdiscarded := h.forgot hforgot (by
    intro t ht hin
    obtain ⟨a, ha⟩ := hpruned t ht
    rcases hin with ⟨p, hp⟩ | hp
    · rw [ha] at hp
      cases hp
    · rw [ha] at hp
      cases hp)
  have hstates : ∀ t, db.txMgr.pruneCommitted.1.states t =
      (db.txMgr.states t).filter (TransactionManager.keptByPrune db.txMgr.oldestActive) :=
    fun _ => rfl
  have hinFlight : ∀ t, InFlight db.txMgr.pruneCommitted.1 t ↔ InFlight db.txMgr t := by
    intro t
    have hiff : ∀ state : TxnState, state.isInFlight = true →
        ((db.txMgr.states t).filter (TransactionManager.keptByPrune db.txMgr.oldestActive) =
          some state ↔ db.txMgr.states t = some state) := by
      intro state hstate
      rw [Option.filter_eq_some_iff]
      constructor
      · exact fun hs => hs.1
      · intro hs
        refine ⟨hs, ?_⟩
        cases state with
        | active p => rfl
        | aborting => rfl
        | committing c p => rfl
        | committed c => cases hstate
        | aborted a => cases hstate
    unfold InFlight
    rw [hstates]
    constructor
    · rintro (⟨p, hp⟩ | hp)
      · exact Or.inl ⟨p, (hiff _ rfl).mp hp⟩
      · exact Or.inr ((hiff _ rfl).mp hp)
    · rintro (⟨p, hp⟩ | hp)
      · exact Or.inl ⟨p, (hiff _ rfl).mpr hp⟩
      · exact Or.inr ((hiff _ rfl).mpr hp)
  apply hdiscarded.withMgr
  · exact fun t _ hin => Or.inl ((hinFlight t).mpr hin)
  · intro t a ht ha
    obtain ⟨hnot, -⟩ := (hforgot.hasWrites t).mp ht
    have ha' : db.txMgr.states t = some (.aborted a) := ha
    have hlt : t < db.txMgr.clock := hinv.txn.idLt t (by simp [ha'])
    refine ⟨a, ?_⟩
    show (db.txMgr.states t).filter _ = _
    rw [ha']
    cases hkept : TransactionManager.keptByPrune db.txMgr.oldestActive (.aborted a) with
    | true => simp [Option.filter, hkept]
    | false =>
      exfalso
      apply hnot
      simp only [TransactionManager.pruneCommitted, List.mem_filter, List.mem_range]
      exact ⟨hlt, by simp [ha', hkept]⟩
  · exact fun _ _ t _ _ hin => (hinFlight t).mp hin

omit [DecidableEq κ] in
/-- The head of the queue goes once its tombstone is off the row. -/
theorem purged (h : Reclaims db) {t : Tombstone κ} {rest : List (Tombstone κ)}
    (hq : db.purging = t :: rest) {rows : κ → Option (Tuple κ δ)}
    (hrows : ∀ key v, rows key = some v → db.rows key = some v)
    (hgone : ∀ v, rows t.key = some v → v.tombstoned = true → v.txnId ≠ some t.txn) :
    Reclaims { db with rows := rows, purging := rest } where
  counted := h.counted
  owned := h.owned
  writers := h.writers
  tombstone key v w c hv htomb hvw hc := by
    obtain ⟨e, he, hkey, hw⟩ := h.tombstone key v w c (hrows key v hv) htomb hvw hc
    refine ⟨e, ?_, hkey, hw⟩
    simp only [Db.queued, List.mem_append, hq, List.mem_cons] at he ⊢
    rcases he with he | rfl | he
    · exact Or.inl he
    · subst hkey hw
      exact absurd hvw (hgone v hv htomb)
    · exact Or.inr he
  deleting key v u hv := h.deleting key v u (hrows key v hv)

theorem purge (h : Reclaims db) : Reclaims db.purge := by
  unfold Db.purge
  cases hq : db.purging with
  | nil => exact h
  | cons t rest =>
    dsimp only
    have hpurges : ({ db with purging := rest }.nextLsn.1).purges t = db.purges t := rfl
    rw [hpurges]
    split
    · have hlog : Reclaims (db.nextLsn.1.logNew (.purge t.txn t.key)) := h.nextLsn.logNew rfl
      apply hlog.purged hq
      · intro key v hv
        by_cases hkey : key = t.key
        · subst hkey
          simp at hv
        · rwa [Function.update_of_ne hkey] at hv
      · intro v hv
        simp at hv
    · next hnot =>
        apply h.nextLsn.purged hq
        · exact fun _ _ hv => hv
        · intro v hv htomb hvt
          apply hnot
          have hv' : db.rows t.key = some v := hv
          simp [Db.purges, hv', htomb, hvt]

/-! ### Rolling back -/

/-- A revert that ran to its end restores other transactions' versions. -/
theorem revert (h : Reclaims db) (hinv : DbInv db) (hab : db.txMgr.states t = some .aborting)
    (hqueued : db.RestoresQueued t) :
    Reclaims (db.revert t none) := by
  have hfields := revert_fields t (db.versions.undoOf t).reverse db
  have hrev : db.revert t none = (db.versions.undoOf t).reverse.foldl (Db.revertOne t) db := rfl
  rw [← hrev] at hfields
  obtain ⟨hlog, hversions, hpurging, hstates, -⟩ := hfields
  have hinFlight : ∀ r, InFlight (db.revert t none).txMgr r ↔ InFlight db.txMgr r := by
    intro r
    unfold InFlight
    rw [hstates]
  have hrow : ∀ key v, (db.revert t none).rows key = some v → db.rows key = some v ∨
      .restore v ∈ db.versions.undoOf t ∧ v.id = key ∧ v.txnId ≠ some t ∧
        CommittedBy (commitTs db.log) v := by
    intro key v hv
    rw [hinv.rows_revert_none hab key] at hv
    split at hv
    · exact Or.inl hv
    · next u rest hu =>
        split at hv
        · next hany =>
            obtain ⟨cur, hcur, hsame⟩ := (Option.any_eq_true _ _).mp hany
            obtain ⟨own, base, older, hk⟩ := hinv.key key
            have hcurt : cur.txnId = some t := by simpa using hsame
            obtain ⟨u', rest', hu', htarget, -⟩ := hk.undo t cur (Or.inr hab) hcur hcurt
            rw [hu] at hu'
            cases hu'
            have hmem : u ∈ undosOn db.log t key := hu ▸ List.mem_cons_self
            obtain ⟨hmemOf, hkey⟩ := List.mem_filter.mp hmem
            have hbase : v ∈ base := List.mem_of_mem_head? (htarget.symm.trans hv)
            cases u with
            | remove k => cases hv
            | restore pre =>
              cases hv
              refine Or.inr ⟨?_, of_decide_eq_true hkey, ?_,
                (hk.committed_of_mem (List.mem_append_left _ hbase)).2⟩
              · rw [hinv.undoOf t (Or.inr hab)]
                exact hmemOf
              · exact (hinv.undoShape t key _ rest hu).1 _ rfl
        · exact Or.inl hv
  constructor
  · rw [hversions]
    exact h.counted
  · rw [hversions]
    exact h.owned
  · intro r hr
    rw [hversions] at hr ⊢
    rw [hinFlight, hstates]
    exact h.writers r hr
  · intro key v w c hv htomb hvw hc
    rw [hlog] at hc
    show ∃ e ∈ (db.revert t none).versions.tombstones ++ (db.revert t none).purging, _
    rw [hversions, hpurging]
    rcases hrow key v hv with hv' | ⟨hmem, hid, hne, -⟩
    · exact h.tombstone key v w c hv' htomb hvw hc
    · obtain ⟨e, he, hkey, hw⟩ := hqueued v hmem htomb hne
      rw [hvw] at hw
      cases hw
      exact ⟨e, he, hkey.trans hid, rfl⟩
  · intro key v r hv htomb hvr hin
    rw [hversions]
    rw [hinFlight] at hin
    rcases hrow key v hv with hv' | ⟨-, -, -, hcom⟩
    · exact h.deleting key v r hv' htomb hvr hin
    · simp [CommittedBy, hvr, commitTs_of_inFlight hinv.txn hin] at hcom

theorem abortComplete_states (m : TransactionManager) (t : Nat) (wrote : Bool) :
    ((m.abortComplete t wrote).2 = false ∧ (m.abortComplete t wrote).1.states =
      Function.update m.states t (some (.aborted m.clock))) ∨
    ((m.abortComplete t wrote).2 = true ∧
      (m.abortComplete t wrote).1.states = Function.update m.states t none) := by
  unfold TransactionManager.abortComplete
  dsimp only
  split
  · exact Or.inl ⟨rfl, rfl⟩
  · exact Or.inr ⟨rfl, rfl⟩

/-- The abort of a transaction that has no row left ends. -/
theorem completeAbort (h : Reclaims db) (hinv : DbInv db)
    (hab : db.txMgr.states t = some .aborting)
    (hrow : ∀ key v, db.rows key = some v → v.txnId ≠ some t) (wrote : Bool) :
    Reclaims (db.completeAbort t wrote) := by
  have hlogged : Reclaims (if wrote then db.logNew (.rollback t) else db) := by
    split
    · exact h.logNew rfl
    · exact h
  have hinv' : DbInv (if wrote then db.logNew (.rollback t) else db) := by
    split
    · exact hinv.logNew rfl rfl
    · exact hinv
  have hrow' : ∀ key v, (if wrote then db.logNew (.rollback t) else db).rows key = some v →
      v.txnId ≠ some t := by
    cases wrote with
    | true => exact hrow
    | false => exact hrow
  unfold Db.completeAbort
  dsimp only
  generalize (if wrote then db.logNew (.rollback t) else db) = db' at hlogged hinv' hrow' ⊢
  -- the entry is marked aborted first; a forgotten one loses its records, then the entry
  have haborted : ∀ (m : TransactionManager) a,
      m.states = Function.update db'.txMgr.states t (some (.aborted a)) →
        Reclaims { db' with txMgr := m } := by
    intro m a hm
    have hold : ∀ r, r ≠ t → m.states r = db'.txMgr.states r := by
      intro r hr
      rw [hm, Function.update_of_ne hr]
    apply hlogged.withMgr
    · intro r _ hin
      by_cases hr : r = t
      · subst hr
        exact Or.inr ⟨a, by rw [hm, Function.update_self]⟩
      · left
        unfold InFlight at hin ⊢
        rw [hold r hr]
        exact hin
    · intro r b _ hb
      by_cases hr : r = t
      · subst hr
        exact ⟨a, by rw [hm, Function.update_self]⟩
      · rw [hold r hr]
        exact ⟨b, hb⟩
    · intro key v r hv hvr hin
      have hr : r ≠ t := by
        rintro rfl
        exact hrow' key v hv hvr
      unfold InFlight at hin ⊢
      rw [hold r hr] at hin
      exact hin
  rcases abortComplete_states db'.txMgr t wrote with ⟨hkept, hstates⟩ | ⟨hforgotten, hstates⟩
  · rw [hkept]
    exact haborted _ _ hstates
  · rw [hforgotten]
    have hmarked := haborted (db'.txMgr.setState t (some (.aborted 0))) 0 rfl
    have hdiscarded := hmarked.forgot
      (VersionStore.forgot_discardAll hinv'.ownerUnique [t]) (by
        intro r hr hin
        rw [List.mem_singleton] at hr
        subst hr
        simp [InFlight] at hin)
    apply hdiscarded.endReader
    · show ((db'.versions.discard t).1.byTxn t).isSome = false
      rw [VersionStore.byTxn_discard]
      simp
    · rw [hstates]
      exact (Function.update_idem _ _ _).symm
    · intro s hs
      cases hs

theorem finishAbort (h : Reclaims db) (hinv : DbInv db) (hab : db.txMgr.states t = some .aborting)
    (hqueued : db.RestoresQueued t) :
    Reclaims (db.finishAbort t none) := by
  have hab' : (db.revert t none).txMgr.states t = some .aborting := by
    rw [show (db.revert t none).txMgr.states = db.txMgr.states from
      (revert_fields t _ db).2.2.2.1]
    exact hab
  exact (h.revert hinv hab hqueued).completeAbort (hinv.revert hab none) hab'
    (fun _ _ hv => hinv.row_ne_of_revert hab hv) _

omit [DecidableEq κ] in
theorem markAborting (h : Reclaims db) (hm : db.txMgr.abort t = some m) :
    Reclaims { db with txMgr := m } := by
  unfold TransactionManager.abort at hm
  split at hm
  · next p hp =>
      cases hm
      have hold : ∀ r, r ≠ t → ((db.txMgr.setState t (some .aborting)).setActive t false
          true).states r = db.txMgr.states r := by
        intro r hr
        simp [hr]
      apply h.withMgr
      · intro r _ hin
        left
        by_cases hr : r = t
        · subst hr
          exact Or.inr (by simp)
        · unfold InFlight at hin ⊢
          rw [hold r hr]
          exact hin
      · intro r a _ ha
        have hr : r ≠ t := by
          rintro rfl
          rw [hp] at ha
          cases ha
        exact ⟨a, (hold r hr).trans ha⟩
      · intro key v r _ _ hin
        by_cases hr : r = t
        · subst hr
          exact Or.inl ⟨p, hp⟩
        · unfold InFlight at hin ⊢
          rw [hold r hr] at hin
          exact hin
  · cases hm

theorem abort (h : Reclaims db) (hinv : DbInv db)
    (hqueued : db.txMgr.isTransactionActive t = true → db.RestoresQueued t) :
    Reclaims (db.abort t none) := by
  obtain ⟨db', heq, habort⟩ := db.abort_cases t none
  rw [heq]
  cases habort with
  | refused => exact h
  | forgotten hp hhas hend hclock hstates => exact h.endReader hhas hstates nofun
  | reverted hp hhas hm =>
    obtain ⟨hab, hinv'⟩ := hinv.markAborting hm
    exact (h.markAborting hm).finishAbort hinv' hab
      (hqueued ((db.txMgr.isTransactionActive_iff t).mpr ⟨_, hp⟩))

/-! ### A step -/

theorem writeStep (h : Reclaims db) (hinv : DbInv db) {db' : Db κ δ} {key : κ}
    (hqueued : Db.TakesDown db txn key → db.RestoresQueued txn)
    (hstep : db' = db ∨ db.txMgr.isTransactionActive txn = true ∧ Db.WriteStep db txn key db') :
    Reclaims db' := by
  rcases hstep with rfl | ⟨hact, hstep⟩
  · exact h
  · obtain ⟨p, hp⟩ := (db.txMgr.isTransactionActive_iff txn).mp hact
    cases hstep with
    | wrote hw => exact h.write hinv hp hw
    | failed => exact h.nextLsn
    | aborted hdown => exact h.nextLsn.abort hinv.nextLsn fun _ => hqueued hdown

/-- An insert over a live row fails before it looks at the row's writer. -/
theorem insert_live {tuple : Tuple κ δ}
    (hrow : ∃ v, db.rows tuple.id = some v ∧ v.tombstoned = false) :
    (db.insert txn tuple).1 = db ∨ (db.insert txn tuple).1 = db.nextLsn.1 := by
  obtain ⟨v, hv, hlive⟩ := hrow
  unfold Db.insert
  cases hr : db.requireActive txn with
  | error e => exact Or.inl rfl
  | ok u =>
    right
    have hrow' : db.nextLsn.1.rows tuple.id = some v := hv
    simp [Db.writeWithPolicy, hrow', Db.insertDecision, hlive, Db.afterWrite]

theorem insert (h : Reclaims db) (hinv : DbInv db) {tuple : Tuple κ δ}
    (hkeeps : db.KeepsQueued (.insert txn tuple)) : Reclaims (db.insert txn tuple).1 := by
  by_cases hlive : ∃ v, db.rows tuple.id = some v ∧ v.tombstoned = false
  · rcases insert_live hlive with heq | heq
    · rw [heq]
      exact h
    · rw [heq]
      exact h.nextLsn
  · apply h.writeStep hinv _ (Db.insert_step hinv.row_id txn tuple)
    intro hdown
    apply hkeeps hdown
    obtain ⟨c, w, hc, -⟩ := hdown.conflict
    rw [hc]
    cases htomb : c.tombstoned with
    | true => simpa using htomb
    | false => exact absurd ⟨c, hc, htomb⟩ hlive

/-- What is kept and what waits stay accounted for. -/
theorem step (h : Reclaims db) (hinv : DbInv db) {a : Action κ δ} (hkeeps : db.KeepsQueued a) :
    Reclaims (db.step a) := by
  cases a with
  | begin policy => exact h.begin hinv policy
  | insert txn tuple => exact h.insert hinv hkeeps
  | update txn tuple => exact h.writeStep hinv hkeeps (Db.update_step hinv.row_id txn tuple)
  | remove txn key => exact h.writeStep hinv hkeeps (Db.remove_step hinv.row_id txn key)
  | commit txn => exact h.commit hinv txn
  | abort txn failsAfter =>
    obtain ⟨rfl, hqueued⟩ := hkeeps
    exact h.abort hinv hqueued
  | retryAbort txn failsAfter =>
    obtain ⟨rfl, hqueued⟩ := hkeeps
    simp only [Db.step, Db.retryAbort]
    split
    · next hab => exact h.finishAbort hinv hab (hqueued hab)
    · exact h
  | pruneCommitted => exact h.pruneCommitted hinv
  | vacuum => exact h.vacuum hinv
  | purge => exact h.purge

end Reclaims

/-! ## A maintenance pass -/

/-- No transaction is active, committing or aborting. -/
def TransactionManager.Idle (m : TransactionManager) : Prop :=
  ∀ t, (m.states t).any TxnState.isInFlight = false

namespace Db

variable [DecidableEq κ]

/-- `maintenance_pass`, of which every purge succeeds.  Left out are the checkpoint it may
take and the abort of the oldest reader, which does nothing where no transaction is
active. -/
def maintenancePass (db : Db κ δ) : Db κ δ :=
  let db := db.txMgr.abortingIds.foldl (fun db t => db.retryAbort t none) db
  let db := db.pruneCommitted.vacuum
  db.purging.foldl (fun db _ => db.purge) db

/-- Nothing of the past is left: no tombstone on a row, no pre-image, no write log. -/
structure Reclaimed (db : Db κ δ) : Prop where
  live : ∀ key v, db.rows key = some v → v.tombstoned = false
  preImages : ∀ l, db.versions.preImages l = none
  byTxn : ∀ t, db.versions.byTxn t = none
  retained : db.versions.retained = 0

end Db

namespace Reclaims

theorem not_inFlight {m : TransactionManager} (hidle : m.Idle) (t : Nat) : ¬ InFlight m t := by
  have ht := hidle t
  rintro (⟨p, hp⟩ | hp)
  · rw [hp] at ht
    cases ht
  · rw [hp] at ht
    cases ht

theorem oldestActive_eq_none {m : TransactionManager} (hidle : m.Idle) :
    m.oldestActive = none := by
  unfold TransactionManager.oldestActive
  rw [List.find?_eq_none]
  intro t _ hact
  exact not_inFlight hidle t (Or.inl ((m.isTransactionActive_iff t).mp hact))

variable [DecidableEq κ] {db : Db κ δ}

/-- With no reader left, the transactions that keep something are the queued ones. -/
theorem writers_pruneCommitted (h : Reclaims db) (hinv : DbInv db) (hidle : db.txMgr.Idle)
    {t : Nat} (ht : db.pruneCommitted.versions.hasWrites t = true) :
    ∃ e ∈ db.pruneCommitted.versions.committed, e.2.1 = t := by
  have hforgot := VersionStore.forgot_discardAll hinv.ownerUnique db.txMgr.pruneCommitted.2
  obtain ⟨hnot, hhas⟩ := (hforgot.hasWrites t).mp ht
  have hcommitted : db.pruneCommitted.versions.committed = db.versions.committed :=
    hforgot.committed
  rw [hcommitted]
  rcases h.writers t hhas with hin | hcom | ⟨a, ha⟩
  · exact absurd hin (not_inFlight hidle t)
  · exact hcom
  · exfalso
    apply hnot
    have hlt : t < db.txMgr.clock := hinv.txn.idLt t (by simp [ha])
    simp only [TransactionManager.pruneCommitted, List.mem_filter, List.mem_range,
      oldestActive_eq_none hidle]
    exact ⟨hlt, by simp [ha, TransactionManager.keptByPrune]⟩

/-- With no reader left, a vacuum forgets everything that is queued. -/
theorem vacuum_idle (h : Reclaims db) (hinv : DbInv db)
    (hhorizon : db.txMgr.horizon = db.txMgr.clock)
    (hwriters : ∀ t, db.versions.hasWrites t = true → ∃ e ∈ db.versions.committed, e.2.1 = t) :
    db.vacuum.versions.committed = [] ∧ db.vacuum.versions.tombstones = [] ∧
      ∀ t, db.vacuum.versions.hasWrites t = false := by
  obtain ⟨-, hcommitted, htombs, -, hhas, -⟩ :=
    VersionStore.vacuum_spec h.counted hinv.ownerUnique (some db.txMgr.horizon)
  have hrec : ∀ e ∈ db.versions.committed,
      VersionStore.reclaimable (some db.txMgr.horizon) e.1 = true := by
    intro e he
    have hlt := (hinv.txn.tsBound _ _ (hinv.committedQueue e he)).2
    rw [hhorizon]
    exact decide_eq_true hlt
  refine ⟨hcommitted.trans ?_, htombs.trans ?_, ?_⟩
  · rw [List.filter_eq_nil_iff]
    intro e he
    simp [hrec e he]
  · rw [List.filter_eq_nil_iff]
    intro t ht
    have hlt := (hinv.txn.tsBound _ _ (hinv.tombstones t ht)).2
    simp [VersionStore.reclaimable, hhorizon, hlt]
  · intro t
    by_contra hne
    have ht : db.vacuum.versions.hasWrites t = true := by simpa using hne
    obtain ⟨hnot, hold⟩ := (hhas t).mp ht
    obtain ⟨e, he, rfl⟩ := hwriters t hold
    exact hnot (List.mem_map_of_mem (List.mem_filter.mpr ⟨he, hrec e he⟩))

/-- A purge takes one tombstone off the queue. -/
theorem purge_fields (db : Db κ δ) :
    db.purge.purging = db.purging.tail ∧ db.purge.versions = db.versions ∧
      db.purge.txMgr.states = db.txMgr.states := by
  unfold Db.purge
  cases hq : db.purging with
  | nil => exact ⟨hq, rfl, rfl⟩
  | cons t rest =>
    dsimp only
    split
    · exact ⟨rfl, rfl, rfl⟩
    · exact ⟨rfl, rfl, rfl⟩

theorem purgeAll (h : Reclaims db) (hinv : DbInv db) (es : List (Tombstone κ))
    (hlen : db.purging.length ≤ es.length) :
    Reclaims (es.foldl (fun db _ => db.purge) db) ∧ DbInv (es.foldl (fun db _ => db.purge) db) ∧
      (es.foldl (fun db _ => db.purge) db).purging = [] ∧
      (es.foldl (fun db _ => db.purge) db).versions = db.versions ∧
      (es.foldl (fun db _ => db.purge) db).txMgr.states = db.txMgr.states := by
  induction es generalizing db with
  | nil => exact ⟨h, hinv, List.length_eq_zero_iff.mp (Nat.le_zero.mp hlen), rfl, rfl⟩
  | cons e es ih =>
    obtain ⟨hpurging, hversions, hstates⟩ := purge_fields db
    have hlen' : db.purge.purging.length ≤ es.length := by
      rw [hpurging, List.length_tail]
      simp only [List.length_cons] at hlen
      omega
    obtain ⟨h1, h2, h3, h4, h5⟩ := ih h.purge hinv.purge hlen'
    exact ⟨h1, h2, h3, h4.trans hversions, h5.trans hstates⟩

/-- With nothing queued and nobody in flight, nothing is left. -/
theorem reclaimed (h : Reclaims db) (hinv : DbInv db) (hidle : ∀ t, ¬ InFlight db.txMgr t)
    (hqueue : db.queued = []) (hcommitted : db.versions.committed = [])
    (hhas : ∀ t, db.versions.hasWrites t = false) : db.Reclaimed where
  live key v hv := by
    obtain ⟨own, base, older, hk⟩ := hinv.key key
    have hbase : v ∈ base := by
      rcases List.mem_append.mp (hk.row_mem hv) with hown | hbase
      · obtain ⟨t, -, hin, -⟩ := hk.holder v hown
        exact absurd hin (hidle t)
      · exact hbase
    have hcom := (hk.committed_of_mem (List.mem_append_left _ hbase)).2
    obtain ⟨c, hc⟩ := Option.isSome_iff_exists.mp hcom
    obtain ⟨w, hw, hts⟩ := Option.bind_eq_some_iff.mp hc
    cases htomb : v.tombstoned with
    | false => rfl
    | true =>
      obtain ⟨e, he, -⟩ := h.tombstone key v w c hv htomb hw hts
      rw [hqueue] at he
      cases he
  preImages l := by
    cases hl : db.versions.preImages l with
    | none => rfl
    | some p =>
      obtain ⟨t, ht⟩ := h.owned l p hl
      have hnone := hhas t
      rw [VersionStore.hasWrites, Option.isSome_eq_false_iff, Option.isNone_iff_eq_none] at hnone
      simp [VersionStore.writtenBy, hnone] at ht
  byTxn t := by
    have hnone := hhas t
    rwa [VersionStore.hasWrites, Option.isSome_eq_false_iff, Option.isNone_iff_eq_none] at hnone
  retained := by
    have hcount : db.versions.retained = (db.versions.committed.map (·.2.2)).sum := h.counted
    rw [hcount, hcommitted]
    rfl

theorem maintenancePass (h : Reclaims db) (hinv : DbInv db) (hidle : db.txMgr.Idle) :
    db.maintenancePass.Reclaimed := by
  have haborting : db.txMgr.abortingIds = [] := by
    unfold TransactionManager.abortingIds
    rw [List.filter_eq_nil_iff]
    intro t _ hab
    exact not_inFlight hidle t (Or.inr (by simpa using hab))
  unfold Db.maintenancePass
  rw [haborting]
  dsimp only [List.foldl_nil]
  have hidle' : db.pruneCommitted.txMgr.Idle := by
    intro t
    show ((db.txMgr.states t).filter _).any _ = false
    have ht := hidle t
    cases hst : db.txMgr.states t with
    | none => rfl
    | some state =>
      rw [hst] at ht
      simp only [Option.filter]
      split
      · exact ht
      · rfl
  have hhorizon : db.pruneCommitted.txMgr.horizon = db.pruneCommitted.txMgr.clock := by
    unfold TransactionManager.horizon
    rw [oldestActive_eq_none hidle']
    rfl
  have h1 := h.pruneCommitted hinv
  have hinv1 := hinv.pruneCommitted
  obtain ⟨hcommitted, htombs, hhas⟩ := h1.vacuum_idle hinv1 hhorizon
    fun t ht => h.writers_pruneCommitted hinv hidle ht
  obtain ⟨h2, hinv2, hpurging, hversions, hstates⟩ :=
    (h1.vacuum hinv1).purgeAll hinv1.vacuum _ (Nat.le_refl _)
  apply h2.reclaimed hinv2
  · intro t hin
    unfold InFlight at hin
    rw [hstates] at hin
    exact not_inFlight hidle' t hin
  · unfold Db.queued
    rw [hpurging, hversions, htombs]
    rfl
  · rw [hversions, hcommitted]
  · intro t
    rw [hversions]
    exact hhas t

end Reclaims

/-- In every run whose steps keep the restored tombstones queued, a maintenance pass that
finds no transaction in flight leaves nothing of the past. -/
theorem reclaimed_of_run [DecidableEq κ] {as : List (Action κ δ)}
    (hok : Allowed Db.step Db.KeepsQueued Db.new as)
    (hidle : (run Db.step Db.new as).txMgr.Idle) :
    (run Db.step Db.new as).maintenancePass.Reclaimed := by
  have hboth : Reclaims (run Db.step Db.new as) ∧ DbInv (run Db.step Db.new as) :=
    (reachable_run as hok).invariant (I := fun db => Reclaims db ∧ DbInv db)
      ⟨Reclaims.new, Db.inv_new⟩
      fun db a h hkeeps => ⟨h.1.step h.2 hkeeps, Db.inv_step db a h.2⟩
  exact hboth.1.maintenancePass hboth.2 hidle

theorem idle_of_lt [DecidableEq κ] {db : Db κ δ} (hinv : DbInv db)
    (h : ∀ t < db.txMgr.clock, (db.txMgr.states t).any TxnState.isInFlight = false) :
    db.txMgr.Idle := by
  intro t
  by_cases hnone : db.txMgr.states t = none
  · rw [hnone]
    rfl
  · exact h t (hinv.txn.idLt t hnone)

/-- Transaction 7 revives a deleted key and rolls back while the tombstone is queued. -/
theorem reclaimed_of_run_revival :
    let as : List (Action Nat Nat) := [.begin .continueOnConflict,
      .insert 1 ⟨3, 10, none, none, false⟩, .commit 1, .begin .continueOnConflict,
      .remove 4 3, .commit 4, .begin .continueOnConflict,
      .insert 7 ⟨3, 20, none, none, false⟩, .abort 7 none]
    Allowed Db.step Db.KeepsQueued Db.new as ∧ (run Db.step Db.new as).txMgr.Idle ∧
      (run Db.step Db.new as).rows 3 = some ⟨3, 10, some 4, some 5, true⟩ ∧
      (run Db.step Db.new as).maintenancePass.Reclaimed := by
  intro as
  have hallowed : Allowed Db.step Db.KeepsQueued Db.new as := by
    refine ⟨trivial, ?_, trivial, trivial, ?_, trivial, trivial, ?_, ⟨rfl, ?_⟩, trivial⟩
    · exact fun hdown => absurd hdown.policy (by decide)
    · exact fun hdown => absurd hdown.policy (by decide)
    · exact fun hdown => absurd hdown.policy (by decide)
    · intro _ pre hpre _ _
      have hundo : (run Db.step Db.new (as.take 8)).versions.undoOf 7 =
          [.restore ⟨3, 10, some 4, some 5, true⟩] := by decide
      have hpre' : Undo.restore pre ∈ [Undo.restore ⟨3, 10, some 4, some 5, true⟩] :=
        hundo ▸ hpre
      cases List.mem_singleton.mp hpre'
      exact ⟨⟨6, 3, 4⟩, by decide, rfl, rfl⟩
  have hidle : (run Db.step Db.new as).txMgr.Idle :=
    idle_of_lt (Db.inv_run Db.inv_new as) (by decide)
  exact ⟨hallowed, hidle, by decide, reclaimed_of_run hallowed hidle⟩

/-- Transaction 7 revives the key, the purge finds its version and drops the tombstone
from the queue, and the rollback puts it back on the row: the next pass leaves it there. -/
theorem revived_and_rolled_back :
    let as : List (Action Nat Nat) := [.begin .continueOnConflict,
      .insert 1 ⟨3, 10, none, none, false⟩, .commit 1, .begin .continueOnConflict,
      .remove 4 3, .commit 4, .begin .continueOnConflict,
      .insert 7 ⟨3, 20, none, none, false⟩, .pruneCommitted, .vacuum, .purge, .abort 7 none]
    (run Db.step Db.new as).txMgr.Idle ∧
      (run Db.step Db.new as).maintenancePass.rows 3 = some ⟨3, 10, some 4, some 5, true⟩ ∧
      ¬ (run Db.step Db.new as).maintenancePass.Reclaimed := by
  intro as
  have hidle : (run Db.step Db.new as).txMgr.Idle :=
    idle_of_lt (Db.inv_run Db.inv_new as) (by decide)
  have hrow : (run Db.step Db.new as).maintenancePass.rows 3 =
      some ⟨3, 10, some 4, some 5, true⟩ := by decide
  refine ⟨hidle, hrow, fun hreclaimed => ?_⟩
  exact absurd (hreclaimed.live 3 _ hrow) (by decide)

end SquealDb.Store
