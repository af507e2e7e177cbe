import SquealDb.Store.Invariant

/-!
# Writing keeps the invariant

A write by an active transaction puts one more version in front of its key's
chain.  At the key it writes this is `KeyInv.write`; every other key is
framed; what the write leaves in the version store is `InsertFacts`.
-/

namespace SquealDb.Store

open Lib

variable {κ δ : Type*}

/-- What registering a write at a fresh `lsn` changes in the version store. -/
structure InsertFacts (s s' : VersionStore κ δ) (txn lsn : Nat)
    (current : Option (Tuple κ δ)) (u : Undo κ δ) : Prop where
  find_of_ne : ∀ l, l ≠ lsn → s'.find l = s.find l
  find_self : ∀ l x, s'.find l = some x → s.find l = some x ∨ l = lsn ∧ current = some x
  find_over : ∀ c, current = some c → s'.find lsn = some c
  replaced : ∀ t l, .replaced l ∈ s'.writtenBy t →
    .replaced l ∈ s.writtenBy t ∨ t = txn ∧ l = lsn
  hasWrites_self : s'.hasWrites txn = true
  hasWrites_of_ne : ∀ t, t ≠ txn → s'.hasWrites t = s.hasWrites t
  undoOf_self : s'.undoOf txn = s.undoOf txn ++ [u]
  undoOf_of_ne : ∀ t, t ≠ txn → s'.undoOf t = s.undoOf t
  committed : s'.committed = s.committed
  tombstones : s'.tombstones = s.tombstones

/-- The undo entries of writes registered earlier do not look at `lsn`. -/
theorem undoEntries_update {s : VersionStore κ δ} {lsn t : Nat} (x : Tuple κ δ)
    (deleted : Bool) (hlt : ∀ t l, .replaced l ∈ s.writtenBy t → l ≠ lsn) :
    (s.writtenBy t).filterMap (s.keepPreImage lsn x deleted).undoEntry = s.undoOf t := by
  unfold VersionStore.undoOf
  refine List.filterMap_congr fun w hw => ?_
  cases w with
  | inserted k => rfl
  | replaced l =>
    simp only [VersionStore.undoEntry, VersionStore.find_keepPreImage,
      Function.update_of_ne (hlt t l hw)]

/-- The new version names its own record, if any. -/
theorem WriteSpec.preLsn_eq {m : TransactionManager} {txn lsn : Nat} {key : κ}
    {current : Option (Tuple κ δ)} {op : Operation κ δ} {v : Tuple κ δ}
    (h : WriteSpec m txn lsn key current op v) {l : Nat} (hl : v.preLsn = some l) : l = lsn := by
  rcases h.replaces with ⟨-, hpl, -⟩ | ⟨c, w, -, -, -, hpl, -⟩
  · rw [hpl] at hl
    cases hl
  · exact (Option.some.inj (hpl.symm.trans hl)).symm

theorem WriteSpec.insertFacts {m : TransactionManager} {txn lsn : Nat} {key : κ}
    {current : Option (Tuple κ δ)} {op : Operation κ δ} {v : Tuple κ δ}
    (h : WriteSpec m txn lsn key current op v) (s : VersionStore κ δ)
    (hlt : ∀ t l, .replaced l ∈ s.writtenBy t → l ≠ lsn) {u : Undo κ δ}
    (hu : op.undo = some u) :
    InsertFacts s (s.insert lsn op) txn lsn current u := by
  obtain ⟨u', hu', hkey, htar⟩ := h.undo
  rw [hu] at hu'
  cases hu'
  rcases h.replaces with ⟨rfl, -, hins⟩ | ⟨c, w, rfl, -, -, -, deleted, hins⟩
  · obtain rfl : u = .remove key := by
      cases u with
      | remove k => exact congrArg Undo.remove hkey
      | restore pre => cases htar
    rw [hins s]
    refine ⟨fun _ _ => rfl, fun _ _ hx => Or.inl hx, (fun c hc => by cases hc), ?_, ?_, ?_,
      ?_, ?_, rfl, rfl⟩
    · intro t l hl
      by_cases ht : t = txn
      · subst ht
        exact Or.inl (by simpa using hl)
      · rw [VersionStore.writtenBy_push_of_ne _ _ _ ht] at hl
        exact Or.inl hl
    · simp [VersionStore.hasWrites, VersionStore.push]
    · intro t ht
      simp [VersionStore.hasWrites, VersionStore.push, ht]
    · simp only [VersionStore.undoOf, VersionStore.writtenBy_push_self,
        List.filterMap_append]
      rfl
    · intro t ht
      simp only [VersionStore.undoOf, VersionStore.writtenBy_push_of_ne _ _ _ ht]
      rfl
  · obtain rfl : u = .restore c := by
      cases u with
      | remove k => cases htar
      | restore pre => exact congrArg Undo.restore (Option.some.inj htar)
    rw [hins s]
    refine ⟨?_, ?_, ?_, ?_, ?_, ?_, ?_, ?_, rfl, rfl⟩
    · intro l hl
      simp [VersionStore.find_keepPreImage, hl]
    · intro l x hx
      by_cases hl : l = lsn
      · subst hl
        simp only [VersionStore.find_push, VersionStore.find_keepPreImage,
          Function.update_self] at hx
        exact Or.inr ⟨rfl, hx⟩
      · simp only [VersionStore.find_push, VersionStore.find_keepPreImage,
          Function.update_of_ne hl] at hx
        exact Or.inl hx
    · rintro x hx
      cases hx
      simp [VersionStore.find_keepPreImage]
    · intro t l hl
      by_cases ht : t = txn
      · subst ht
        simp only [VersionStore.writtenBy_push_self, VersionStore.writtenBy_keepPreImage,
          List.mem_append, List.mem_singleton, Written.replaced.injEq] at hl
        exact hl.imp_right fun h => ⟨rfl, h⟩
      · rw [VersionStore.writtenBy_push_of_ne _ _ _ ht,
          VersionStore.writtenBy_keepPreImage] at hl
        exact Or.inl hl
    · simp [VersionStore.hasWrites, VersionStore.push]
    · intro t ht
      simp [VersionStore.hasWrites, VersionStore.push, VersionStore.keepPreImage, ht]
    · rw [← undoEntries_update c deleted hlt]
      simp only [VersionStore.undoOf, VersionStore.writtenBy_push_self,
        VersionStore.writtenBy_keepPreImage, List.filterMap_append]
      congr 1
      simp [VersionStore.undoEntry, VersionStore.find_keepPreImage]
    · intro t ht
      rw [← undoEntries_update c deleted hlt]
      simp only [VersionStore.undoOf, VersionStore.writtenBy_push_of_ne _ _ _ ht,
        VersionStore.writtenBy_keepPreImage]
      rfl

/-- Everything committed before a version that committed before `t` began was
itself committed before `t` began. -/
theorem committedBefore_of_head {ts : Nat → Option Nat} {m : TransactionManager}
    {wrote : Nat → Prop} (ht : TxnInv m ts wrote) {x : Tuple κ δ}
    {xs : List (Tuple κ δ)} (hord : (x :: xs).Pairwise (BuiltOn ts)) {w c t : Nat}
    (hw : x.txnId = some w) (hc : ts w = some c) (hlt : c < t) :
    ∀ y ∈ x :: xs, ∃ wy cy, y.txnId = some wy ∧ ts wy = some cy ∧ cy < t := by
  intro y hy
  rcases List.mem_cons.mp hy with rfl | hy
  · exact ⟨w, c, hw, hc, hlt⟩
  · rcases (List.pairwise_cons.mp hord).1 y hy with heq | ⟨wu, wv, cv, hu, hv, hcv, hlt'⟩
    · exact ⟨w, c, heq ▸ hw, hc, hlt⟩
    · rw [hw] at hu
      cases hu
      have hb := (ht.tsBound w c hc).1
      exact ⟨wv, cv, hv, hcv, by omega⟩

variable [DecidableEq κ]

section KeyWrite

variable {m : TransactionManager} {log : List (LogRecord κ δ)}
  {find : Nat → Option (Tuple κ δ)} {key : κ} {row : Option (Tuple κ δ)}
  {own base older : List (Tuple κ δ)} {wrote : Nat → Prop}

/-- The holder of a key that `txn` may write is `txn`, and everything committed
there was committed before `txn` began. -/
theorem KeyInv.own_by_writer (h : KeyInv m log find key row own base older)
    (ht : TxnInv m (commitTs log) wrote) {txn : Nat} {p : ConflictPolicy}
    (hact : m.states txn = some (.active p)) (hwrote : ∀ t, WroteKey log t key → wrote t)
    (hfree : ∀ c, row = some c → ∃ w, c.txnId = some w ∧ m.conflicts w txn = false) :
    (∀ x ∈ own, x.txnId = some txn) ∧
      ∀ x ∈ base ++ older, ∃ w c, x.txnId = some w ∧ commitTs log w = some c ∧ c < txn := by
  have hnone : commitTs log txn = none := ht.activeTs txn p hact
  -- the writer of the row is `txn`, or committed before `txn` began
  have hvis : ∀ c, row = some c →
      ∃ w, c.txnId = some w ∧ Visible (commitTs log) w txn := by
    intro c hc
    obtain ⟨w, hw, hfree⟩ := hfree c hc
    refine ⟨w, hw, ?_⟩
    rcases List.mem_append.mp (h.row_mem hc) with hm | hm
    · obtain ⟨t, htx, hfl, hwk⟩ := h.holder c hm
      rw [hw] at htx
      cases htx
      refine ht.visible_of_not_conflicts (Or.inl hact) (hwrote w hwk) ?_ hfree
      intro hst
      exact absurd (hst ▸ trivial) (not_settled_of_inFlight hfl)
    · obtain ⟨hmem, hcom⟩ := h.committed_of_mem (List.mem_append_left older hm)
      refine ht.visible_of_not_conflicts (Or.inl hact) (hwrote w ⟨c, hmem, hw⟩) ?_ hfree
      intro hst
      obtain ⟨cw, hcw⟩ := (committedBy_iff hw).mp hcom
      exact ⟨cw, hcw, ht.absentTs w cw hst hcw txn p hact⟩
  have hown : ∀ x ∈ own, x.txnId = some txn := by
    intro x hx
    have hne : own ≠ [] := List.ne_nil_of_mem hx
    obtain ⟨o, os, rfl⟩ := List.exists_cons_of_ne_nil hne
    have hrow : row = some o := h.path.head_eq hne
    obtain ⟨w, hw, hv⟩ := hvis o hrow
    rw [h.own_by hrow hne hx, hw]
    rcases hv with rfl | ⟨c, hc, -⟩
    · rfl
    · exact absurd ((committedBy_iff hw).mpr ⟨c, hc⟩)
        (h.not_committed_of_own ht (List.mem_cons_self))
  refine ⟨hown, ?_⟩
  cases hown' : own with
  | cons o os =>
    -- the holder has written here before, over what was committed
    intro x hx
    have hord := h.ordered
    rw [hown', List.append_assoc, List.cons_append] at hord
    have hb := (List.pairwise_cons.mp hord).1 x (List.mem_append_right _ hx)
    have ho : o.txnId = some txn := hown o (by simp [hown'])
    obtain ⟨-, hcom⟩ := h.committed_of_mem hx
    rcases hb with heq | ⟨wu, wv, c, hu, hv, hc, hlt⟩
    · rw [committedBy_iff (heq ▸ ho : x.txnId = some txn), hnone] at hcom
      obtain ⟨c, hc⟩ := hcom
      cases hc
    · rw [ho] at hu
      cases hu
      exact ⟨wv, c, hv, hc, hlt⟩
  | nil =>
    have hord := h.ordered
    rw [hown', List.nil_append] at hord
    cases hbase : base with
    | cons b bs =>
      have hrow : row = some b := by
        rw [h.row_eq_head, hown', hbase]
        rfl
      obtain ⟨w, hw, hv⟩ := hvis b hrow
      obtain ⟨-, hcom⟩ := h.committed_of_mem
        (List.mem_append_left older (hbase ▸ List.mem_cons_self : b ∈ base))
      rcases hv with rfl | ⟨c, hc, hlt⟩
      · rw [committedBy_iff hw, hnone] at hcom
        obtain ⟨c, hc⟩ := hcom
        cases hc
      · rw [hbase] at hord
        exact committedBefore_of_head ht hord hw hc hlt
    | nil =>
      -- nothing is left on the page: what was committed is seen by all
      rw [hbase] at hord
      rcases h.cut with hnil | ⟨v, hv, -⟩ | ⟨v, hv, ⟨w, c, hw, hc, hall⟩, -⟩
      · simp [hnil]
      · simp [hbase] at hv
      · obtain ⟨os, rfl⟩ : ∃ os, older = v :: os := by
          cases older with
          | nil => cases hv
          | cons o os =>
            cases hv
            exact ⟨os, rfl⟩
        exact committedBefore_of_head ht hord hw hc (hall txn p hact)

omit [DecidableEq κ] in
theorem WriteSpec.commits_eq_none {txn lsn : Nat} {op : Operation κ δ} {v : Tuple κ δ}
    (h : WriteSpec m txn lsn key row op v) : op.commits = none := by
  have hw := h.writer
  cases op with
  | commit t => cases hw
  | add => rfl
  | mod => rfl
  | del => rfl
  | rollback => rfl
  | purge => rfl

theorem wroteKey_append (log : List (LogRecord κ δ)) {txn : Nat} {r : LogRecord κ δ}
    {v : Tuple κ δ} (hr : r.written = some v) (hv : v.txnId = some txn) (hkey : v.id = key)
    (t : Nat) :
    WroteKey (log ++ [r]) t key ↔ WroteKey log t key ∨ t = txn := by
  unfold WroteKey
  rw [versionsOf_append_self log r hr hkey]
  simp only [List.mem_append, List.mem_singleton, or_and_right, exists_or, exists_eq_left,
    hv, Option.some.injEq]
  rw [eq_comm (a := t)]

/-- A write by an active transaction puts its version in front of the chain. -/
theorem KeyInv.write (h : KeyInv m log find key row own base older)
    (ht : TxnInv m (commitTs log) wrote) {txn lsn : Nat} {p : ConflictPolicy}
    (hact : m.states txn = some (.active p)) (hwrote : ∀ t, WroteKey log t key → wrote t)
    {op : Operation κ δ} {v : Tuple κ δ} (hw : WriteSpec m txn lsn key row op v)
    {find' : Nat → Option (Tuple κ δ)}
    (hfind : ∀ l x, find l = some x → find' l = some x)
    (hpre : ∀ x ∈ own ++ base, ∀ l, x.preLsn = some l → find' l = find l ∧ l < lsn)
    (hover : ∀ c, row = some c → find' lsn = some c)
    (hundo : ∀ t, WroteKey log t key ↔ undosOn log t key ≠ []) :
    KeyInv m (log ++ [⟨lsn, op⟩]) find' key (some v) (v :: own) base older := by
  have hts : commitTs (log ++ [⟨lsn, op⟩]) = commitTs log :=
    commitTs_append_other log _ hw.commits_eq_none
  have hvers : versionsOf (log ++ [⟨lsn, op⟩]) key = versionsOf log key ++ [v] :=
    versionsOf_append_self log _ hw.written hw.id
  have hwk := fun t => wroteKey_append log (r := ⟨lsn, op⟩) hw.written hw.txnId hw.id t
  have hnone : commitTs log txn = none := ht.activeTs txn p hact
  have hvnc : ¬ CommittedBy (commitTs log) v := by
    rw [committedBy_iff hw.txnId, hnone]
    rintro ⟨c, hc⟩
    cases hc
  have hfree : ∀ c, row = some c → ∃ w, c.txnId = some w ∧ m.conflicts w txn = false := by
    intro c hc
    rcases hw.replaces with ⟨hnil, -, -⟩ | ⟨c', w, hc', hcw, hnc, -⟩
    · rw [hc] at hnil
      cases hnil
    · rw [hc] at hc'
      cases hc'
      exact ⟨w, hcw, hnc⟩
  obtain ⟨hown, hbefore⟩ := h.own_by_writer ht hact hwrote hfree
  have hpath' : Path Tuple.preLsn find' row own base.head? :=
    h.path.mono_store fun _ _ _ l x _ hl => hfind l x hl
  have hwkOwn : own ≠ [] ↔ WroteKey log txn key := by
    constructor
    · intro hne
      obtain ⟨o, os, rfl⟩ := List.exists_cons_of_ne_nil hne
      obtain ⟨t, hto, -, hwt⟩ := h.holder o (by simp)
      rw [hown o (by simp)] at hto
      cases hto
      exact hwt
    · intro hwt
      exact (h.active txn p hact hwt).1
  refine ⟨?_, ?_, ?_, ?_, ?_, hts ▸ h.cut, ?_, ?_, ?_, ?_⟩
  · rcases hw.replaces with ⟨hnil, hpl, -⟩ | ⟨c, w, hc, -, -, hpl, -⟩
    · have hempty : own = [] ∧ base = [] := by
        have hhead := h.row_eq_head
        rw [hnil, eq_comm, List.head?_eq_none_iff, List.append_eq_nil_iff] at hhead
        exact hhead
      rw [hempty.1, hempty.2]
      exact Path.first hpl
    · refine Path.cons hpl (hover c hc) ?_ (hc ▸ hpath')
      intro l' hl'
      exact (hpre c (h.row_mem hc) l' hl').2
  · rw [hts]
    exact h.chain.congr_store fun x hx l hl => (hpre x (List.mem_append_right _ hx) l hl).1
  · intro x hx
    rw [List.cons_append, List.mem_cons] at hx
    rcases hx with rfl | hx
    · exact hw.id
    · exact h.keyed x hx
  · have hhist := h.history
    unfold committedVersions at hhist ⊢
    rw [hvers, hts, List.filter_append, List.filter_singleton, decide_eq_false hvnc]
    simpa using hhist
  · rw [hts, List.cons_append, List.cons_append, List.pairwise_cons]
    refine ⟨fun x hx => ?_, h.ordered⟩
    rw [List.append_assoc, List.mem_append] at hx
    rcases hx with hx | hx
    · exact Or.inl (hw.txnId.trans (hown x hx).symm)
    · obtain ⟨wx, cx, hwx, hcx, hlt⟩ := hbefore x hx
      exact Or.inr ⟨txn, wx, cx, hw.txnId, hwx, hcx, hlt⟩
  · intro x hx
    rcases List.mem_cons.mp hx with rfl | hx
    · exact ⟨txn, hw.txnId, Or.inl ⟨p, hact⟩, (hwk txn).mpr (Or.inr rfl)⟩
    · obtain ⟨t, htx, hfl, hwt⟩ := h.holder x hx
      exact ⟨t, htx, hfl, (hwk t).mpr (Or.inl hwt)⟩
  · have hall : ∀ x ∈ v :: own, x.txnId = some txn := by
      intro x hx
      rcases List.mem_cons.mp hx with rfl | hx
      · exact hw.txnId
      · exact hown x hx
    intro a ha b hb
    rw [hall a ha, hall b hb]
  · intro t q hq hwt
    have htxn : t = txn := by
      rcases (hwk t).mp hwt with hwt | rfl
      · obtain ⟨hne, hby, -⟩ := h.active t q hq hwt
        obtain ⟨o, os, rfl⟩ := List.exists_cons_of_ne_nil hne
        have heq := (hby o (by simp)).symm.trans (hown o (by simp))
        exact Option.some.inj heq
      · rfl
    subst htxn
    refine ⟨List.cons_ne_nil _ _, ?_, ?_⟩
    · intro x hx
      rcases List.mem_cons.mp hx with rfl | hx
      · exact hw.txnId
      · exact hown x hx
    · rw [hvers, hts, List.filter_append, List.filter_singleton]
      simp only [hw.txnId, decide_true, Bool.or_true, List.cons_append,
        List.reverse_cons]
      congr 1
      by_cases hold : WroteKey log t key
      · exact (h.active t q hq hold).2.2
      · have hnil : own = [] := by
          by_contra hne
          exact hold (hwkOwn.mp hne)
        rw [hnil, List.nil_append, ← h.history, List.reverse_reverse]
        unfold committedVersions
        refine List.filter_congr fun x hx => ?_
        have hxt : x.txnId ≠ some t := fun hxt => hold ⟨x, hx, hxt⟩
        simp [hxt]
  · intro t x htf hx hxt
    cases hx
    rw [hw.txnId] at hxt
    cases hxt
    obtain ⟨u, hu, hukey, hutar⟩ := hw.undo
    have hundos : undosOn (log ++ [⟨lsn, op⟩]) txn key = undosOn log txn key ++ [u] :=
      undosOn_append_self log _ hw.writer hu hukey
    rw [hundos]
    by_cases hne : own = []
    · have hnil : undosOn log txn key = [] := by
        by_contra hne'
        exact hwkOwn.mpr ((hundo txn).mpr hne') hne
      refine ⟨u, [], by rw [hnil]; rfl, ?_, by simp⟩
      subst hne
      rw [hutar]
      exact hpath'.eq_of_nil
    · obtain ⟨o, os, rfl⟩ := List.exists_cons_of_ne_nil hne
      have hrow : row = some o := h.path.head_eq hne
      obtain ⟨u0, rest, hu0, htar0, hrest⟩ := h.undo txn o (Or.inl ⟨p, hact⟩) hrow
        (hown o (by simp))
      refine ⟨u0, rest ++ [u], by rw [hu0]; rfl, htar0, ?_⟩
      intro u' hu'
      rcases List.mem_append.mp hu' with hu' | hu'
      · obtain ⟨q, own', hq, hne', hby, hpa⟩ := hrest u' hu'
        exact ⟨q, own', hq, hne', hby, hpa.mono_store fun _ _ _ l x _ hl => hfind l x hl⟩
      · rw [List.mem_singleton] at hu'
        subst hu'
        refine ⟨o, o :: os, hutar.trans hrow, hne, fun x hx => ?_, hrow ▸ hpath'⟩
        exact ⟨hown x hx, h.keyed x (List.mem_append_left _ hx)⟩

end KeyWrite

namespace DbInv

section DbWrite

variable {db : Db κ δ} (h : DbInv db) {txn : Nat} {p : ConflictPolicy} {key : κ}
  {op : Operation κ δ} {v : Tuple κ δ}
  (hw : WriteSpec db.nextLsn.1.txMgr txn db.nextLsn.2 key (db.rows key) op v)

include h hw

theorem facts_write {u : Undo κ δ} (hu : op.undo = some u) :
    InsertFacts db.versions (db.versions.insert db.nextLsn.2 op) txn db.nextLsn.2 (db.rows key) u :=
  hw.insertFacts db.versions (fun t l hl => Nat.ne_of_lt (h.writtenLt t l hl)) hu

/-- What can be met after the write: the new version, and what could be before. -/
theorem stored_write {x : Tuple κ δ} (hx : Stored (db.nextLsn.1.write db.nextLsn.2 key op v) x) :
    x = v ∨ Stored db x := by
  obtain ⟨u, hu, -⟩ := hw.undo
  rcases hx with ⟨k, hk⟩ | ⟨l, hl⟩
  · by_cases hkk : k = key
    · subst hkk
      simp only [Db.write, Function.update_self] at hk
      exact Or.inl (Option.some.inj hk).symm
    · simp only [Db.write, Function.update_of_ne hkk] at hk
      exact Or.inr (Or.inl ⟨k, hk⟩)
  · rcases (h.facts_write hw hu).find_self l x hl with hl | ⟨-, hcur⟩
    · exact Or.inr (Or.inr ⟨l, hl⟩)
    · exact Or.inr (Or.inl ⟨key, hcur⟩)

omit [DecidableEq κ] h in
theorem recordWf_write (x : Tuple κ δ)
    (hx : LogRecord.written ⟨db.txMgr.clock, op⟩ = some x) : RecordWf ⟨db.txMgr.clock, op⟩ x := by
  obtain ⟨u, hu, hukey, hutar⟩ := hw.undo
  obtain rfl : v = x := Option.some.inj (hw.written.symm.trans hx)
  refine ⟨hw.txnId.trans hw.writer.symm, ⟨txn, hw.writer⟩, u, hu, hukey.trans hw.id.symm, ?_⟩
  rw [hutar]
  rcases hw.replaces with ⟨hnil, hpl, -⟩ | ⟨c, w, hc, -, -, hpl, -⟩
  · exact iff_of_true hnil hpl
  · exact iff_of_false (by rw [hc]; simp) (by simp [hpl])

/-- At the key the new version is put in front; the other keys are framed. -/
theorem key_write (hact : db.txMgr.states txn = some (.active p)) (k : κ) :
    ∃ own base older, KeyInv db.nextLsn.1.txMgr (db.log ++ [⟨db.nextLsn.2, op⟩])
      (db.versions.insert db.nextLsn.2 op).find k
      ((db.nextLsn.1.write db.nextLsn.2 key op v).rows k) own base older := by
  obtain ⟨u, hu, hukey, -⟩ := hw.undo
  have hfacts := h.facts_write hw hu
  have hfind : ∀ l x, db.versions.find l = some x →
      (db.versions.insert db.nextLsn.2 op).find l = some x := by
    intro l x hl
    rw [hfacts.find_of_ne l (Nat.ne_of_lt (h.findLt l x hl))]
    exact hl
  obtain ⟨own, base, older, hk⟩ := h.nextLsn.key k
  have hpre : ∀ x ∈ own ++ base, ∀ l, x.preLsn = some l →
      (db.versions.insert db.nextLsn.2 op).find l = db.versions.find l ∧ l < db.nextLsn.2 := by
    intro x hx l hl
    have hstored : Stored db x :=
      (hk.full_chain.mem_stored hx).imp (fun hrow => ⟨k, hrow⟩) fun hl => hl
    have hlt := h.preLt x l hstored hl
    exact ⟨hfacts.find_of_ne l (Nat.ne_of_lt hlt), hlt⟩
  by_cases hkk : k = key
  · subst hkk
    refine ⟨v :: own, base, older, ?_⟩
    simp only [Db.write, Function.update_self]
    exact hk.write h.nextLsn.txn hact (fun t => h.wrote_of_wroteKey) hw hfind hpre
      hfacts.find_over (h.wroteKey_iff_undosOn · k)
  · have hk' : KeyInv db.nextLsn.1.txMgr db.log db.versions.find k (db.rows k) own
        (base ++ []) older := by rwa [List.append_nil]
    refine ⟨own, base, older, ?_⟩
    simp only [Db.write, Function.update_of_ne hkk]
    have hid : v.id ≠ k := fun heq => hkk (heq.symm.trans hw.id)
    refine hk'.frame (commitTs_append_other _ _ hw.commits_eq_none)
      (versionsOf_append_of_ne _ _ hw.written hid) ?_ (fun _ => rfl)
      ?_ hk.cut ?_ (fun _ _ l x _ _ _ _ hs => hfind l x hs) (fun _ q hq => Or.inl ⟨q, hq⟩)
      (fun _ ht => Or.inl ht) ?_
    · exact fun t => undosOn_append_of_ne_key _ _ hu fun heq => hkk (heq.symm.trans hukey)
    · exact hk.chain.congr_store fun x hx l hl => (hpre x (List.mem_append_right _ hx) l hl).1
    · exact fun t u' x ht hu' hx => h.stored_of_undo ht hu' hx
    · intro x hx t ht
      obtain ⟨t', ht', hfl, -⟩ := hk.holder x hx
      rw [ht] at ht'
      cases ht'
      exact hfl

/-- The writer keeps the version it replaced. -/
theorem owner_write (x : Tuple κ δ) (l t : Nat)
    (hx : Stored (db.nextLsn.1.write db.nextLsn.2 key op v) x) (hpl : x.preLsn = some l)
    (hl : .replaced l ∈ (db.versions.insert db.nextLsn.2 op).writtenBy t) : x.txnId = some t := by
  obtain ⟨u, hu, -⟩ := hw.undo
  rcases (h.facts_write hw hu).replaced t l hl with hold | ⟨rfl, rfl⟩
  · rcases h.stored_write hw hx with rfl | hx
    · have hlt := h.writtenLt t l hold
      rw [hw.preLsn_eq hpl] at hlt
      exact absurd hlt (Nat.lt_irrefl _)
    · exact h.owner x l t hx hpl hold
  · rcases h.stored_write hw hx with rfl | hx
    · exact hw.txnId
    · exact absurd (h.preLt x _ hx hpl) (Nat.lt_irrefl _)

theorem ownerUnique_write (l t t' : Nat)
    (hl : .replaced l ∈ (db.versions.insert db.nextLsn.2 op).writtenBy t)
    (hl' : .replaced l ∈ (db.versions.insert db.nextLsn.2 op).writtenBy t') : t = t' := by
  obtain ⟨u, hu, -⟩ := hw.undo
  have hreplaced := (h.facts_write hw hu).replaced
  rcases hreplaced t l hl with hl | ⟨rfl, rfl⟩
  · rcases hreplaced t' l hl' with hl' | ⟨-, rfl⟩
    · exact h.ownerUnique l t t' hl hl'
    · exact absurd (h.writtenLt t _ hl) (Nat.lt_irrefl _)
  · rcases hreplaced t' _ hl' with hl' | ⟨rfl, -⟩
    · exact absurd (h.writtenLt t' _ hl') (Nat.lt_irrefl _)
    · rfl

/-- The undos of the key are those before, with the write's own behind them. -/
theorem undoShape_write (hact : db.txMgr.states txn = some (.active p)) (t : Nat) (k : κ)
    (u₀ : Undo κ δ) (rest : List (Undo κ δ))
    (hundos : undosOn (db.log ++ [⟨db.nextLsn.2, op⟩]) t k = u₀ :: rest) :
    (∀ c, u₀.target = some c → c.txnId ≠ some t) ∧
      ∀ u' ∈ rest, ∃ c, u'.target = some c ∧ c.txnId = some t := by
  obtain ⟨u, hu, hukey, hutar⟩ := hw.undo
  by_cases heq : t = txn ∧ k = key
  · obtain ⟨rfl, rfl⟩ := heq
    obtain ⟨own, base, older, hk⟩ := h.nextLsn.key k
    rw [undosOn_append_self _ _ hw.writer hu hukey] at hundos
    cases hold : undosOn db.log t k with
    | nil =>
      rw [hold, List.nil_append] at hundos
      cases hundos
      refine ⟨fun c hc hct => ?_, by simp⟩
      rw [hutar] at hc
      obtain ⟨u1, rest1, h1', -⟩ := hk.undo t c (Or.inl ⟨p, hact⟩) hc hct
      rw [show db.nextLsn.1.log = db.log from rfl, hold] at h1'
      cases h1'
    | cons u1 rest1 =>
      rw [hold, List.cons_append] at hundos
      cases hundos
      obtain ⟨hfirst, hrest⟩ := h.undoShape t k u₀ rest1 hold
      refine ⟨hfirst, List.forall_mem_append.mpr ⟨hrest, List.forall_mem_singleton.mpr ?_⟩⟩
      have hwk : WroteKey db.log t k :=
        (h.wroteKey_iff_undosOn t k).mpr (by rw [hold]; simp)
      obtain ⟨hne, hby, -⟩ := hk.active t p hact hwk
      obtain ⟨o, os, rfl⟩ := List.exists_cons_of_ne_nil hne
      exact ⟨o, hutar.trans (hk.path.head_eq hne), hby o (by simp)⟩
  · refine h.undoShape t k u₀ rest ?_
    rw [← hundos]
    by_cases hk : k = key
    · have hne : op.writer ≠ some t := by
        rw [hw.writer]
        exact fun hh => heq ⟨(Option.some.inj hh).symm, hk⟩
      exact (undosOn_append_of_ne _ _ hne).symm
    · exact (undosOn_append_of_ne_key _ _ hu fun hh => hk (hh.symm.trans hukey)).symm

/-- A write by an active transaction keeps the invariant. -/
theorem write (hact : db.txMgr.states txn = some (.active p)) :
    DbInv (db.nextLsn.1.write db.nextLsn.2 key op v) := by
  obtain ⟨u, hu, -⟩ := hw.undo
  have hfacts := h.facts_write hw hu
  have hts : commitTs (db.log ++ [⟨db.nextLsn.2, op⟩]) = commitTs db.log :=
    commitTs_append_other _ _ hw.commits_eq_none
  have hwr : Wrote (db.log ++ [⟨db.nextLsn.2, op⟩]) = fun id => Wrote db.log id ∨ id = txn :=
    wrote_append_write _ _ hw.writer
  obtain ⟨hlt, hord, hwf⟩ := h.log_append op (recordWf_write hw)
  refine ⟨hts ▸ hwr ▸ (h.txn.markWrote (Or.inl ⟨p, hact⟩)).nextLsn, h.noCommitting, hlt, hord,
    hwf, h.key_write hw hact, ?_, ?_, ?_, h.owner_write hw, h.ownerUnique_write hw, ?_, ?_, ?_,
    h.undoShape_write hw hact, ?_, ?_, ?_⟩
  · intro l x hl
    rcases hfacts.find_self l x hl with hl | ⟨rfl, -⟩
    · exact Nat.lt_succ_of_lt (h.findLt l x hl)
    · exact Nat.lt_succ_self _
  · intro x l hx hl
    rcases h.stored_write hw hx with rfl | hx
    · obtain rfl := hw.preLsn_eq hl
      exact Nat.lt_succ_self _
    · exact Nat.lt_succ_of_lt (h.preLt x l hx hl)
  · intro t l hl
    rcases hfacts.replaced t l hl with hl | ⟨-, rfl⟩
    · exact Nat.lt_succ_of_lt (h.writtenLt t l hl)
    · exact Nat.lt_succ_self _
  · intro t ht
    by_cases heq : t = txn
    · subst heq
      exact Nat.lt_succ_of_lt (h.txn.idLt t (by simp [hact]))
    · refine Nat.lt_succ_of_lt (h.byTxnLt t ?_)
      rw [← hfacts.hasWrites_of_ne t heq]
      exact ht
  · intro t ht
    show _ ↔ Wrote (db.log ++ [⟨db.nextLsn.2, op⟩]) t
    rw [hwr]
    by_cases heq : t = txn
    · subst heq
      exact iff_of_true hfacts.hasWrites_self (Or.inr rfl)
    · have hold := h.hasWrites t ht
      rw [← hfacts.hasWrites_of_ne t heq] at hold
      exact hold.trans (by simp [heq])
  · intro t ht
    by_cases heq : t = txn
    · subst heq
      have hold := h.undoOf t ht
      exact hfacts.undoOf_self.trans
        ((congrArg (· ++ [u]) hold).trans (undosOf_append_self _ _ hw.writer hu).symm)
    · have hne : op.writer ≠ some t := by
        rw [hw.writer]
        exact fun hh => heq (Option.some.inj hh).symm
      exact (hfacts.undoOf_of_ne t heq).trans
        ((h.undoOf t ht).trans (undosOf_append_of_ne _ _ hne).symm)
  · intro e he
    exact (congrFun hts e.2.1).trans (h.committedQueue e (hfacts.committed ▸ he))
  · intro t ht
    exact (congrFun hts t.txn).trans (h.tombstones t (hfacts.tombstones ▸ ht))
  · intro t ht
    obtain ⟨hc, hall⟩ := h.purging t ht
    exact ⟨(congrFun hts t.txn).trans hc, hall⟩

end DbWrite

end DbInv

end SquealDb.Store
