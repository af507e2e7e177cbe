import SquealDb.Store.Retention
import Mathlib.Tactic.Set

/-!
# A commit that fails

`commit_id_with` begins a commit, queues its record and finishes the commit;
where the record cannot be queued the transaction is active again, and may go
on reading.  In between it is `Committing`, and nothing is kept for its sake.
-/

namespace SquealDb.Store

namespace Retention

variable {κ δ : Type*}

/-- What a step may do while `r` is committing: anything but finish that commit,
with no transaction forgotten that committed after `r` began. -/
def Spares (r : Nat) (s : Retention κ δ) : RetentionAction κ δ → Prop
  | .finishCommit txn _ => txn ≠ r
  | .pruneCommitted => ∀ w c, s.mgr.states w = some (.committed c) → r < c →
      TransactionManager.keptByPrune s.mgr.oldestActive (.committed c) = true
  | .vacuum => ∀ e ∈ s.versions.committed, r < e.1 → s.mgr.horizon ≤ e.1
  | _ => True

/-! ## The window -/

variable {w r : Nat} {s : Retention κ δ} {v : VersionStore κ δ}

/-- What a step does to the entry of a transaction that has begun. -/
theorem step_entry (s : Retention κ δ) (a : RetentionAction κ δ) (hw : w < s.mgr.clock) :
    EntryStep s a (step s a).mgr.clock w (s.mgr.states w) ((step s a).mgr.states w) := by
  by_cases hb : ∃ policy, a = .begin policy
  · obtain ⟨policy, rfl⟩ := hb
    simp only [step, TransactionManager.createTransaction]
    rw [Function.update_of_ne (Nat.ne_of_lt hw)]
    exact .same _
  · exact (step_table s a fun policy ha => hb ⟨policy, ha⟩).entry w

theorem step_clock (s : Retention κ δ) (a : RetentionAction κ δ) :
    s.mgr.clock ≤ (step s a).mgr.clock := by
  by_cases hb : ∃ policy, a = .begin policy
  · obtain ⟨policy, rfl⟩ := hb
    exact Nat.le_succ _
  · exact (step_table s a fun policy ha => hb ⟨policy, ha⟩).clock

/-- What a step adds to the history: a writer, or the timestamp of a commit that
is finished. -/
theorem step_history (s : Retention κ δ) (a : RetentionAction κ δ) (w : Nat) :
    (s.wrote w = true → (step s a).wrote w = true) ∧
      ((∀ c p, s.mgr.states w ≠ some (.committing c p)) →
        (step s a).committedAt w = s.committedAt w) := by
  cases a with
  | write op =>
    simp only [step, write]
    split
    · exact ⟨id, fun _ => rfl⟩
    · next txn _ =>
        split
        · refine ⟨fun hw => ?_, fun _ => rfl⟩
          by_cases heq : w = txn
          · simp [heq]
          · simp [heq, hw]
        · exact ⟨id, fun _ => rfl⟩
  | finishCommit txn logged =>
    simp only [step, finishCommit]
    split
    · next c p hst =>
        refine ⟨id, fun hw => Function.update_of_ne ?_ _ _⟩
        rintro rfl
        exact hw c p hst
    · exact ⟨id, fun _ => rfl⟩
  | beginCommit txn =>
    simp only [step, beginCommit]
    split
    · split <;> exact ⟨id, fun _ => rfl⟩
    · exact ⟨id, fun _ => rfl⟩
  | markCommitted txn =>
    simp only [step, markCommitted]
    split <;> exact ⟨id, fun _ => rfl⟩
  | commitReadOnly txn =>
    simp only [step, commitReadOnly]
    split
    · exact ⟨id, fun _ => rfl⟩
    · split <;> exact ⟨id, fun _ => rfl⟩
  | abort txn =>
    simp only [step]
    split <;> exact ⟨id, fun _ => rfl⟩
  | abortComplete txn =>
    simp only [step, abortComplete]
    split <;> exact ⟨id, fun _ => rfl⟩
  | endReadOnly txn =>
    simp only [step]
    split
    · exact ⟨id, fun _ => rfl⟩
    · split <;> exact ⟨id, fun _ => rfl⟩
  | discard txn =>
    simp only [step]
    split <;> exact ⟨id, fun _ => rfl⟩
  | begin policy => exact ⟨id, fun _ => rfl⟩
  | pruneCommitted => exact ⟨id, fun _ => rfl⟩
  | vacuum => exact ⟨id, fun _ => rfl⟩

/-- A writer that is lost stays lost. -/
theorem Lost.step {s : Retention κ δ} {w : Nat} (h : s.Lost w) (hw : w < s.mgr.clock)
    (a : RetentionAction κ δ) : (step s a).Lost w := by
  refine ⟨?_, ((step_history s a w).2 (by simp [h.1])).trans h.2⟩
  have he := step_entry s a hw
  rw [h.1] at he
  generalize hnew : (Retention.step s a).mgr.states w = new at he
  cases he
  rfl

/-- The answer about a writer does not change, or the writer is lost. -/
theorem step_answer (h : Inv s) (hr : s.mgr.states r ≠ none) {a : RetentionAction κ δ}
    (hok : Spares r s a) (hw : s.wrote w = true) {b : Bool}
    (hb : s.mgr.isVisibleOnce w r = some b) :
    (step s a).Lost w ∨ (step s a).mgr.isVisibleOnce w r = some b := by
  by_cases hself : w = r
  · have hyes : ∀ m : TransactionManager, m.isVisibleOnce w r = some true := by
      intro m
      simp [TransactionManager.isVisibleOnce, hself]
    rw [hyes] at hb ⊢
    exact Or.inr hb
  have hclock := h.idLt r hr
  have he := step_entry s a (h.wroteLt w hw)
  unfold TransactionManager.isVisibleOnce at hb ⊢
  rw [if_neg hself] at hb ⊢
  have hts : ∀ st, s.mgr.states w = some st → (∀ c, st ≠ .committed c) →
      (∀ c p, st ≠ .committing c p) → (step s a).committedAt w = none := by
    intro st hst hopen hcommitting
    refine ((step_history s a w).2 fun c p hp => ?_).trans (h.openTs w st hst hopen)
    rw [hst] at hp
    exact hcommitting c p (Option.some.inj hp)
  have hregistered : ∀ p, s.mgr.states w = some (.active p) →
      s.versions.hasWrites w ≠ false := by
    intro p hst
    have hreg := h.registered w hw (h.openTs w _ hst (by simp)) (by simp [hst])
    simp [hreg]
  generalize hold : s.mgr.states w = old at he hb
  generalize hnew : (step s a).mgr.states w = new at he
  cases he with
  | same => exact Or.inr hb
  | beginCommit p =>
    dsimp only at hb ⊢
    rw [if_pos hclock]
    exact Or.inr hb
  | logged c p =>
    dsimp only at hb ⊢
    split at hb
    · next hgt =>
        rw [← hb]
        exact Or.inr (by simp; omega)
    · cases hb
  | failed c p =>
    dsimp only at hb ⊢
    split at hb
    · exact Or.inr hb
    · cases hb
  | commitReadOnly p hread => exact absurd hread (hregistered p hold)
  | endReadOnly p hread => exact absurd hread (hregistered p hold)
  | abort p => exact Or.inr hb
  | aborted st a' hkind =>
    rcases hkind with rfl | ⟨b', rfl⟩
    · exact Or.inr hb
    · exact Or.inr hb
  | forgotten st hkind =>
    refine Or.inl ⟨hnew, hts st hold ?_ ?_⟩
    · rcases hkind with rfl | ⟨b', rfl⟩ <;> simp
    · rcases hkind with rfl | ⟨b', rfl⟩ <;> simp
  | pruned c ha hdrop =>
    subst ha
    obtain ⟨-, hne⟩ := h.stamp w c (Or.inl hold)
    have hle : ¬ r < c := by
      intro hlt
      rw [hok w c hold hlt] at hdrop
      cases hdrop
    have hlt : c < r := by
      have := hne r hr
      omega
    rw [← hb]
    exact Or.inr (by simp [hlt])

/-- Who is seen is no conflict, and who is not is one. -/
theorem conflicts_eq_not (h : Inv s) (hr : s.mgr.states r ≠ none) (hne : w ≠ r) {b : Bool}
    (hb : s.mgr.isVisibleOnce w r = some b) : s.mgr.conflicts w r = !b := by
  unfold TransactionManager.isVisibleOnce at hb
  unfold TransactionManager.conflicts
  rw [if_neg hne] at hb ⊢
  cases hst : s.mgr.states w with
  | none =>
    rw [hst] at hb
    cases hb
    rfl
  | some st =>
    rw [hst] at hb
    cases st with
    | committed c =>
      cases hb
      have hcr := (h.stamp w c (Or.inl hst)).2 r hr
      dsimp only
      rw [Bool.eq_iff_iff]
      simp only [decide_eq_true_eq, Bool.not_eq_true', decide_eq_false_iff_not]
      omega
    | committing c p =>
      dsimp only at hb ⊢
      split at hb
      · cases hb
        rfl
      · cases hb
    | active p =>
      cases hb
      rfl
    | aborting =>
      cases hb
      rfl
    | aborted at' =>
      cases hb
      rfl

/-- A pre-image of `w` is there, and of no one else. -/
structure Keeps (v : VersionStore κ δ) (w lsn : Nat) : Prop where
  mem : .replaced lsn ∈ v.writtenBy w
  owner : ∀ w', .replaced lsn ∈ v.writtenBy w' → w' = w

theorem Keeps.discard {w' lsn : Nat} (h : Keeps v w lsn) (hne : w' ≠ w) :
    Keeps (v.discard w').1 w lsn ∧ (v.discard w').1.find lsn = v.find lsn := by
  have hwritten : ∀ t, t ≠ w' → (v.discard w').1.writtenBy t = v.writtenBy t := by
    intro t ht
    unfold VersionStore.writtenBy
    rw [VersionStore.byTxn_discard, Function.update_of_ne ht]
  refine ⟨⟨?_, fun t ht => ?_⟩, ?_⟩
  · rw [hwritten w hne.symm]
    exact h.mem
  · by_cases heq : t = w'
    · subst heq
      simp [VersionStore.writtenBy, VersionStore.byTxn_discard] at ht
    · rw [hwritten t heq] at ht
      exact h.owner t ht
  · rw [VersionStore.find_discard, if_neg]
    rw [VersionStore.mem_replacedLsns]
    exact fun hmem => hne (h.owner w' hmem)

theorem Keeps.forgetAll {lsn : Nat} (h : Keeps v w lsn) (es : List (Nat × Nat × Nat))
    (hes : ∀ e ∈ es, e.2.1 ≠ w) :
    Keeps (v.forgetAll es).1 w lsn ∧ (v.forgetAll es).1.find lsn = v.find lsn := by
  induction es generalizing v with
  | nil => exact ⟨h, rfl⟩
  | cons e es ih =>
    obtain ⟨hkeep, hfind⟩ := h.discard (hes e List.mem_cons_self)
    have hforget : Keeps (v.forget e) w lsn := ⟨hkeep.mem, hkeep.owner⟩
    obtain ⟨hkeep', hfind'⟩ := ih hforget fun e' he' => hes e' (List.mem_cons_of_mem _ he')
    exact ⟨hkeep', hfind'.trans hfind⟩

theorem replaced_mem_markCommitted_of_mem {lsn : Nat} (txn c : Nat)
    (h : .replaced lsn ∈ v.writtenBy w) :
    .replaced lsn ∈ (v.markCommitted txn c).writtenBy w := by
  unfold VersionStore.markCommitted
  split
  · exact h
  · next written hw =>
      unfold VersionStore.writtenBy at h ⊢
      dsimp only
      by_cases heq : w = txn
      · subst heq
        rw [hw, Option.getD_some] at h
        have hlsns : replacedLsns written ≠ [] := by
          intro hnil
          have hmem := (VersionStore.mem_replacedLsns lsn).mpr h
          rw [hnil] at hmem
          nomatch hmem
        rw [Function.update_self, if_neg hlsns, Option.getD_some, List.mem_filter]
        exact ⟨h, rfl⟩
      · rwa [Function.update_of_ne heq]

/-- A pre-image that the reader may walk back to stays, or its writer is
lost. -/
theorem step_preImage (h : Inv s) (hr : s.mgr.states r ≠ none) {a : RetentionAction κ δ}
    (hok : Spares r s a) {lsn : Nat} (hlsn : .replaced lsn ∈ s.versions.writtenBy w)
    (hhidden : s.mgr.isVisibleOnce w r = some false) :
    .replaced lsn ∈ (step s a).versions.writtenBy w ∧
      (step s a).versions.find lsn = s.versions.find lsn := by
  have howner := h.owner w lsn hlsn
  have hkeeps : Keeps s.versions w lsn := ⟨hlsn, howner.2.2⟩
  have hself : w ≠ r := by
    rintro rfl
    simp [TransactionManager.isVisibleOnce] at hhidden
  have hstate : s.mgr.states w ≠ none := by
    intro hnone
    simp [TransactionManager.isVisibleOnce, hself, hnone] at hhidden
  cases a with
  | write op =>
    simp only [step, write]
    split
    · exact ⟨hlsn, rfl⟩
    · next txn hop =>
        split
        · obtain ⟨⟨e, -, hby, -⟩, -, hfind⟩ := Inv.insert_spec s.versions s.mgr.nextLsn.2 hop
          refine ⟨?_, hfind lsn (Nat.ne_of_lt howner.1)⟩
          unfold VersionStore.writtenBy at hlsn ⊢
          dsimp only
          rw [hby]
          by_cases heq : w = txn
          · subst heq
            rw [Function.update_self, Option.getD_some]
            exact List.mem_append_left _ hlsn
          · rwa [Function.update_of_ne heq]
        · exact ⟨hlsn, rfl⟩
  | markCommitted txn =>
    simp only [step, markCommitted]
    split
    · next e _ =>
        exact ⟨replaced_mem_markCommitted_of_mem e.1 e.2 hlsn,
          congrFun (s.versions.find_markCommitted e.1 e.2) lsn⟩
    · exact ⟨hlsn, rfl⟩
  | discard txn =>
    simp only [step]
    split
    · next hmem =>
        have hne : txn ≠ w := by
          rintro rfl
          exact hstate (h.discarding txn hmem).2.1
        obtain ⟨hkeep, hfind⟩ := hkeeps.discard hne
        exact ⟨hkeep.mem, hfind⟩
    · exact ⟨hlsn, rfl⟩
  | vacuum =>
    simp only [step, VersionStore.vacuum]
    have hkept : Keeps { s.versions with
        committed := s.versions.committed.filter fun e =>
          !VersionStore.reclaimable (some s.mgr.horizon) e.1
        tombstones := s.versions.tombstones.filter fun t =>
          !VersionStore.reclaimable (some s.mgr.horizon) t.commitTs } w lsn :=
      ⟨hkeeps.mem, hkeeps.owner⟩
    have hothers : ∀ e ∈ s.versions.committed.filter fun e =>
        VersionStore.reclaimable (some s.mgr.horizon) e.1, e.2.1 ≠ w := by
      rintro e he rfl
      obtain ⟨hmem, hdrop⟩ := List.mem_filter.mp he
      have hts := h.queue e hmem
      have hwrote := h.wrote_of_mem hlsn
      -- its entry says when it committed: after the reader began
      obtain ⟨st, hst⟩ := Option.ne_none_iff_exists'.mp hstate
      have hcommitted : ∃ c, st = .committed c := by
        by_contra hopen
        push Not at hopen
        rw [h.openTs _ st hst hopen] at hts
        cases hts
      obtain ⟨c, rfl⟩ := hcommitted
      have hc := h.committedTs _ c hwrote hst
      rw [hts] at hc
      cases hc
      have hne := (h.stamp _ _ (Or.inl hst)).2 r hr
      simp only [TransactionManager.isVisibleOnce, hself, hst, if_false, Option.some.injEq,
        decide_eq_false_iff_not] at hhidden
      have hkeep : s.mgr.horizon ≤ e.1 := hok e hmem (by omega)
      have hlt : e.1 < s.mgr.horizon := of_decide_eq_true hdrop
      omega
    obtain ⟨hkeep, hfind⟩ := hkept.forgetAll _ hothers
    exact ⟨hkeep.mem, hfind⟩
  | begin policy => exact ⟨hlsn, rfl⟩
  | beginCommit txn =>
    simp only [step, beginCommit]
    split
    · split <;> exact ⟨hlsn, rfl⟩
    · exact ⟨hlsn, rfl⟩
  | finishCommit txn logged =>
    simp only [step, finishCommit]
    split <;> exact ⟨hlsn, rfl⟩
  | commitReadOnly txn =>
    simp only [step, commitReadOnly]
    split
    · exact ⟨hlsn, rfl⟩
    · split <;> exact ⟨hlsn, rfl⟩
  | abort txn =>
    simp only [step]
    split <;> exact ⟨hlsn, rfl⟩
  | abortComplete txn =>
    simp only [step, abortComplete]
    split <;> exact ⟨hlsn, rfl⟩
  | endReadOnly txn =>
    simp only [step]
    split
    · exact ⟨hlsn, rfl⟩
    · split <;> exact ⟨hlsn, rfl⟩
  | pruneCommitted => exact ⟨hlsn, rfl⟩

/-- What is left of `s`, as `r` sees it, in a later state `t`. -/
structure Kept (r : Nat) (s t : Retention κ δ) : Prop where
  clock : s.mgr.clock ≤ t.mgr.clock
  wrote : ∀ w, s.wrote w = true → t.wrote w = true
  lost : ∀ w, w < s.mgr.clock → s.Lost w → t.Lost w
  entry : t.mgr.states r = s.mgr.states r
  snapshot : t.mgr.snapshots r = s.mgr.snapshots r
  answer : ∀ w b, s.wrote w = true → s.mgr.isVisibleOnce w r = some b →
    t.Lost w ∨ t.mgr.isVisibleOnce w r = some b
  preImage : ∀ w lsn, .replaced lsn ∈ s.versions.writtenBy w →
    s.mgr.isVisibleOnce w r = some false →
    t.Lost w ∨ .replaced lsn ∈ t.versions.writtenBy w ∧
      t.versions.find lsn = s.versions.find lsn

namespace Kept

variable {r : Nat} {s t u : Retention κ δ}

theorem refl (s : Retention κ δ) : Kept r s s where
  clock := Nat.le_refl _
  wrote _ hw := hw
  lost _ _ hw := hw
  entry := rfl
  snapshot := rfl
  answer _ _ _ hb := Or.inr hb
  preImage _ _ hlsn _ := Or.inr ⟨hlsn, rfl⟩

theorem trans (hs : Inv s) (hst : Kept r s t) (htu : Kept r t u) : Kept r s u where
  clock := Nat.le_trans hst.clock htu.clock
  wrote w hw := htu.wrote w (hst.wrote w hw)
  lost w hlt hw := htu.lost w (Nat.lt_of_lt_of_le hlt hst.clock) (hst.lost w hlt hw)
  entry := htu.entry.trans hst.entry
  snapshot := htu.snapshot.trans hst.snapshot
  answer w b hw hb := by
    have hlt := Nat.lt_of_lt_of_le (hs.wroteLt w hw) hst.clock
    rcases hst.answer w b hw hb with hlost | hb
    · exact Or.inl (htu.lost w hlt hlost)
    · exact htu.answer w b (hst.wrote w hw) hb
  preImage w lsn hlsn hb := by
    have hw : s.wrote w = true := hs.wrote_of_mem hlsn
    have hlt := Nat.lt_of_lt_of_le (hs.wroteLt w hw) hst.clock
    rcases hst.preImage w lsn hlsn hb with hlost | ⟨hmem, hfind⟩
    · exact Or.inl (htu.lost w hlt hlost)
    rcases hst.answer w false hw hb with hlost | hb
    · exact Or.inl (htu.lost w hlt hlost)
    rcases htu.preImage w lsn hmem hb with hlost | ⟨hmem, hfind'⟩
    · exact Or.inl hlost
    · exact Or.inr ⟨hmem, hfind'.trans hfind⟩

/-- One step while `r` is committing. -/
theorem step (h : Inv s) {c : Nat} {p : ConflictPolicy} {sn : Snapshot}
    (hr : s.mgr.states r = some (.committing c p)) (hsn : s.mgr.snapshots r = some sn)
    (hsleeps : sn.active = false) {a : RetentionAction κ δ} (hok : Spares r s a) :
    Kept r s (Retention.step s a) := by
  have hlive : s.mgr.states r ≠ none := by simp [hr]
  have hlt := h.idLt r hlive
  have hentry : (Retention.step s a).mgr.states r = s.mgr.states r := by
    have he := step_entry s a hlt
    rw [hr] at he ⊢
    generalize (Retention.step s a).mgr.states r = new at he
    cases he with
    | same => rfl
    | logged _ _ ha =>
      subst ha
      exact absurd rfl hok
    | failed _ _ ha =>
      subst ha
      exact absurd rfl hok
    | aborted st b hkind => rcases hkind with hkind | ⟨b', hkind⟩ <;> cases hkind
    | forgotten st hkind => rcases hkind with hkind | ⟨b', hkind⟩ <;> cases hkind
  refine ⟨step_clock s a, fun w => (step_history s a w).1, fun w hw hl => hl.step hw a, hentry,
    ?_, fun w b hw hb => step_answer h hlive hok hw hb,
    fun w lsn hlsn hb => Or.inr (step_preImage h hlive hok hlsn hb)⟩
  by_cases hb : ∃ policy, a = .begin policy
  · obtain ⟨policy, rfl⟩ := hb
    exact Function.update_of_ne (Nat.ne_of_lt hlt) _ _
  · rcases (step_table s a fun policy ha => hb ⟨policy, ha⟩).snapshot r with
      ⟨-, heq⟩ | heq | hclosed
    · exact heq
    · -- the flag is set to what it is
      have hinactive : (Retention.step s a).mgr.isTransactionActive r = false := by
        simp [TransactionManager.isTransactionActive, hentry, hr, TxnState.isActive]
      rw [heq, hsn, hinactive, Option.map_some, ← hsleeps]
    · exact absurd (hentry.trans hr) (hclosed.2 c p)

/-- The whole time `r` is committing. -/
theorem run (h : Inv s) {c : Nat} {p : ConflictPolicy} {sn : Snapshot}
    (hr : s.mgr.states r = some (.committing c p)) (hsn : s.mgr.snapshots r = some sn)
    (hsleeps : sn.active = false) {as : List (RetentionAction κ δ)}
    (has : Lib.Allowed Retention.step (Spares r) s as) :
    Kept r s (Lib.run Retention.step s as) := by
  induction as generalizing s with
  | nil => exact refl s
  | cons a as ih =>
    have hone := step h hr hsn hsleeps has.1
    exact hone.trans h (ih (inv_step s a h) (hone.entry.trans hr) (hone.snapshot.trans hsn)
      has.2)

end Kept

/-- A change to the entry of `r` does not change what `r` is told of others. -/
theorem isVisibleOnce_congr {m m' : TransactionManager}
    (hstates : ∀ w, w ≠ r → m'.states w = m.states w) (w : Nat) :
    m'.isVisibleOnce w r = m.isVisibleOnce w r := by
  unfold TransactionManager.isVisibleOnce
  by_cases heq : w = r
  · rw [if_pos heq, if_pos heq]
  · rw [if_neg heq, if_neg heq, hstates w heq]

/-- What `begin_commit` leaves. -/
theorem beginCommit_spec {p : ConflictPolicy} (hr : s.mgr.states r = some (.active p))
    (hw : s.versions.hasWrites r = true) :
    step s (.beginCommit r) =
      { s with mgr := (s.mgr.nextLsn.1.setState r
          (some (.committing s.mgr.clock p))).setActive r false false } := by
  simp [step, beginCommit, hw, TransactionManager.beginCommit, hr]

/-- What a failed `finish_commit` leaves. -/
theorem finishCommit_failed {t : Retention κ δ} {c : Nat} {p : ConflictPolicy}
    (hr : t.mgr.states r = some (.committing c p)) :
    step t (.finishCommit r false) =
      { t with mgr := (t.mgr.setState r (some (.active p))).setActive r true false } := by
  simp [step, finishCommit, TransactionManager.finishCommit, hr]

/-- A transaction `r` begins to commit, others go on, and its commit fails.  It is
then active with the view it had: the same snapshot, the same answers about
every writer that the table could answer for and that has not been forgotten
after an abort, and every pre-image its reads may walk back to, of before or
of since. -/
theorem failed_commit_keeps_view {s : Retention κ δ} (h : Reachable s) {r : Nat}
    {p : ConflictPolicy} (hr : s.mgr.states r = some (.active p))
    (hw : s.versions.hasWrites r = true) {as : List (RetentionAction κ δ)}
    (has : Lib.Allowed step (Spares r) (step s (.beginCommit r)) as) :
    let u := step (Lib.run step (step s (.beginCommit r)) as) (.finishCommit r false)
    u.mgr.states r = some (.active p) ∧ u.mgr.snapshot r = s.mgr.snapshot r ∧
      (∀ w b, s.wrote w = true → ¬ u.Lost w → s.mgr.isVisibleOnce w r = some b →
        u.mgr.isVisibleOnce w r = some b ∧ u.mgr.conflicts w r = s.mgr.conflicts w r) ∧
      ∀ bs cs, as = bs ++ cs → ∀ w lsn,
        .replaced lsn ∈ (Lib.run step (step s (.beginCommit r)) bs).versions.writtenBy w →
        (Lib.run step (step s (.beginCommit r)) bs).mgr.isVisibleOnce w r = some false →
        ¬ u.Lost w →
        (u.versions.find lsn).isSome = true ∧
          u.versions.find lsn =
            (Lib.run step (step s (.beginCommit r)) bs).versions.find lsn := by
  intro u
  have hinv := inv_of_reachable h
  obtain ⟨sn, hsn, hactive⟩ := (hinv.snapshot r).active p hr
  set s₁ := step s (.beginCommit r) with hs₁
  have hspec := beginCommit_spec hr hw
  have hinv₁ : Inv s₁ := inv_step s _ hinv
  have hr₁ : s₁.mgr.states r = some (.committing s.mgr.clock p) := by
    rw [hs₁, hspec]
    exact Function.update_self _ _ _
  have hsn₁ : s₁.mgr.snapshots r = some { sn with active := false } := by
    rw [hs₁, hspec]
    simp [TransactionManager.setActive, hsn]
  have hothers₁ : ∀ w, w ≠ r → s₁.mgr.states w = s.mgr.states w := by
    intro w hne
    rw [hs₁, hspec]
    exact Function.update_of_ne hne _ _
  have hkept : ∀ bs, Lib.Allowed step (Spares r) s₁ bs → Kept r s₁ (Lib.run step s₁ bs) :=
    fun bs hbs => Kept.run hinv₁ hr₁ hsn₁ rfl hbs
  have hinvAt : ∀ bs, Inv (Lib.run step s₁ bs) := fun bs => Lib.run_induction inv_step hinv₁ bs
  set t := Lib.run step s₁ as with ht
  have hrt : t.mgr.states r = some (.committing s.mgr.clock p) := (hkept as has).entry.trans hr₁
  have hu : u = { t with mgr := (t.mgr.setState r (some (.active p))).setActive r true false } :=
    finishCommit_failed hrt
  have hru : u.mgr.states r = some (.active p) := by
    rw [hu]
    exact Function.update_self _ _ _
  have hothers : ∀ w, w ≠ r → u.mgr.states w = t.mgr.states w := by
    intro w hne
    rw [hu]
    exact Function.update_of_ne hne _ _
  have hlost : ∀ w, t.Lost w → u.Lost w := by
    rintro w ⟨hnone, hts⟩
    have hne : w ≠ r := by
      rintro rfl
      rw [hrt] at hnone
      cases hnone
    refine ⟨(hothers w hne).trans hnone, ?_⟩
    rw [hu]
    exact hts
  have hinvU : Inv u := inv_step t _ (hinvAt as)
  refine ⟨hru, ?_, fun w b hwrote hknown hb => ?_, ?_⟩
  · have hsnt : t.mgr.snapshots r = some { sn with active := false } :=
      (hkept as has).snapshot.trans hsn₁
    have hsnu : u.mgr.snapshots r = some { sn with active := true } := by
      rw [hu]
      simp only [TransactionManager.setActive, TransactionManager.setState_snapshots,
        Function.update_self, hsnt]
      rfl
    rw [← hactive] at hsnu
    simp only [TransactionManager.snapshot, hsnu, hsn]
  · have hb₁ : s₁.mgr.isVisibleOnce w r = some b := (isVisibleOnce_congr hothers₁ w).trans hb
    have hwrote₁ : s₁.wrote w = true := (step_history s _ w).1 hwrote
    have hbu : u.mgr.isVisibleOnce w r = some b := by
      rw [isVisibleOnce_congr hothers w]
      exact ((hkept as has).answer w b hwrote₁ hb₁).resolve_left fun hl => hknown (hlost w hl)
    refine ⟨hbu, ?_⟩
    by_cases hself : w = r
    · simp [TransactionManager.conflicts, hself]
    · rw [conflicts_eq_not hinvU (by simp [hru]) hself hbu,
        conflicts_eq_not hinv (by simp [hr]) hself hb]
  · intro bs cs hsplit w lsn hlsn hhidden hknown
    have hallowed : Lib.Allowed step (Spares r) s₁ bs ∧
        Lib.Allowed step (Spares r) (Lib.run step s₁ bs) cs :=
      Lib.allowed_append_iff.mp (hsplit ▸ has)
    set v := Lib.run step s₁ bs with hv
    have hkv := hkept bs hallowed.1
    have hvt : Kept r v t := by
      rw [ht, hsplit, Lib.run_append]
      exact Kept.run (hinvAt bs) (hkv.entry.trans hr₁) (hkv.snapshot.trans hsn₁) rfl hallowed.2
    have huv : u.versions = t.versions := by rw [hu]
    obtain ⟨hmem, hfind⟩ :=
      (hvt.preImage w lsn hlsn hhidden).resolve_left fun hl => hknown (hlost w hl)
    rw [huv]
    exact ⟨((hinvAt as).owner w lsn hmem).2.1, hfind⟩

/-- The version that is updated in the runs below. -/
def firstRow : Tuple Nat Nat := ⟨7, 0, some 0, none, false⟩

/-- Reader 1, and two transactions that have written. -/
def twoWriters : Retention Nat Nat :=
  Lib.run step init [.begin .continueOnConflict, .begin .continueOnConflict,
    .begin .continueOnConflict, .write (.mod 2 firstRow firstRow),
    .write (.mod 3 firstRow firstRow)]

/-- Transaction 3 commits, and maintenance runs. -/
def commitAndMaintain : List (RetentionAction Nat Nat) :=
  [.beginCommit 3, .finishCommit 3 true, .markCommitted 3, .pruneCommitted, .vacuum]

/-- With a reader that began before it, the transaction whose commit fails loses
nothing. -/
theorem failed_commit_keeps_view_reader :
    let s := twoWriters
    let u := step (Lib.run step (step s (.beginCommit 2)) commitAndMaintain) (.finishCommit 2 false)
    u.mgr.states 2 = some (.active .continueOnConflict) ∧
      u.mgr.snapshot 2 = s.mgr.snapshot 2 ∧
      u.mgr.isVisibleOnce 3 2 = some false ∧ u.mgr.conflicts 3 2 = true ∧
      (u.versions.find 5).isSome = true := by
  intro s u
  have hs : Reachable s := Lib.reachable_run _ (Lib.allowed_true _ _)
  have hr : s.mgr.states 2 = some (.active .continueOnConflict) := by decide
  have hw : s.versions.hasWrites 2 = true := by decide
  have hprune : Spares 2 (Lib.run step (step s (.beginCommit 2)) (commitAndMaintain.take 3))
      .pruneCommitted := by
    intro w c _ hlt
    have holdest : (Lib.run step (step s (.beginCommit 2))
        (commitAndMaintain.take 3)).mgr.oldestActive = some 1 := by decide
    rw [holdest]
    exact decide_eq_true (show c ≥ 1 by omega)
  have hvacuum : Spares 2 (Lib.run step (step s (.beginCommit 2)) (commitAndMaintain.take 4))
      .vacuum := by
    unfold Spares
    decide
  have has : Lib.Allowed step (Spares 2) (step s (.beginCommit 2)) commitAndMaintain :=
    ⟨trivial, (by decide : (3 : Nat) ≠ 2), trivial, hprune, hvacuum, trivial⟩
  obtain ⟨hactive, hsnap, hanswer, hpre⟩ := failed_commit_keeps_view hs hr hw has
  have hknown : ¬ u.Lost 3 := by
    intro hlost
    have hts : u.committedAt 3 = some 7 := by decide
    rw [hlost.2] at hts
    cases hts
  obtain ⟨hvis, hconf⟩ := hanswer 3 false (by decide) hknown (by decide)
  have hconfBefore : s.mgr.conflicts 3 2 = true := by decide
  refine ⟨hactive, hsnap, hvis, hconf.trans hconfBefore, ?_⟩
  exact (hpre [] commitAndMaintain rfl 3 5 (by decide) (by decide) hknown).1

/-- Writer 1 is committing as transaction 4 begins, and is a conflict for it.
Its commit is finished while transaction 4 commits in vain, and then it is
none. -/
theorem commit_under_way_lifts_conflict :
    let s : Retention Nat Nat := Lib.run step init [.begin .continueOnConflict,
      .write (.mod 1 firstRow firstRow), .beginCommit 1, .begin .continueOnConflict,
      .write (.mod 4 firstRow firstRow)]
    let u := Lib.run step s [.beginCommit 4, .finishCommit 1 true, .finishCommit 4 false]
    Reachable s ∧ s.mgr.isTransactionActive 4 = true ∧ u.mgr.isTransactionActive 4 = true ∧
      s.mgr.conflicts 1 4 = true ∧ u.mgr.conflicts 1 4 = false := by
  refine ⟨Lib.reachable_run _ (Lib.allowed_true _ _), ?_⟩
  decide

end Retention

end SquealDb.Store
