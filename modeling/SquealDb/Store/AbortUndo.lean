import SquealDb.Store.RowStep

/-!
# What an abort undoes

An abort leaves under every key its transaction wrote the very row that was
there before the transaction's first write of the key, and every other key as
it is.  The row before the first write is what the transaction's first record
on the key restores; the log never forgets it.
-/

namespace SquealDb.Store

open Lib

variable {κ δ : Type*} [DecidableEq κ]

/-! ## The undo list only grows -/

namespace Db

variable {db : Db κ δ} {t : Nat} {p : ConflictPolicy}

theorem run_log (h : DbInv db) (as : List (Action κ δ)) :
    ∃ suffix, (Lib.run step db as).log = db.log ++ suffix := by
  induction as generalizing db with
  | nil => exact ⟨[], (List.append_nil _).symm⟩
  | cons a as ih =>
    obtain ⟨suffix, hsuffix⟩ := ih (inv_step db a h)
    rw [run_cons, hsuffix]
    rcases (step_spec db a h).log with heq | ⟨r, heq, -⟩
    · exact ⟨suffix, by rw [heq]⟩
    · exact ⟨r :: suffix, by rw [heq, List.append_assoc]; rfl⟩

/-- The first record of a transaction on a key restores the row that was
there. -/
theorem first_undo (h : DbInv db) (a : Action κ δ) {key : κ} (hno : ¬ WroteKey db.log t key)
    (hyes : WroteKey (db.step a).log t key) :
    ∃ u, undosOn (db.step a).log t key = [u] ∧ u.target = db.rows key := by
  have hnil : undosOn db.log t key = [] := by
    by_contra hne
    exact hno ((h.wroteKey_iff_undosOn t key).mpr hne)
  rcases (step_spec db a h).log with heq | ⟨r, heq, hrec⟩
  · rw [heq] at hyes
    exact absurd hyes hno
  · obtain ⟨v, hv, hvt⟩ := hyes
    obtain ⟨r', hr', hwr, hkey⟩ := DbInv.mem_versionsOf.mp hv
    have hrr : r' = r := by
      rw [heq, List.mem_append, List.mem_singleton] at hr'
      rcases hr' with hold | hnew
      · exact absurd ⟨v, DbInv.mem_versionsOf.mpr ⟨r', hold, hwr, hkey⟩, hvt⟩ hno
      · exact hnew
    subst hrr
    have hwriter : r'.operation.writer = some t :=
      ((inv_step db a h).recordWf r' hr' v hwr).writer.symm.trans hvt
    obtain ⟨-, v', u, hv', -, hu, hukey, hutar⟩ := hrec.write t hwriter
    rw [hwr] at hv'
    cases hv'
    refine ⟨u, ?_, hkey ▸ hutar⟩
    rw [heq, undosOn_append_self _ _ hwriter hu (hukey.trans hkey), hnil]
    rfl

/-! ## The rows an abort leaves -/

theorem rows_finishAbort (h : DbInv db) (hab : db.txMgr.states t = some .aborting) (key : κ) :
    (db.finishAbort t none).rows key =
      match undosOn db.log t key with
      | [] => db.rows key
      | u :: _ =>
        if (db.rows key).any fun v => v.isSameTxn t then u.target else db.rows key := by
  have heq : (db.finishAbort t none).rows = (db.revert t none).rows :=
    rows_completeAbort _ t _
  rw [heq]
  exact h.rows_revert_none hab key

/-- An abort of a transaction that wrote is a revert and its completion. -/
theorem abort_eq (h : DbInv db) (hp : db.txMgr.states t = some (.active p))
    (hwrote : Wrote db.log t) :
    ∃ m, db.txMgr.abort t = some m ∧ m.states t = some .aborting ∧
      DbInv { db with txMgr := m } ∧
      ∀ f, db.abort t f = { db with txMgr := m }.finishAbort t f := by
  have hhas := (h.hasWrites t (Or.inl ⟨p, hp⟩)).mpr hwrote
  obtain ⟨m, hm⟩ : ∃ m, db.txMgr.abort t = some m := by
    simp [TransactionManager.abort, hp]
  obtain ⟨hab, hinv⟩ := h.markAborting hm
  refine ⟨m, hm, hab, hinv, fun f => ?_⟩
  unfold abort
  rw [hhas, hm]

/-- A key the transaction holds goes back to the row before its first write. -/
theorem rows_abort (h : DbInv db) (hp : db.txMgr.states t = some (.active p)) {key : κ}
    {u : Undo κ δ} {rest : List (Undo κ δ)} (hu : undosOn db.log t key = u :: rest) :
    (db.abort t none).rows key = u.target := by
  have hwk : WroteKey db.log t key := (h.wroteKey_iff_undosOn t key).mpr (by simp [hu])
  obtain ⟨m, -, hab, hinv, heq⟩ := abort_eq h hp (h.wrote_of_wroteKey hwk)
  rw [heq none, rows_finishAbort hinv hab key]
  obtain ⟨own, base, older, hk⟩ := h.key key
  obtain ⟨hne, hby, -⟩ := hk.active t p hp hwk
  obtain ⟨o, os, rfl⟩ := List.exists_cons_of_ne_nil hne
  have hrow : db.rows key = some o := hk.path.head_eq hne
  simp [hu, hrow, hby o]

/-- A key the transaction did not write is left alone, however far the revert
gets. -/
theorem rows_abort_of_not_wrote (h : DbInv db) {key : κ} (hno : ¬ WroteKey db.log t key)
    (f : Option Nat) :
    (db.abort t f).rows key = db.rows key := by
  obtain ⟨db', heq, habort⟩ := db.abort_cases t f
  rw [heq]
  cases habort with
  | refused => rfl
  | forgotten => rfl
  | @reverted p m hp hhas hm =>
    obtain ⟨hab, hinv⟩ := h.markAborting hm
    have hrev : ∀ steps, ({ db with txMgr := m }.revert t steps).rows key = db.rows key := by
      intro steps
      unfold revert
      rw [rows_revert]
      have hnil : ((steps.map ({ db with txMgr := m }.versions.undoOf t).reverse.take).getD
          ({ db with txMgr := m }.versions.undoOf t).reverse).filter
            (fun u : Undo κ δ => decide (u.key = key)) = [] := by
        rw [List.filter_eq_nil_iff]
        intro u hu hkey
        have hmem : u ∈ undosOf db.log t := by
          rw [← hinv.undoOf t (Or.inr hab), ← List.mem_reverse]
          cases steps with
          | none => exact hu
          | some n => exact List.mem_of_mem_take hu
        have hmemOn : u ∈ undosOn db.log t key := List.mem_filter.mpr ⟨hmem, hkey⟩
        exact hno ((h.wroteKey_iff_undosOn t key).mpr (List.ne_nil_of_mem hmemOn))
      rw [hnil]
      rfl
    unfold finishAbort
    split
    · exact hrev f
    · rw [rows_completeAbort]
      exact hrev none

/-! ## A second abort -/

theorem abort_of_not_active (h : ∀ p, db.txMgr.states t ≠ some (.active p)) (f : Option Nat) :
    db.abort t f = db := by
  obtain ⟨db', heq, habort⟩ := db.abort_cases t f
  rw [heq]
  cases habort with
  | refused => rfl
  | forgotten hp => exact absurd hp (h _)
  | reverted hp => exact absurd hp (h _)

/-- An abort ends the transaction, whether or not its revert goes through. -/
theorem not_active_of_abort (db : Db κ δ) (t : Nat) (f : Option Nat) (p : ConflictPolicy) :
    (db.abort t f).txMgr.states t ≠ some (.active p) := by
  obtain ⟨db', heq, habort⟩ := db.abort_cases t f
  rw [heq]
  cases habort with
  | refused hno => exact hno p
  | forgotten hp hhas hend hclock hstates => simp [hstates]
  | reverted hp hhas hm hclock hstates =>
    intro hactive
    have hmarked := (quiet_finishAbort _ t f).reader t p hactive
    simp [hstates] at hmarked

/-! ## A retry after a partial revert -/

omit [DecidableEq κ] in
/-- What is left of a row of a key the transaction wrote, after some of its
undos, newest first: still a version of the transaction, or the row before its
first write. -/
theorem foldl_revertRow_take {u : Undo κ δ} {rest : List (Undo κ δ)}
    (hrest : ∀ u' ∈ rest, ∃ p, u'.target = some p ∧ p.txnId = some t) {row : Option (Tuple κ δ)}
    (hrow : (row.any fun v => v.isSameTxn t) = true) {us : List (Undo κ δ)}
    (hus : us <+: (u :: rest).reverse) :
    ((us.foldl (revertRow t) row).any fun v => v.isSameTxn t) = true ∨
      us.foldl (revertRow t) row = u.target := by
  rw [List.reverse_cons] at hus
  rcases List.prefix_concat_iff.mp hus with heq | hpre
  · refine Or.inr ?_
    rw [heq, ← List.reverse_cons, foldl_revertRow hrest, if_pos hrow]
  · refine Or.inl ((foldl_revertRow_own ?_ row).1 hrow)
    intro u' hu'
    exact hrest u' (List.mem_reverse.mp (hpre.subset hu'))

/-- A retry right after a revert that failed leaves the rows of an abort that
did not fail. -/
theorem rows_retry (h : DbInv db) (hp : db.txMgr.states t = some (.active p)) (n : Nat) (key : κ) :
    ((db.abort t (some n)).retryAbort t none).rows key = (db.abort t none).rows key := by
  by_cases hwrote : Wrote db.log t
  · obtain ⟨m, -, hab, hinv, heq⟩ := abort_eq h hp hwrote
    rw [heq (some n), heq none]
    by_cases hfails : { db with txMgr := m }.revertFails t (some n) = true
    · -- the revert failed: what is left of the row is the holder's, or is done
      have hfin : { db with txMgr := m }.finishAbort t (some n) =
          { db with txMgr := m }.revert t (some n) := if_pos hfails
      have hinv1 := hinv.revert hab (some n)
      have hfields := revert_fields t
        ((({ db with txMgr := m } : Db κ δ).versions.undoOf t).reverse.take n)
        { db with txMgr := m }
      have hab1 : ({ db with txMgr := m }.revert t (some n)).txMgr.states t =
          some .aborting := (congrFun hfields.2.2.2.1 t).trans hab
      have hlog1 : ({ db with txMgr := m }.revert t (some n)).log = db.log := hfields.1
      have hrows1 : ({ db with txMgr := m }.revert t (some n)).rows key =
          (((db.versions.undoOf t).reverse.take n).filter
            fun u => decide (u.key = key)).foldl (revertRow t) (db.rows key) :=
        rows_revert t _ _ key
      rw [hfin]
      unfold retryAbort
      rw [if_pos hab1, rows_finishAbort hinv1 hab1 key, rows_finishAbort hinv hab key, hlog1]
      have hlog : ({ db with txMgr := m } : Db κ δ).log = db.log := rfl
      have hrows : ({ db with txMgr := m } : Db κ δ).rows key = db.rows key := rfl
      rw [hlog, hrows]
      have hpre : (((db.versions.undoOf t).reverse.take n).filter
          fun u => decide (u.key = key)) <+: (undosOn db.log t key).reverse := by
        unfold undosOn
        rw [← h.undoOf t (Or.inl ⟨p, hp⟩), ← List.filter_reverse]
        exact (List.take_prefix n _).filter _
      cases hu : undosOn db.log t key with
      | nil =>
        dsimp only
        rw [hrows1]
        rw [hu, List.reverse_nil, List.prefix_nil] at hpre
        rw [hpre]
        rfl
      | cons u rest =>
        dsimp only
        rw [hu] at hpre
        have hshape := (h.undoShape t key u rest hu).2
        cases hrow : (db.rows key).any fun v => v.isSameTxn t with
        | true =>
          rw [if_pos rfl]
          rcases foldl_revertRow_take hshape hrow hpre with hown | hdone
          · rw [← hrows1] at hown
            rw [if_pos hown]
          · rw [hrows1, hdone]
            exact ite_self _
        | false =>
          have hwk : WroteKey db.log t key :=
            (h.wroteKey_iff_undosOn t key).mpr (by simp [hu])
          obtain ⟨own, base, older, hk⟩ := h.key key
          obtain ⟨hne, hby, -⟩ := hk.active t p hp hwk
          obtain ⟨o, os, rfl⟩ := List.exists_cons_of_ne_nil hne
          have hrow' : db.rows key = some o := hk.path.head_eq hne
          have hown : ((db.rows key).any fun v => v.isSameTxn t) = true := by
            simp [hrow', hby o]
          rw [hrow] at hown
          cases hown
    · -- the revert did not fail: there is nothing to retry
      have hfin : { db with txMgr := m }.finishAbort t (some n) =
          { db with txMgr := m }.finishAbort t none := by
        have hno : { db with txMgr := m }.revertFails t none = false := rfl
        unfold finishAbort
        rw [if_neg hfails, if_neg (by simp [hno])]
      rw [hfin, ← heq none]
      unfold retryAbort
      split
      · next hab' =>
          have hinv2 := h.abort t none
          rw [rows_finishAbort hinv2 hab' key]
          have hrow2 : ∀ v, (db.abort t none).rows key = some v → v.txnId ≠ some t := by
            intro v hv
            rw [heq none] at hv
            have hv' : ({ db with txMgr := m }.revert t none).rows key = some v := by
              rw [← hv]
              exact (congrFun (rows_completeAbort _ t _) key).symm
            exact hinv.row_ne_of_revert hab hv'
          split
          · rfl
          · rw [if_neg]
            cases hv : (db.abort t none).rows key with
            | none => simp
            | some v => simp [hrow2 v hv]
      · rfl
  · have hhas : db.versions.hasWrites t = false := by
      rw [← Bool.not_eq_true, h.hasWrites t (Or.inl ⟨p, hp⟩)]
      exact hwrote
    obtain ⟨m, hst, habort⟩ : ∃ m : TransactionManager, m.states t = none ∧
        ∀ f, db.abort t f = { db with txMgr := m } := by
      have hend : db.txMgr.endReadOnly t =
          some ((db.txMgr.setState t none).setActive t false true) := by
        simp [TransactionManager.endReadOnly, hp]
      refine ⟨(db.txMgr.setState t none).setActive t false true, by simp, fun f => ?_⟩
      unfold abort
      rw [hhas, hend]
    rw [habort, habort]
    unfold retryAbort
    rw [if_neg (by simp [hst])]

/-- Abort undoes exactly.  Take any step `a` from a reachable state and any
interleaving `as` after it that leaves `t` active, then abort `t`.
Each key that `a` was `t`'s first write of has the row it had before `a`; each
key `t` never wrote has the row it had, however far the revert gets; a second
abort changes nothing; and neither does a retry after a partial revert: run at
once it leaves the same rows, and run after any further interleaving `bs` it
touches only rows that are still `t`'s. -/
theorem abort_undoes_exactly {db : Db κ δ} (h : Reachable db) (t : Nat) (a : Action κ δ)
    (as : List (Action κ δ))
    (hact : (Lib.run step (db.step a) as).txMgr.isTransactionActive t = true) :
    (∀ key, ¬ WroteKey db.log t key → WroteKey (db.step a).log t key →
      ((Lib.run step (db.step a) as).abort t none).rows key = db.rows key) ∧
    (∀ key, ¬ WroteKey (Lib.run step (db.step a) as).log t key → ∀ f,
      ((Lib.run step (db.step a) as).abort t f).rows key =
        (Lib.run step (db.step a) as).rows key) ∧
    (∀ f, ((Lib.run step (db.step a) as).abort t none).abort t f =
      (Lib.run step (db.step a) as).abort t none) ∧
    (∀ n key, (((Lib.run step (db.step a) as).abort t (some n)).retryAbort t none).rows key =
      ((Lib.run step (db.step a) as).abort t none).rows key) ∧
    ∀ n bs key, ¬ WroteKey db.log t key → WroteKey (db.step a).log t key →
      (Lib.run step ((Lib.run step (db.step a) as).abort t (some n)) bs).txMgr.states t =
        some .aborting →
      ((Lib.run step ((Lib.run step (db.step a) as).abort t (some n)) bs).retryAbort
          t none).rows key =
        if ((Lib.run step ((Lib.run step (db.step a) as).abort t (some n)) bs).rows key).any
            fun v => v.isSameTxn t
        then db.rows key
        else (Lib.run step ((Lib.run step (db.step a) as).abort t (some n)) bs).rows key := by
  have hinv := inv_of_reachable h
  have hinv1 := inv_step db a hinv
  have hinv2 := inv_run hinv1 as
  obtain ⟨p, hp⟩ := (TransactionManager.isTransactionActive_iff _ t).mp hact
  -- the first undo of a key stays the first one
  have hfirst : ∀ key, ¬ WroteKey db.log t key → WroteKey (db.step a).log t key →
      ∀ bs, ∃ u rest, undosOn (Lib.run step (db.step a) bs).log t key = u :: rest ∧
        u.target = db.rows key := by
    intro key hno hyes bs
    obtain ⟨u, hu, htar⟩ := first_undo hinv a hno hyes
    obtain ⟨suffix, hsuffix⟩ := run_log hinv1 bs
    exact ⟨u, undosOn suffix t key, by rw [hsuffix, undosOn_append, hu]; rfl, htar⟩
  refine ⟨?_, ?_, ?_, ?_, ?_⟩
  · intro key hno hyes
    obtain ⟨u, rest, hu, htar⟩ := hfirst key hno hyes as
    rw [rows_abort hinv2 hp hu, htar]
  · exact fun key hno f => rows_abort_of_not_wrote hinv2 hno f
  · exact fun f => abort_of_not_active (not_active_of_abort _ t none) f
  · exact fun n key => rows_retry hinv2 hp n key
  · intro n bs key hno hyes hab
    have hrun : Lib.run step ((Lib.run step (db.step a) as).abort t (some n)) bs =
        Lib.run step (db.step a) (as ++ .abort t (some n) :: bs) := by
      rw [run_append]
      rfl
    rw [hrun] at hab ⊢
    obtain ⟨u, rest, hu, htar⟩ := hfirst key hno hyes (as ++ .abort t (some n) :: bs)
    unfold retryAbort
    rw [if_pos hab, rows_finishAbort (inv_run hinv1 _) hab key, hu]
    dsimp only
    rw [htar]

/-- Transaction 7 takes over another's tombstone, updates the row, removes it
and inserts it again; its abort leaves the tombstone as it was. -/
theorem abort_undoes_exactly_revival :
    let db : Db Nat Nat := Lib.run step new [.begin .continueOnConflict,
      .insert 1 ⟨3, 10, none, none, false⟩, .commit 1, .begin .continueOnConflict,
      .remove 4 3, .commit 4, .begin .continueOnConflict]
    let a : Action Nat Nat := .insert 7 ⟨3, 20, none, none, false⟩
    let as : List (Action Nat Nat) := [.update 7 ⟨3, 30, none, none, false⟩, .remove 7 3,
      .insert 7 ⟨3, 40, none, none, false⟩]
    (Lib.run step (db.step a) as).txMgr.isTransactionActive 7 = true ∧
      (Lib.run step (db.step a) as).rows 3 = some ⟨3, 40, some 7, some 11, false⟩ ∧
      ((Lib.run step (db.step a) as).abort 7 none).rows 3 =
        some ⟨3, 10, some 4, some 5, true⟩ := by
  intro db a as
  have hact : (Lib.run step (db.step a) as).txMgr.isTransactionActive 7 = true := by decide
  have hno : ¬ WroteKey db.log 7 3 := by
    rintro ⟨v, hv, hvt⟩
    have hall : ∀ v ∈ versionsOf db.log 3, v.txnId ≠ some 7 := by decide
    exact hall v hv hvt
  have hyes : WroteKey (db.step a).log 7 3 :=
    ⟨⟨3, 20, some 7, some 8, false⟩, by decide, rfl⟩
  have hexact := (abort_undoes_exactly
    (Lib.reachable_run _ (Lib.allowed_true _ _) : Reachable db) 7 a as hact).1 3 hno hyes
  have hrow : db.rows 3 = some ⟨3, 10, some 4, some 5, true⟩ := by decide
  have hrow' : (Lib.run step (db.step a) as).rows 3 = some ⟨3, 40, some 7, some 11, false⟩ := by
    decide
  refine ⟨hact, hrow', ?_⟩
  rw [hexact]
  exact hrow

end Db

end SquealDb.Store
