import SquealDb.Store.AbortUndo
import SquealDb.Store.Views

/-!
# What a transaction's calls return

`insert`, `remove` and `commit`, called by a transaction that a write conflict leaves active:
whether the call goes through, in terms of what the transaction sees, and what it sees after.
-/

namespace SquealDb.Store

open Lib

variable {κ δ : Type*} [DecidableEq κ]

/-- The transaction an action ends. -/
def Action.ends : Action κ δ → Option Nat
  | .commit txn | .abort txn _ => some txn
  | _ => none

/-- The transaction an action writes under or ends. -/
def Action.under : Action κ δ → Option Nat
  | .insert txn _ | .update txn _ | .remove txn _ | .commit txn | .abort txn _ => some txn
  | _ => none

namespace Db

/-! ## A transaction stays active -/

/-- The entries but that of `u` stay. -/
def KeepsOthers (u : Nat) (m m' : TransactionManager) : Prop :=
  ∀ t, t ≠ u → m'.states t = m.states t

theorem KeepsOthers.setState (u : Nat) (m : TransactionManager) (state : Option TxnState) :
    KeepsOthers u m (m.setState u state) := by
  intro t hne
  rw [TransactionManager.setState_states, Function.update_of_ne hne]

omit [DecidableEq κ] in
theorem keepsOthers_completeAbort (db : Db κ δ) (u : Nat) (wrote : Bool) :
    KeepsOthers u db.txMgr (db.completeAbort u wrote).txMgr := by
  intro t hne
  have hcomplete : ∀ m : TransactionManager, m.states = db.txMgr.states →
      (m.abortComplete u wrote).1.states t = db.txMgr.states t := by
    intro m hm
    rw [← hm]
    unfold TransactionManager.abortComplete
    dsimp only
    split
    · exact KeepsOthers.setState u m _ t hne
    · exact KeepsOthers.setState u m none t hne
  have hlogged : (if wrote then db.logNew (.rollback u) else db).txMgr.states =
      db.txMgr.states := by
    cases wrote with
    | true => rfl
    | false => rfl
  unfold completeAbort
  generalize (if wrote then db.logNew (.rollback u) else db) = logged at hlogged ⊢
  dsimp only
  split
  · exact hcomplete _ hlogged
  · exact hcomplete _ hlogged

theorem states_revert (db : Db κ δ) (u : Nat) (steps : Option Nat) :
    (db.revert u steps).txMgr.states = db.txMgr.states := (revert_fields u _ db).2.2.2.1

theorem keepsOthers_finishAbort (db : Db κ δ) (u : Nat) (failsAfter : Option Nat) :
    KeepsOthers u db.txMgr (db.finishAbort u failsAfter).txMgr := by
  intro t hne
  unfold finishAbort
  split
  · rw [states_revert]
  · rw [keepsOthers_completeAbort _ u _ t hne, states_revert]

theorem keepsOthers_abort (db : Db κ δ) (u : Nat) (failsAfter : Option Nat) :
    KeepsOthers u db.txMgr (db.abort u failsAfter).txMgr := by
  intro t hne
  obtain ⟨db', heq, habort⟩ := db.abort_cases u failsAfter
  rw [heq]
  cases habort with
  | refused => rfl
  | forgotten hp hhas hend hclock hstates => simp [hstates, hne]
  | reverted hp hhas hm hclock hstates =>
    refine (keepsOthers_finishAbort _ u failsAfter t hne).trans ?_
    simp [hstates, hne]

omit [DecidableEq κ] in
theorem keepsOthers_commit (db : Db κ δ) (u : Nat) :
    KeepsOthers u db.txMgr (db.commit u).1.txMgr := by
  intro t hne
  obtain ⟨db', heq, hcommit⟩ := db.commit_cases u
  rw [heq]
  cases hcommit with
  | refused => rfl
  | logged hp hhas hbegin hclock hstates => simp [hstates, hne]
  | silent hp hhas hm hclock hstates => simp [hstates, hne]

variable {db : Db κ δ} {t : Nat} {p : ConflictPolicy}

theorem keepsOthers_write {db' : Db κ δ} {u : Nat} {key : κ} (h : WriteStep db u key db') :
    KeepsOthers u db.txMgr db'.txMgr := by
  intro t hne
  cases h with
  | wrote hw => rfl
  | failed => rfl
  | aborted hdown => exact keepsOthers_abort db.nextLsn.1 u none t hne

/-- An action keeps every active transaction that it is not made under. -/
theorem step_keepsOthers (h : DbInv db) (a : Action κ δ)
    (ht : db.txMgr.states t = some (.active p)) (ha : a.under ≠ some t) :
    (db.step a).txMgr.states t = some (.active p) := by
  have hcall : ∀ db' u key, t ≠ u → (db' = db ∨ db.txMgr.isTransactionActive u = true ∧
      WriteStep db u key db') → db'.txMgr.states t = some (.active p) := by
    rintro db' u key hne (rfl | ⟨-, hstep⟩)
    · exact ht
    · exact (keepsOthers_write hstep t hne).trans ht
  have hother : ∀ u, a.under = some u → t ≠ u := by
    rintro u hu rfl
    exact ha hu
  cases a with
  | begin policy =>
    show (db.txMgr.createTransaction policy).1.states t = _
    have hne : t ≠ db.txMgr.clock := by
      rintro rfl
      rw [h.txn.fresh_state] at ht
      cases ht
    simp [TransactionManager.createTransaction, hne, ht]
  | insert txn tuple => exact hcall _ _ _ (hother txn rfl) (insert_step h.row_id txn tuple)
  | update txn tuple => exact hcall _ _ _ (hother txn rfl) (update_step h.row_id txn tuple)
  | remove txn key => exact hcall _ _ _ (hother txn rfl) (remove_step h.row_id txn key)
  | commit txn => exact (keepsOthers_commit db txn t (hother txn rfl)).trans ht
  | abort txn failsAfter => exact (keepsOthers_abort db txn failsAfter t (hother txn rfl)).trans ht
  | retryAbort txn failsAfter =>
    simp only [step, retryAbort]
    split
    · next hab =>
        refine (keepsOthers_finishAbort db txn failsAfter t ?_).trans ht
        rintro rfl
        rw [ht] at hab
        cases hab
    · exact ht
  | pruneCommitted =>
    show ((db.txMgr.states t).filter _) = _
    rw [ht]
    rfl
  | vacuum => exact ht
  | purge =>
    simp only [step, purge]
    split
    · exact ht
    · split
      · exact ht
      · exact ht

/-- Nothing but its own end, or a conflict of its own under another policy, ends an active
transaction. -/
theorem step_active (h : DbInv db) (a : Action κ δ)
    (ht : db.txMgr.states t = some (.active .continueOnConflict)) (ha : a.ends ≠ some t) :
    (db.step a).txMgr.states t = some (.active .continueOnConflict) := by
  by_cases hu : a.under = some t
  · -- a write of its own ends it only by a conflict, under the other policy
    have hcall : ∀ db' key, (db' = db ∨ db.txMgr.isTransactionActive t = true ∧
        WriteStep db t key db') → db'.txMgr.states t = some (.active .continueOnConflict) := by
      rintro db' key (rfl | ⟨-, hstep⟩)
      · exact ht
      · cases hstep with
        | wrote hw => exact ht
        | failed => exact ht
        | aborted hdown =>
          have hpolicy := hdown.policy
          rw [TransactionManager.conflictPolicy, ht] at hpolicy
          cases hpolicy
    cases a with
    | insert txn tuple =>
      cases hu
      exact hcall _ _ (insert_step h.row_id t tuple)
    | update txn tuple =>
      cases hu
      exact hcall _ _ (update_step h.row_id t tuple)
    | remove txn key =>
      cases hu
      exact hcall _ _ (remove_step h.row_id t key)
    | commit txn => exact absurd hu ha
    | abort txn failsAfter => exact absurd hu ha
    | _ => cases hu
  · exact step_keepsOthers h a ht hu

/-! ## A transaction ends -/

/-- The entry of `txn` is not an active one. -/
def Ended (m : TransactionManager) (txn : Nat) : Prop := ∀ p, m.states txn ≠ some (.active p)

omit [DecidableEq κ] in
/-- A commit that the store carries out ends the transaction. -/
theorem commit_ends (db : Db κ δ) (txn : Nat) : Ended (db.commit txn).1.txMgr txn := by
  obtain ⟨db', heq, hcommit⟩ := db.commit_cases txn
  rw [heq]
  cases hcommit with
  | refused hno => exact hno
  | logged hp hhas hbegin hclock hstates => exact fun q hq => by simp [hstates] at hq
  | silent hp hhas hm hclock hstates => exact fun q hq => by simp [hstates] at hq

theorem abort_ends (db : Db κ δ) (txn : Nat) (failsAfter : Option Nat) :
    Ended (db.abort txn failsAfter).txMgr txn := not_active_of_abort db txn failsAfter

/-! ## What a write needs and what it changes -/

omit [DecidableEq κ] in
theorem requireActive_eq (ht : db.txMgr.states t = some (.active p)) :
    db.requireActive t = .ok () := by
  rw [requireActive, if_pos]
  exact (db.txMgr.isTransactionActive_iff t).mpr ⟨p, ht⟩

/-- A failed write of a transaction that goes on after conflicts. -/
theorem afterWrite_eq (ht : db.txMgr.states t = some (.active .continueOnConflict))
    (e : StoreError κ) :
    db.afterWrite t e = (db, e) := by
  cases e with
  | writeConflict key =>
    have hpolicy : db.txMgr.conflictPolicy t = .continueOnConflict := by
      rw [TransactionManager.conflictPolicy, ht]
    simp [afterWrite, hpolicy]
  | transactionAlreadyFinished => rfl
  | duplicateKey key => rfl
  | keyNotFound key => rfl
  | writeConflictTransactionAborted key => rfl
  | tupleTooLarge actual budget => rfl
  | pageCapacityError => rfl
  | corruption => rfl
  | unknownError => rfl

/-- `insert` fails and spends an LSN, or it writes the row over none or over a tombstone. -/
theorem insert_cases (h : DbInv db) (ht : db.txMgr.states t = some (.active .continueOnConflict))
    (tuple : Tuple κ δ) :
    (∃ e, db.insert t tuple = (db.nextLsn.1, .error e)) ∨
      ∃ op v, WriteSpec db.nextLsn.1.txMgr t db.nextLsn.2 tuple.id (db.rows tuple.id) op v ∧
        rowData (some v) = some tuple.data ∧
        (∀ c, db.rows tuple.id = some c → c.tombstoned = true) ∧
        db.insert t tuple = (db.nextLsn.1.write db.nextLsn.2 tuple.id op v, .ok ()) := by
  unfold insert writeWithPolicy
  rw [requireActive_eq ht]
  dsimp only
  have hrows : db.nextLsn.1.rows tuple.id = db.rows tuple.id := rfl
  rw [hrows]
  cases hdecide : db.nextLsn.1.insertDecision (stamped tuple t) t db.nextLsn.2
      (db.rows tuple.id) with
  | error e =>
    have hactive : db.nextLsn.1.txMgr.states t = some (.active .continueOnConflict) := ht
    have hafter := afterWrite_eq hactive e
    exact Or.inl ⟨e, by simp [hafter, Except.map]⟩
  | ok r =>
    obtain ⟨db', d⟩ := r
    obtain ⟨op, v, hspec, heq⟩ := insertDecision_spec (h.row_id tuple.id) hdecide
    refine Or.inr ⟨op, v, hspec, ?_, ?_, by simp [heq, Except.map]⟩
    · have hv : (db'.applyDecision tuple.id d).rows tuple.id = some v := by
        rw [heq]
        exact Function.update_self _ _ _
      cases hrow : db.rows tuple.id with
      | none =>
        rw [hrow] at hdecide
        cases hdecide
        simp only [applyDecision, Function.update_self] at hv
        rw [← hv]
        rfl
      | some c =>
        simp only [hrow, insertDecision] at hdecide
        split at hdecide
        · split at hdecide
          · cases hdecide
          · cases hdecide
            simp only [applyDecision, Function.update_self] at hv
            rw [← hv]
            rfl
        · cases hdecide
    · intro c hc
      rw [hc] at hdecide
      by_contra hlive
      simp [insertDecision, hlive] at hdecide

/-- `update` fails and spends an LSN, or it writes the row's data over a live row. -/
theorem update_cases (h : DbInv db) (ht : db.txMgr.states t = some (.active .continueOnConflict))
    (tuple : Tuple κ δ) :
    (∃ e, db.update t tuple = (db.nextLsn.1, .error e)) ∨
      ∃ op v c, WriteSpec db.nextLsn.1.txMgr t db.nextLsn.2 tuple.id (db.rows tuple.id) op v ∧
        rowData (some v) = some tuple.data ∧ db.rows tuple.id = some c ∧
        c.tombstoned = false ∧
        db.update t tuple = (db.nextLsn.1.write db.nextLsn.2 tuple.id op v, .ok ()) := by
  unfold update writeWithPolicy
  rw [requireActive_eq ht]
  dsimp only
  have hrows : db.nextLsn.1.rows tuple.id = db.rows tuple.id := rfl
  rw [hrows]
  cases hdecide : db.nextLsn.1.updateDecision tuple t db.nextLsn.2 (db.rows tuple.id) with
  | error e =>
    have hactive : db.nextLsn.1.txMgr.states t = some (.active .continueOnConflict) := ht
    have hafter := afterWrite_eq hactive e
    exact Or.inl ⟨e, by simp [hafter, Except.map]⟩
  | ok r =>
    obtain ⟨db', d⟩ := r
    obtain ⟨op, v, hspec, heq⟩ := updateDecision_spec (h.row_id tuple.id) hdecide
    unfold updateDecision at hdecide
    cases hold : db.nextLsn.1.replacedVersion tuple.id t (db.rows tuple.id) with
    | error e =>
      rw [hold] at hdecide
      cases hdecide
    | ok old =>
      obtain ⟨hrow, hlive, -⟩ := replacedVersion_ok hold
      rw [hold] at hdecide
      cases hdecide
      refine Or.inr ⟨op, v, old, hspec, ?_, hrow, hlive, ?_⟩
      · have hv := congrFun (congrArg Db.rows heq) tuple.id
        simp only [applyDecision, write, Function.update_self] at hv
        rw [← hv, rowData, asRow_live]
        · rfl
        · exact hlive
      · simp [heq, Except.map]

/-- `remove` fails and spends an LSN, or it writes a tombstone over a live row. -/
theorem remove_cases (h : DbInv db) (ht : db.txMgr.states t = some (.active .continueOnConflict))
    (key : κ) :
    (∃ e, db.remove t key = (db.nextLsn.1, .error e)) ∨
      ∃ op v c, WriteSpec db.nextLsn.1.txMgr t db.nextLsn.2 key (db.rows key) op v ∧
        rowData (some v) = none ∧ db.rows key = some c ∧ c.tombstoned = false ∧
        db.remove t key = (db.nextLsn.1.write db.nextLsn.2 key op v, .ok c) := by
  unfold remove writeWithPolicy
  rw [requireActive_eq ht]
  dsimp only
  have hrows : db.nextLsn.1.rows key = db.rows key := rfl
  rw [hrows]
  cases hdecide : db.nextLsn.1.removeDecision key t db.nextLsn.2 (db.rows key) with
  | error e =>
    have hactive : db.nextLsn.1.txMgr.states t = some (.active .continueOnConflict) := ht
    have hafter := afterWrite_eq hactive e
    exact Or.inl ⟨e, by simp [hafter]⟩
  | ok r =>
    obtain ⟨db', d⟩ := r
    obtain ⟨op, v, hspec, heq⟩ := removeDecision_spec (h.row_id key) hdecide
    unfold removeDecision at hdecide
    cases hold : db.nextLsn.1.replacedVersion key t (db.rows key) with
    | error e =>
      rw [hold] at hdecide
      cases hdecide
    | ok old =>
      obtain ⟨hrow, hlive, -⟩ := replacedVersion_ok hold
      rw [hold] at hdecide
      cases hdecide
      refine Or.inr ⟨op, v, old, hspec, ?_, hrow, hlive, ?_⟩
      · have hv := congrFun (congrArg Db.rows heq) key
        simp only [applyDecision, write, Function.update_self] at hv
        rw [← hv]
        rfl
      · simp [heq, hrow]

/-- Where no version conflicts, a transaction sees the row that is there. -/
theorem view_of_free (h : DbInv db) (ht : db.txMgr.states t = some (.active p)) {key : κ}
    (hfree : ∀ c, db.rows key = some c → ∃ w, c.txnId = some w ∧ db.txMgr.conflicts w t = false) :
    db.view t key = rowData (db.rows key) := by
  obtain ⟨row, hfind, hview⟩ := find_view h ht key
  obtain ⟨sn, hsn, -⟩ := h.txn.snapshot t p ht
  rw [← hview]
  unfold find at hfind
  rw [h.txn.snapshot_eq_some ht hsn] at hfind
  cases hrow : db.rows key with
  | none =>
    simp only [hrow] at hfind
    cases hfind
    rfl
  | some c =>
    simp only [hrow] at hfind
    obtain ⟨own, base, older, hk⟩ := h.key key
    obtain ⟨w, hw, hwrote, hknown⟩ := h.known_of_mem hk (hk.row_mem hrow)
    have hvisible : Visible (commitTs db.log) w t := by
      obtain ⟨w', hw', hconflicts⟩ := hfree c hrow
      obtain rfl := Option.some.inj (hw.symm.trans hw')
      refine h.txn.visible_of_not_conflicts (Or.inl ht) hwrote ?_ hconflicts
      intro hnone
      obtain ⟨cw, hcw⟩ := Option.ne_none_iff_exists'.mp (hknown.resolve_left (not_not.mpr hnone))
      exact ⟨cw, hcw, h.txn.absentTs w cw hnone hcw t p ht⟩
    have hsees := (snapshotSees_iff h.txn h.noCommitting ht hwrote hknown hsn).mpr hvisible
    cases htomb : c.tombstoned with
    | true =>
      simp only [visibleVersion, walkBack, hw, hsees, htomb, if_true] at hfind
      cases hfind
      rw [rowData, asRow_tombstoned htomb]
    | false =>
      simp only [visibleVersion, walkBack, hw, hsees, htomb, if_true, Bool.false_eq_true,
        if_false] at hfind
      cases hfind
      rw [rowData, asRow_live htomb]

/-- What the record of a write changes of what transactions wrote. -/
theorem ownWrite_write {key : κ} {op : Operation κ δ} {v : Tuple κ δ}
    (hw : WriteSpec db.nextLsn.1.txMgr t db.nextLsn.2 key (db.rows key) op v) :
    (db.nextLsn.1.write db.nextLsn.2 key op v).ownWrite t =
      Function.update (db.ownWrite t) key (some (rowData (some v))) := by
  have hlog : (db.nextLsn.1.write db.nextLsn.2 key op v).log =
      db.log ++ [⟨db.nextLsn.2, op⟩] := rfl
  have hwritten : (LogRecord.mk db.nextLsn.2 op).written = some v := hw.written
  funext other
  unfold ownWrite ownVersions
  rw [hlog]
  by_cases hkey : other = key
  · subst hkey
    rw [Function.update_self, versionsOf_append_self _ _ hwritten hw.id, List.filter_append,
      List.filter_singleton, decide_eq_true hw.txnId]
    simp
  · rw [Function.update_of_ne hkey, versionsOf_append_of_ne _ _ hwritten]
    exact fun heq => hkey (heq.symm.trans hw.id)

/-- A write leaves the rows its writer began with, and changes what it sees at the key. -/
theorem view_write (h : DbInv db) (ht : db.txMgr.states t = some (.active p)) {key : κ}
    {op : Operation κ δ} {v : Tuple κ δ}
    (hw : WriteSpec db.nextLsn.1.txMgr t db.nextLsn.2 key (db.rows key) op v) :
    db.view t key = rowData (db.rows key) ∧
      (db.nextLsn.1.write db.nextLsn.2 key op v).ownWrite t =
        Function.update (db.ownWrite t) key (some (rowData (some v))) := by
  refine ⟨view_of_free h ht fun c hc => ?_, ownWrite_write hw⟩
  rcases hw.replaces with ⟨hnone, -⟩ | ⟨c', w, hc', hw', hconflicts, -⟩
  · rw [hnone] at hc
    cases hc
  · obtain rfl := Option.some.inj (hc.symm.trans hc')
    exact ⟨w, hw', hconflicts⟩

/-- An insert goes through only where its transaction sees no row, which it then does. -/
theorem insert_view (h : DbInv db) (ht : db.txMgr.states t = some (.active .continueOnConflict))
    (tuple : Tuple κ δ) :
    (∃ e, (db.insert t tuple).2 = .error e ∧
        (db.insert t tuple).1.ownWrite t = db.ownWrite t) ∨
      (db.insert t tuple).2 = .ok () ∧ db.view t tuple.id = none ∧
        (db.insert t tuple).1.ownWrite t =
          Function.update (db.ownWrite t) tuple.id (some (some tuple.data)) := by
  rcases insert_cases h ht tuple with ⟨e, heq⟩ | ⟨op, v, hw, hdata, htomb, heq⟩
  · left
    rw [heq]
    exact ⟨e, rfl, rfl⟩
  · right
    obtain ⟨hview, hown⟩ := view_write h ht hw
    rw [heq, hview, hown, hdata]
    refine ⟨rfl, ?_, rfl⟩
    cases hrow : db.rows tuple.id with
    | none => rfl
    | some c => rw [rowData, asRow_tombstoned (htomb c hrow), Option.map_none]

/-- An update goes through only where its transaction sees a row, which it then sees changed. -/
theorem update_view (h : DbInv db) (ht : db.txMgr.states t = some (.active .continueOnConflict))
    (tuple : Tuple κ δ) :
    (∃ e, (db.update t tuple).2 = .error e ∧
        (db.update t tuple).1.ownWrite t = db.ownWrite t) ∨
      (db.update t tuple).2 = .ok () ∧ db.view t tuple.id ≠ none ∧
        (db.update t tuple).1.ownWrite t =
          Function.update (db.ownWrite t) tuple.id (some (some tuple.data)) := by
  rcases update_cases h ht tuple with ⟨e, heq⟩ | ⟨op, v, c, hw, hdata, hrow, hlive, heq⟩
  · left
    rw [heq]
    exact ⟨e, rfl, rfl⟩
  · right
    obtain ⟨hview, hown⟩ := view_write h ht hw
    rw [heq, hview, hown, hdata, hrow, rowData, asRow_live hlive]
    exact ⟨rfl, nofun, rfl⟩

/-- A remove goes through only where its transaction sees a row, which it then does not. -/
theorem remove_view (h : DbInv db) (ht : db.txMgr.states t = some (.active .continueOnConflict))
    (key : κ) :
    (∃ e, (db.remove t key).2 = .error e ∧ (db.remove t key).1.ownWrite t = db.ownWrite t) ∨
      (∃ old, (db.remove t key).2 = .ok old) ∧ db.view t key ≠ none ∧
        (db.remove t key).1.ownWrite t = Function.update (db.ownWrite t) key (some none) := by
  rcases remove_cases h ht key with ⟨e, heq⟩ | ⟨op, v, c, hw, hdata, hrow, hlive, heq⟩
  · left
    rw [heq]
    exact ⟨e, rfl, rfl⟩
  · right
    obtain ⟨hview, hown⟩ := view_write h ht hw
    rw [heq, hview, hown, hdata, hrow, rowData, asRow_live hlive]
    exact ⟨⟨c, rfl⟩, nofun, rfl⟩

end Db

end SquealDb.Store
