import SquealDb.Store.TxnVisibility

/-!
# Runs of the transaction table

The operations of `TransactionManager` in any order, as `Db` calls them: a
transaction that wrote commits through `begin_commit` and `finish_commit`
(whose record is queued), one that did not through `commit`; an abort is
`abort` and then `abort_complete`, or `end_read_only` for a transaction that
wrote nothing.  The run keeps, beside the table, the commit timestamps minted
and the transactions that wrote.

The result is that a reader's frozen snapshot and the shared table agree for
as long as the reader is active, with one exception that is by design: a
writer that aborted and was forgotten is taken by the table for one that
committed long ago, while a snapshot taken before it was forgotten still
lists it as unfinished (`forgotten_abort_told_apart`).  None of its versions
is left on a page by then, so nobody asks.
-/

namespace SquealDb.Store

/-- The table, with the history its answers are about. -/
structure TxnRun where
  mgr : TransactionManager
  commitTs : Nat → Option Nat
  wrote : Nat → Bool

/-- One call to the table. -/
inductive TxnAction where
  | createTransaction (policy : ConflictPolicy)
  | write (txn : Nat)
  | beginCommit (txn : Nat)
  | finishCommit (txn : Nat)
  | commitReadOnly (txn : Nat)
  | abort (txn : Nat)
  | abortComplete (txn : Nat)
  | endReadOnly (txn : Nat)
  | pruneCommitted

namespace TxnRun

def init : TxnRun := ⟨.new, fun _ => none, fun _ => false⟩

/-- One step; a call the caller's own checks refuse changes nothing. -/
def step (s : TxnRun) : TxnAction → TxnRun
  | .createTransaction policy => { s with mgr := (s.mgr.createTransaction policy).1 }
  | .write txn =>
    if s.mgr.isTransactionActive txn then
      { s with mgr := s.mgr.nextLsn.1, wrote := Function.update s.wrote txn true }
    else s
  | .beginCommit txn =>
    if s.wrote txn then
      match s.mgr.beginCommit txn with
      | some (mgr, c) =>
        { s with mgr := mgr, commitTs := Function.update s.commitTs txn (some c) }
      | none => s
    else s
  | .finishCommit txn => { s with mgr := s.mgr.finishCommit txn true }
  | .commitReadOnly txn =>
    if s.wrote txn then s
    else match s.mgr.nextLsn.1.commit txn s.mgr.nextLsn.2 with
      | some mgr => { s with mgr := mgr }
      | none => { s with mgr := s.mgr.nextLsn.1 }
  | .abort txn =>
    match s.mgr.abort txn with
    | some mgr => { s with mgr := mgr }
    | none => s
  | .abortComplete txn =>
    if s.mgr.states txn = some .aborting then
      { s with mgr := (s.mgr.abortComplete txn (s.wrote txn)).1 }
    else s
  | .endReadOnly txn =>
    if s.wrote txn then s
    else match s.mgr.endReadOnly txn with
      | some mgr => { s with mgr := mgr }
      | none => s
  | .pruneCommitted => { s with mgr := s.mgr.pruneCommitted.1 }

/-- The states every order of calls leads to. -/
def Reachable : TxnRun → Prop := Lib.Reachable step (fun _ _ => True) init

/-- The table's invariant, of the run's own history. -/
def Inv (s : TxnRun) : Prop := TxnInv s.mgr s.commitTs fun id => s.wrote id = true

theorem inv_init : Inv init where
  idLt id hid := absurd rfl hid
  wroteLt id hid := by simp [init] at hid
  tsWrote id c hc := by simp [init] at hc
  tsBound id c hc := by simp [init] at hc
  tsNe id c r hc := by simp [init] at hc
  committedTs id c hw := by simp [init] at hw
  committingTs id c p hst := by simp [init, TransactionManager.new] at hst
  activeTs id p hst := by simp [init, TransactionManager.new] at hst
  abortingTs id hst := by simp [init, TransactionManager.new] at hst
  abortedTs id a hst := by simp [init, TransactionManager.new] at hst
  absentTs id c hst hc := by simp [init] at hc
  snapshot r p hr := by simp [init, TransactionManager.new] at hr

theorem inv_step (s : TxnRun) (a : TxnAction) (h : Inv s) : Inv (step s a) := by
  cases a with
  | createTransaction policy => exact h.createTransaction policy
  | write txn =>
    simp only [step]
    split
    · next hact =>
        have hp := (s.mgr.isTransactionActive_iff txn).mp hact
        have hmark := (h.markWrote (Or.inl hp)).nextLsn
        have hwrote : (fun id => Function.update s.wrote txn true id = true) =
            fun id => s.wrote id = true ∨ id = txn := by
          funext id
          by_cases heq : id = txn <;> simp [heq]
        unfold Inv
        dsimp only
        rw [hwrote]
        exact hmark
    · exact h
  | beginCommit txn =>
    simp only [step]
    split
    · next hw =>
        split
        · next mgr c hm => exact TxnInv.beginCommit h hw hm
        · exact h
    · exact h
  | finishCommit txn => exact h.finishCommit txn
  | commitReadOnly txn =>
    simp only [step]
    split
    · exact h
    · next hw =>
        split
        · next mgr hm => exact TxnInv.commit h.nextLsn hw hm
        · exact h.nextLsn
  | abort txn =>
    simp only [step]
    split
    · next mgr hm => exact TxnInv.abort h hm
    · exact h
  | abortComplete txn =>
    simp only [step]
    split
    · next hst => exact h.abortComplete _ (hst ▸ trivial) (h.abortingTs _ hst)
    · exact h
  | endReadOnly txn =>
    simp only [step]
    split
    · exact h
    · split
      · next mgr hm => exact TxnInv.endReadOnly h hm
      · exact h
  | pruneCommitted => exact h.pruneCommitted

theorem inv_of_reachable {s : TxnRun} (h : Reachable s) : Inv s :=
  h.invariant inv_init fun s a hs _ => inv_step s a hs

/-! ## The answer does not change -/

/-- What a step does to the history and to a reader that is active after it:
the clock does not go back, a timestamp that is new is the clock's value, and
the reader began in this step or keeps its snapshot. -/
structure StepSpec (s s' : TxnRun) : Prop where
  clock : s.mgr.clock ≤ s'.mgr.clock
  commitTs : ∀ w, s'.commitTs w = s.commitTs w ∨
    s.commitTs w = none ∧ s'.commitTs w = some s.mgr.clock
  reader : ∀ r p, s'.mgr.states r = some (.active p) → r = s.mgr.clock ∨
    s.mgr.states r = some (.active p) ∧ s'.mgr.snapshots r = s.mgr.snapshots r

theorem StepSpec.refl (s : TxnRun) : StepSpec s s :=
  ⟨Nat.le_refl _, fun _ => Or.inl rfl, fun _ _ hr => Or.inr ⟨hr, rfl⟩⟩

/-- An operation that moves one entry to a state that is not active. -/
theorem StepSpec.ofClosed {s : TxnRun} {mgr : TransactionManager} {txn : Nat}
    {state : Option TxnState} (hclock : s.mgr.clock ≤ mgr.clock)
    (hstates : mgr.states = Function.update s.mgr.states txn state)
    (hactive : ∀ p, state ≠ some (.active p))
    (hsnap : ∀ r, r ≠ txn → mgr.snapshots r = s.mgr.snapshots r) :
    StepSpec s { s with mgr := mgr } := by
  refine ⟨hclock, fun _ => Or.inl rfl, fun r p hr => Or.inr ?_⟩
  dsimp only at hr ⊢
  rw [hstates] at hr
  have hne : r ≠ txn := by
    rintro rfl
    rw [Function.update_self] at hr
    exact hactive p hr
  rw [Function.update_of_ne hne] at hr
  exact ⟨hr, hsnap r hne⟩

theorem step_spec (s : TxnRun) (a : TxnAction) (h : Inv s) : StepSpec s (step s a) := by
  have hne := fun r txn active forGood =>
    s.mgr.setActive_snapshots_of_ne txn r active forGood
  cases a with
  | createTransaction policy =>
    refine ⟨Nat.le_succ _, fun _ => Or.inl rfl, fun r p hr => ?_⟩
    by_cases heq : r = s.mgr.clock
    · exact Or.inl heq
    · simp only [step, TransactionManager.createTransaction,
        Function.update_of_ne heq] at hr ⊢
      exact Or.inr ⟨hr, trivial⟩
  | write txn =>
    simp only [step]
    split
    · exact ⟨Nat.le_succ _, fun _ => Or.inl rfl, fun r p hr => Or.inr ⟨hr, rfl⟩⟩
    · exact StepSpec.refl s
  | beginCommit txn =>
    simp only [step]
    split
    · split
      · next mgr c hm =>
          unfold TransactionManager.beginCommit at hm
          split at hm
          · next p hst =>
              cases hm
              have hclosed : StepSpec s { s with mgr := (s.mgr.nextLsn.1.setState txn
                  (some (.committing s.mgr.clock p))).setActive txn false false } :=
                StepSpec.ofClosed (Nat.le_succ _) rfl (by simp)
                  (fun r hr => hne r txn false false hr)
              refine ⟨hclosed.clock, fun w => ?_, hclosed.reader⟩
              by_cases heq : w = txn
              · subst heq
                exact Or.inr ⟨h.activeTs w p hst, Function.update_self _ _ _⟩
              · exact Or.inl (Function.update_of_ne heq _ _)
          · cases hm
      · exact StepSpec.refl s
    · exact StepSpec.refl s
  | finishCommit txn =>
    simp only [step, TransactionManager.finishCommit]
    split
    · exact StepSpec.ofClosed (Nat.le_refl _) rfl (by simp)
        (fun r hr => hne r txn false true hr)
    · exact StepSpec.refl s
  | commitReadOnly txn =>
    simp only [step]
    split
    · exact StepSpec.refl s
    · split
      · next mgr hm =>
          unfold TransactionManager.commit at hm
          split at hm
          · cases hm
            exact StepSpec.ofClosed (Nat.le_succ _) rfl (by simp)
              (fun r hr => hne r txn false true hr)
          · cases hm
      · exact ⟨Nat.le_succ _, fun _ => Or.inl rfl, fun r p hr => Or.inr ⟨hr, rfl⟩⟩
  | abort txn =>
    simp only [step]
    split
    · next mgr hm =>
        unfold TransactionManager.abort at hm
        split at hm
        · cases hm
          exact StepSpec.ofClosed (Nat.le_refl _) rfl (by simp)
            (fun r hr => hne r txn false true hr)
        · cases hm
    · exact StepSpec.refl s
  | abortComplete txn =>
    simp only [step, TransactionManager.abortComplete]
    split
    · split
      · exact StepSpec.ofClosed (Nat.le_refl _) rfl (by simp) (fun _ _ => rfl)
      · exact StepSpec.ofClosed (Nat.le_refl _) rfl (by simp)
          (fun r hr => hne r txn false true hr)
    · exact StepSpec.refl s
  | endReadOnly txn =>
    simp only [step]
    split
    · exact StepSpec.refl s
    · split
      · next mgr hm =>
          unfold TransactionManager.endReadOnly at hm
          split at hm
          · cases hm
            exact StepSpec.ofClosed (Nat.le_refl _) rfl (by simp)
              (fun r hr => hne r txn false true hr)
          · cases hm
      · exact StepSpec.refl s
  | pruneCommitted =>
    refine ⟨Nat.le_refl _, fun _ => Or.inl rfl, fun r p hr => Or.inr ⟨?_, rfl⟩⟩
    simp only [step, TransactionManager.pruneCommitted, Option.filter_eq_some_iff] at hr
    exact hr.1

/-- A timestamp minted once the reader has begun is above its id. -/
theorem StepSpec.visible_iff {s s' : TxnRun} (h : StepSpec s s') {r : Nat}
    (hr : r < s.mgr.clock) (w : Nat) :
    Visible s'.commitTs w r ↔ Visible s.commitTs w r := by
  unfold Visible
  rcases h.commitTs w with heq | ⟨hnone, hnew⟩
  · rw [heq]
  · rw [hnone, hnew]
    refine or_congr_right (iff_of_false ?_ (by simp))
    rintro ⟨c, hc, hlt⟩
    cases hc
    omega

/-- Over the whole life of a reader its snapshot stays what it was, and so
does what it is to see. -/
theorem reader_of_run {s : TxnRun} (h : Inv s) (as : List TxnAction) {r : Nat}
    {p : ConflictPolicy} (hlt : r < s.mgr.clock)
    (hr : (Lib.run step s as).mgr.states r = some (.active p)) :
    s.mgr.states r = some (.active p) ∧
      (Lib.run step s as).mgr.snapshots r = s.mgr.snapshots r ∧
      ∀ w, Visible (Lib.run step s as).commitTs w r ↔ Visible s.commitTs w r := by
  induction as generalizing s with
  | nil => exact ⟨hr, rfl, fun _ => Iff.rfl⟩
  | cons a as ih =>
    have hspec := step_spec s a h
    obtain ⟨hr', hsnap, hvis⟩ :=
      ih (inv_step s a h) (Nat.lt_of_lt_of_le hlt hspec.clock) hr
    rcases hspec.reader r p hr' with rfl | ⟨hact, hsnap'⟩
    · exact absurd hlt (Nat.lt_irrefl _)
    · exact ⟨hact, hsnap.trans hsnap', fun w => (hvis w).trans (hspec.visible_iff hlt w)⟩

/-- A moment of the life of `r` at which a question about `w` may be asked: `r`
is active, `w` has written, and `w` is not an aborted transaction that has
been forgotten. -/
structure Moment (s : TxnRun) (r w : Nat) (t : TxnRun) : Prop where
  run : ∃ as, t = Lib.run step s as
  reader : t.mgr.isTransactionActive r = true
  wrote : t.wrote w = true
  known : Known t.mgr t.commitTs w

/-- For every active reader, at every moment of its life: its frozen snapshot,
completed by the shared table where it leaves the answer open, says what the
shared table says, and that is the rule of snapshot isolation.  `reads` are
the moments at which the turns of one `is_visible` call read the table; a turn
that goes round again waits for a commit, and answers once that is done. -/
theorem sees_agrees_with_isVisible {s : TxnRun} (h : Reachable s) {r : Nat}
    (hr : s.mgr.isTransactionActive r = true) :
    ∃ sn, s.mgr.snapshot r = some sn ∧
      ∀ w (reads : List TxnRun), (∀ t ∈ reads, Moment s r w t) →
        (∀ t ∈ reads, t.mgr.snapshot r = some sn ∧
          (Visible t.commitTs w r ↔ Visible s.commitTs w r) ∧
          (t.mgr.isVisibleOnce w r = none →
            (step t (.finishCommit w)).mgr.isVisibleOnce w r = some true)) ∧
        ∀ b, TransactionManager.isVisible (reads.map TxnRun.mgr) w r = some b →
          (sn.sees w).getD b = b ∧ (b = true ↔ Visible s.commitTs w r) := by
  have hinv := inv_of_reachable h
  obtain ⟨p, hp⟩ := (s.mgr.isTransactionActive_iff r).mp hr
  have hlt : r < s.mgr.clock := hinv.idLt r (by simp [hp])
  obtain ⟨sn, hsn, -⟩ := hinv.snapshot r p hp
  refine ⟨sn, hinv.snapshot_eq_some hp hsn, fun w reads hreads => ?_⟩
  -- what each moment gives: the invariant, the same snapshot, the same rule
  have hmoment : ∀ t ∈ reads, Inv t ∧ (∃ q, t.mgr.states r = some (.active q)) ∧
      t.mgr.snapshots r = some sn ∧
      (Visible t.commitTs w r ↔ Visible s.commitTs w r) := by
    intro t ht
    obtain ⟨⟨as, rfl⟩, hact, -, -⟩ := hreads t ht
    obtain ⟨q, hq⟩ := (TransactionManager.isTransactionActive_iff _ r).mp hact
    obtain ⟨-, hsnap, hvis⟩ := reader_of_run hinv as hlt hq
    exact ⟨Lib.run_induction inv_step hinv as, ⟨q, hq⟩, hsnap.trans hsn, hvis w⟩
  refine ⟨fun t ht => ?_, fun b hb => ?_⟩
  · obtain ⟨hti, ⟨q, hq⟩, hsnap, hvis⟩ := hmoment t ht
    refine ⟨hti.snapshot_eq_some hq hsnap, hvis, fun hwait => ?_⟩
    obtain ⟨⟨c, q', hst⟩, hv⟩ := hti.visible_of_waits hq hwait
    have hts := hti.committingTs w c q' hst
    rcases hv with rfl | ⟨c', hc', hlt'⟩
    · simp [TransactionManager.isVisibleOnce]
    · rw [hts] at hc'
      cases hc'
      simp [step, TransactionManager.finishCommit, hst,
        TransactionManager.isVisibleOnce, hlt']
  · obtain ⟨m, hm, hone⟩ := List.exists_of_findSome?_eq_some hb
    obtain ⟨t, ht, rfl⟩ := List.mem_map.mp hm
    obtain ⟨hti, ⟨q, hq⟩, hsnap, hvis⟩ := hmoment t ht
    have hbv := hti.isVisibleOnce_iff hq (hreads t ht).wrote (hreads t ht).known hone
    refine ⟨?_, hbv.trans hvis⟩
    cases hsees : sn.sees w with
    | none => rfl
    | some b' =>
      have hbv' := hti.sees_iff hq (hreads t ht).wrote (hreads t ht).known hsnap hsees
      exact Bool.eq_iff_iff.mpr (hbv'.trans hbv.symm)

/-- A reader and a writer that is committing as the reader begins. -/
theorem sees_agrees_with_isVisible_committing :
    let s := Lib.run step init [.createTransaction .continueOnConflict, .write 1,
      .beginCommit 1, .createTransaction .continueOnConflict]
    let t := Lib.run step s [.finishCommit 1]
    s.mgr.isTransactionActive 4 = true ∧
      TransactionManager.isVisible [s.mgr, t.mgr] 1 4 = some true ∧
      Visible s.commitTs 1 4 := by
  intro s t
  have hs : Reachable s := Lib.reachable_run _ (Lib.allowed_true _ _)
  have hact : s.mgr.isTransactionActive 4 = true := by decide
  have hvis : TransactionManager.isVisible [s.mgr, t.mgr] 1 4 = some true := by decide
  have hreads : ∀ u ∈ [s, t], Moment s 4 1 u := by
    simp only [List.mem_cons, List.not_mem_nil, or_false, forall_eq_or_imp, forall_eq]
    exact ⟨⟨⟨[], rfl⟩, by decide, by decide, Or.inl (by decide)⟩,
      ⟨⟨[.finishCommit 1], rfl⟩, by decide, by decide, Or.inl (by decide)⟩⟩
  obtain ⟨sn, -, hall⟩ := sees_agrees_with_isVisible hs hact
  exact ⟨hact, hvis, ((hall 1 [s, t] hreads).2 true hvis).2.mp rfl⟩

/-- Writer 1 aborts while reader 3 keeps it in the table, reader 4 begins and
takes it for unfinished, reader 3 ends, and a prune forgets writer 1: from
then on the snapshot of reader 4 and the table disagree about it, and the
table's answer has changed, though it never committed. -/
theorem forgotten_abort_told_apart :
    let s := Lib.run step init [.createTransaction .continueOnConflict, .write 1,
      .createTransaction .continueOnConflict, .abort 1, .abortComplete 1,
      .createTransaction .continueOnConflict]
    let t := Lib.run step s [.endReadOnly 3, .pruneCommitted]
    Reachable s ∧ s.mgr.isTransactionActive 4 = true ∧
      t.mgr.isTransactionActive 4 = true ∧ t.wrote 1 = true ∧ t.commitTs 1 = none ∧
      (t.mgr.snapshot 4).map (fun sn => sn.sees 1) = some (some false) ∧
      TransactionManager.isVisible [s.mgr] 1 4 = some false ∧
      TransactionManager.isVisible [t.mgr] 1 4 = some true := by
  refine ⟨Lib.reachable_run _ (Lib.allowed_true _ _), ?_⟩
  decide

end TxnRun

end SquealDb.Store
