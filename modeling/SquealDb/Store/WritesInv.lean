import SquealDb.Store.Threads
import SquealDb.Store.Writing
import SquealDb.Store.Ending
import SquealDb.Store.SnapshotReads

/-!
# What is on the pages while writes and aborts are under way

A transaction that is not in the table counts as committed long ago, so a row
version must not outlive its transaction's entry.  `WritesInv` says that every
row's writer is in flight or committed, and that each row of a transaction in
flight has an undo that takes it away; `TaskInv` says of each abort under way
that what it has yet to revert is on its list.  Whatever is taken for committed
in such a state is (`WritesInv.committed_of_taken`).

Most steps only let go of something, which `WritesInv.Lets` says once for all
of them.
-/

namespace SquealDb.Store

open Lib

variable {κ δ : Type*}

/-- The undo is of a key and puts back a version that is not the
transaction's. -/
def Undoes (t : Nat) (key : κ) (u : Undo κ δ) : Prop :=
  u.key = key ∧ ∀ p, u.target = some p → p.txnId ≠ some t

/-- A version that can still be met: a row, a pre-image, or what an abort
under way is about to put back. -/
def Held (db : Db κ δ) (todo : Tuple κ δ → Prop) (v : Tuple κ δ) : Prop :=
  Stored db v ∨ todo v

/-- The invariant of the store while writes are under way: `todo` is what
aborts may yet put back, `minted` the LSNs of the calls that have not
landed. -/
structure WritesInv (db : Db κ δ) (todo : Tuple κ δ → Prop) (minted : List Nat) : Prop where
  txn : TxnInv db.txMgr (commitTs db.log) (Wrote db.log)
  noCommitting : ∀ id c p, db.txMgr.states id ≠ some (.committing c p)
  rowId : ∀ key v, db.rows key = some v → v.id = key
  /-- The writer of a row is in flight or committed. -/
  rowWriter : ∀ key v, db.rows key = some v → ∃ w, v.txnId = some w ∧ Wrote db.log w ∧
    (InFlight db.txMgr w ∨ ∃ c, commitTs db.log w = some c)
  /-- What a version replaced was the same writer's, or committed. -/
  pre : ∀ v l p, Held db todo v → v.preLsn = some l → db.versions.find l = some p →
    p.txnId = v.txnId ∨ CommittedBy (commitTs db.log) p
  kept : ∀ t l p, .replaced l ∈ db.versions.writtenBy t → db.versions.find l = some p →
    p.txnId = some t ∨ CommittedBy (commitTs db.log) p
  /-- A row of a transaction in flight has an undo that takes it away. -/
  undo : ∀ t key v, InFlight db.txMgr t → db.rows key = some v → v.txnId = some t →
    ∃ u ∈ db.versions.undoOf t, Undoes t key u
  ownerUnique : ∀ l t t', .replaced l ∈ db.versions.writtenBy t →
    .replaced l ∈ db.versions.writtenBy t' → t = t'
  hasWrites : ∀ t p, db.txMgr.states t = some (.active p) →
    (db.versions.hasWrites t = true ↔ Wrote db.log t)
  byTxnLt : ∀ t, db.versions.hasWrites t = true → t < db.txMgr.clock
  committedQueue : ∀ e ∈ db.versions.committed, commitTs db.log e.2.1 = some e.1
  mintedLt : ∀ l ∈ minted, l < db.txMgr.clock
  mintedNodup : minted.Nodup
  preLt : ∀ v l, Held db todo v → v.preLsn = some l → l < db.txMgr.clock
  writtenLt : ∀ t l, .replaced l ∈ db.versions.writtenBy t → l < db.txMgr.clock
  findLt : ∀ l p, db.versions.find l = some p → l < db.txMgr.clock
  preFresh : ∀ v l, Held db todo v → v.preLsn = some l → l ∉ minted
  writtenFresh : ∀ t l, .replaced l ∈ db.versions.writtenBy t → l ∉ minted
  findFresh : ∀ l p, db.versions.find l = some p → l ∉ minted

/-- No row is the transaction's. -/
def NoRows (db : Db κ δ) (t : Nat) : Prop :=
  ∀ key v, db.rows key = some v → v.txnId ≠ some t

/-- What holds of an abort, by how far it has come. -/
def TaskInv (db : Db κ δ) (a : AbortTask κ δ) : Prop :=
  match a.phase with
  | .checked wrote => wrote = false → InFlight db.txMgr a.txn → NoRows db a.txn
  | .aborting | .finishing _ =>
    Ending (db.txMgr.states a.txn) ∧ commitTs db.log a.txn = none
  | .reverting _ todo => Ending (db.txMgr.states a.txn) ∧ commitTs db.log a.txn = none ∧
      (∀ key v, db.rows key = some v → v.txnId = some a.txn → ∃ u ∈ todo, Undoes a.txn key u) ∧
      ∀ u ∈ todo, ∀ p, u.target = some p →
        p.txnId = some a.txn ∨ CommittedBy (commitTs db.log) p
  | .reverted _ | .forgotten =>
    Ending (db.txMgr.states a.txn) ∧ commitTs db.log a.txn = none ∧ NoRows db a.txn

/-- What the abort may yet put back. -/
def AbortTask.todo (a : AbortTask κ δ) : List (Undo κ δ) :=
  match a.phase with
  | .reverting _ todo => todo
  | _ => []

namespace Threads

/-- What some abort under way may yet put back. -/
def toRestore (aborts : List (AbortTask κ δ)) (v : Tuple κ δ) : Prop :=
  ∃ a ∈ aborts, ∃ u ∈ a.todo, u.target = some v

/-- The invariant of the store and its threads. -/
structure Inv (s : Threads κ δ) : Prop where
  writes : WritesInv s.db (toRestore s.aborts) (s.calls.map Prod.snd)
  taskLt : ∀ a ∈ s.aborts, a.txn < s.db.txMgr.clock
  task : ∀ a ∈ s.aborts, TaskInv s.db a
  callLt : ∀ c ∈ s.calls, c.1.txn < s.db.txMgr.clock

end Threads

/-! ## What is taken for committed -/

namespace WritesInv

variable {db : Db κ δ} {todo : Tuple κ δ → Prop} {minted : List Nat}

variable {v : Tuple κ δ} {w : Nat}

/-- A row that the conflict check of another transaction lets it write over is
committed. -/
theorem committed_of_not_conflicts (h : WritesInv db todo minted) {key : κ} {r : Nat}
    (hrow : db.rows key = some v) (hw : v.txnId = some w) (hne : w ≠ r)
    (hcon : db.txMgr.conflicts w r = false) : ∃ c, commitTs db.log w = some c := by
  obtain ⟨w', hw', -, hfl | hc⟩ := h.rowWriter key v hrow
  · rw [hw] at hw'
    cases hw'
    unfold TransactionManager.conflicts at hcon
    rw [if_neg hne] at hcon
    rcases hfl with ⟨p, hp⟩ | hp
    · rw [hp] at hcon
      cases hcon
    · rw [hp] at hcon
      cases hcon
  · rw [hw] at hw'
    cases hw'
    exact hc

/-- A version that a reader's snapshot takes for committed is its own or is
committed, if its writer is in flight or committed. -/
theorem committed_of_sees (h : WritesInv db todo minted) {r : Nat} {p : ConflictPolicy}
    {sn : Snapshot} (hr : db.txMgr.states r = some (.active p))
    (hsn : db.txMgr.snapshot r = some sn) (hw : Wrote db.log w)
    (hlive : InFlight db.txMgr w ∨ ∃ c, commitTs db.log w = some c)
    (hsees : db.snapshotSees sn w = true) : w = r ∨ ∃ c, commitTs db.log w = some c := by
  have hk : Known db.txMgr (commitTs db.log) w := by
    rcases hlive with (⟨q, hq⟩ | hq) | ⟨c, hc⟩
    · exact Or.inl (by simp [hq])
    · exact Or.inl (by simp [hq])
    · exact Or.inr (by simp [hc])
  have hsn' : db.txMgr.snapshots r = some sn := by
    unfold TransactionManager.snapshot at hsn
    rw [Option.filter_eq_some_iff] at hsn
    exact hsn.1
  have hvis := (Db.snapshotSees_iff h.txn h.noCommitting hr hw hk hsn').mp hsees
  exact hvis.imp_right fun ⟨c, hc, _⟩ => ⟨c, hc⟩

/-- The writer of a version met on a walk from a row is the row's, or
committed. -/
theorem walkLoop_ancestor (h : WritesInv db todo minted) {isVisible : Nat → Bool} (fuel : Nat)
    {t : Tuple κ δ} (hv : Stored db v) (hw : v.txnId = some w ∨ CommittedBy (commitTs db.log) v)
    (hwalk : Db.walkLoop db.versions isVisible fuel v.preLsn = .ancestor t) :
    ∃ wt, t.txnId = some wt ∧ isVisible wt = true ∧
      (wt = w ∨ ∃ c, commitTs db.log wt = some c) := by
  induction fuel generalizing v with
  | zero => cases hwalk
  | succ fuel ih =>
    cases hpre : v.preLsn with
    | none =>
      rw [hpre] at hwalk
      cases hwalk
    | some l =>
      rw [hpre] at hwalk
      cases hfind : db.versions.find l with
      | none =>
        simp only [Db.walkLoop, hfind] at hwalk
        cases hwalk
      | some next =>
        have hnext : next.txnId = some w ∨ CommittedBy (commitTs db.log) next := by
          rcases h.pre v l next (Or.inl hv) hpre hfind with heq | hc
          · rcases hw with hw | hc
            · exact Or.inl (heq.trans hw)
            · refine Or.inr ?_
              unfold CommittedBy at hc ⊢
              rwa [heq]
          · exact Or.inr hc
        simp only [Db.walkLoop, hfind] at hwalk
        cases htxn : next.txnId with
        | none =>
          rw [htxn] at hwalk
          cases hwalk
        | some wn =>
          rw [htxn] at hwalk
          dsimp only at hwalk
          split at hwalk
          · next hvis =>
              cases hwalk
              refine ⟨wn, htxn, hvis, ?_⟩
              rcases hnext with heq | hc
              · exact Or.inl (Option.some.inj (htxn.symm.trans heq))
              · exact Or.inr ((committedBy_iff htxn).mp hc)
          · exact ih (Or.inr ⟨l, hfind⟩) hnext hwalk

/-- Whatever another transaction takes for committed is. -/
theorem committed_of_taken (h : WritesInv db todo minted) {r : Nat} {key : κ}
    (htaken : Threads.TakenAsCommitted db r key v) (hw : v.txnId = some w) (hne : w ≠ r) :
    ∃ c, commitTs db.log w = some c := by
  cases htaken with
  | row p sn w' hr hsn hrow hw' hsees =>
    rw [hw] at hw'
    cases hw'
    obtain ⟨w', hw', hwrote, hlive⟩ := h.rowWriter key v hrow
    rw [hw] at hw'
    cases hw'
    exact (h.committed_of_sees hr hsn hwrote hlive hsees).resolve_left hne
  | ancestor p sn row fuel hr hsn hrow hwalk =>
    obtain ⟨wr, hwr, hwrote, hlive⟩ := h.rowWriter key row hrow
    obtain ⟨wt, hwt, hsees, heq | hc⟩ :=
      h.walkLoop_ancestor fuel (Or.inl ⟨key, hrow⟩) (Or.inl hwr) hwalk
    · rw [hw] at hwt
      cases hwt
      subst heq
      exact (h.committed_of_sees hr hsn hwrote hlive hsees).resolve_left hne
    · rw [hw] at hwt
      cases hwt
      exact hc
  | overwritten hrow hcheck =>
    obtain ⟨w', hw', hcon⟩ := Db.checkWriteConflict_ok hcheck
    rw [hw] at hw'
    cases hw'
    exact h.committed_of_not_conflicts hrow hw hne hcon

/-! ## Steps that write nothing -/

/-- A step that writes nothing, commits nothing and restores nothing: it may
take away rows and records, end transactions that have no rows, and begin new
ones. -/
structure Lets (db db' : Db κ δ) : Prop where
  ts : commitTs db'.log = commitTs db.log
  wrote : Wrote db'.log = Wrote db.log
  txn : TxnInv db'.txMgr (commitTs db.log) (Wrote db.log)
  noCommitting : ∀ id c p, db'.txMgr.states id ≠ some (.committing c p)
  clock : db.txMgr.clock ≤ db'.txMgr.clock
  rows : ∀ key v, db'.rows key = some v → db.rows key = some v
  find : ∀ l p, db'.versions.find l = some p → db.versions.find l = some p
  written : ∀ t l, .replaced l ∈ db'.versions.writtenBy t → .replaced l ∈ db.versions.writtenBy t
  committed : ∀ e ∈ db'.versions.committed, e ∈ db.versions.committed
  hasWrites : ∀ t, db'.versions.hasWrites t = true → db.versions.hasWrites t = true
  active : ∀ t p, db'.txMgr.states t = some (.active p) →
    (∃ q, db.txMgr.states t = some (.active q)) ∧
      db'.versions.hasWrites t = db.versions.hasWrites t ∨ db.txMgr.clock ≤ t
  inFlight : ∀ t, InFlight db'.txMgr t → InFlight db.txMgr t ∨ db.txMgr.clock ≤ t
  /-- What has a row stays in flight, with its undo list. -/
  stays : ∀ key v t, db'.rows key = some v → v.txnId = some t → InFlight db.txMgr t →
    InFlight db'.txMgr t ∧ db'.versions.undoOf t = db.versions.undoOf t
  ending : ∀ t, t < db.txMgr.clock → Ending (db.txMgr.states t) → Ending (db'.txMgr.states t)

theorem Lets.stored {db' : Db κ δ} (h : Lets db db') (hv : Stored db' v) :
    Stored db v := by
  rcases hv with ⟨key, hk⟩ | ⟨l, hl⟩
  · exact Or.inl ⟨key, h.rows key v hk⟩
  · exact Or.inr ⟨l, h.find l v hl⟩

theorem lets (h : WritesInv db todo minted) {db' : Db κ δ} (hl : Lets db db') :
    WritesInv db' todo minted := by
  have hheld : ∀ v, Held db' todo v → Held db todo v := fun v hv => hv.imp_left hl.stored
  refine {
    txn := by rw [hl.ts, hl.wrote]; exact hl.txn
    noCommitting := hl.noCommitting
    rowId := fun key v hv => h.rowId key v (hl.rows key v hv)
    rowWriter := ?_
    pre := ?_
    kept := ?_
    undo := ?_
    ownerUnique := fun l t t' ht ht' =>
      h.ownerUnique l t t' (hl.written t l ht) (hl.written t' l ht')
    hasWrites := ?_
    byTxnLt := fun t ht => Nat.lt_of_lt_of_le (h.byTxnLt t (hl.hasWrites t ht)) hl.clock
    committedQueue := by
      rw [hl.ts]
      exact fun e he => h.committedQueue e (hl.committed e he)
    mintedLt := fun l hm => Nat.lt_of_lt_of_le (h.mintedLt l hm) hl.clock
    mintedNodup := h.mintedNodup
    preLt := fun v l hv hp => Nat.lt_of_lt_of_le (h.preLt v l (hheld v hv) hp) hl.clock
    writtenLt := fun t l ht =>
      Nat.lt_of_lt_of_le (h.writtenLt t l (hl.written t l ht)) hl.clock
    findLt := fun l p hf => Nat.lt_of_lt_of_le (h.findLt l p (hl.find l p hf)) hl.clock
    preFresh := fun v l hv hp => h.preFresh v l (hheld v hv) hp
    writtenFresh := fun t l ht => h.writtenFresh t l (hl.written t l ht)
    findFresh := fun l p hf => h.findFresh l p (hl.find l p hf) }
  · intro key v hv
    obtain ⟨w, hw, hwrote, hlive⟩ := h.rowWriter key v (hl.rows key v hv)
    rw [hl.ts, hl.wrote]
    exact ⟨w, hw, hwrote, hlive.imp_left fun hfl => (hl.stays key v w hv hw hfl).1⟩
  · intro v l p hv hp hf
    rw [hl.ts]
    exact h.pre v l p (hheld v hv) hp (hl.find l p hf)
  · intro t l p ht hf
    rw [hl.ts]
    exact h.kept t l p (hl.written t l ht) (hl.find l p hf)
  · intro t key v hfl hv hvt
    have hold : InFlight db.txMgr t := by
      rcases hl.inFlight t hfl with hold | hle
      · exact hold
      · obtain ⟨w, hw, hwrote, -⟩ := h.rowWriter key v (hl.rows key v hv)
        rw [hvt] at hw
        cases hw
        have hlt := h.txn.wroteLt t hwrote
        omega
    rw [(hl.stays key v t hv hvt hold).2]
    exact h.undo t key v hold (hl.rows key v hv) hvt
  · intro t p hp
    rw [hl.wrote]
    rcases hl.active t p hp with ⟨⟨q, hq⟩, heq⟩ | hle
    · rw [heq]
      exact h.hasWrites t q hq
    · refine iff_of_false (fun hw => ?_) (fun hw => ?_)
      · have hlt := h.byTxnLt t (hl.hasWrites t hw)
        omega
      · have hlt := h.txn.wroteLt t hw
        omega

/-- Fewer versions may be restored, and fewer calls be under way. -/
theorem mono (h : WritesInv db todo minted) {todo' : Tuple κ δ → Prop} {minted' : List Nat}
    (htodo : ∀ v, todo' v → Held db todo v) (hminted : minted'.Sublist minted) :
    WritesInv db todo' minted' := by
  have hheld : ∀ v, Held db todo' v → Held db todo v := by
    rintro v (hv | hv)
    · exact Or.inl hv
    · exact htodo v hv
  exact { h with
    pre := fun v l p hv => h.pre v l p (hheld v hv)
    mintedLt := fun l hl => h.mintedLt l (hminted.subset hl)
    mintedNodup := h.mintedNodup.sublist hminted
    preLt := fun v l hv => h.preLt v l (hheld v hv)
    preFresh := fun v l hv hp hl => h.preFresh v l (hheld v hv) hp (hminted.subset hl)
    writtenFresh := fun t l ht hl => h.writtenFresh t l ht (hminted.subset hl)
    findFresh := fun l p hf hl => h.findFresh l p hf (hminted.subset hl) }

end WritesInv

variable {db : Db κ δ} {p : ConflictPolicy}

/-- A step that lets go of rows and records lets every abort be. -/
theorem TaskInv.lets {db' : Db κ δ} {a : AbortTask κ δ} (h : TaskInv db a)
    (hl : WritesInv.Lets db db') (hlt : a.txn < db.txMgr.clock) : TaskInv db' a := by
  have hend : Ending (db.txMgr.states a.txn) → Ending (db'.txMgr.states a.txn) :=
    hl.ending a.txn hlt
  have hnone : NoRows db a.txn → NoRows db' a.txn := fun hn key v hv =>
    hn key v (hl.rows key v hv)
  unfold TaskInv at h ⊢
  rw [hl.ts]
  cases hp : a.phase with
  | checked wrote =>
    rw [hp] at h
    intro hw hfl
    refine hnone (h hw ((hl.inFlight a.txn hfl).resolve_right ?_))
    omega
  | aborting =>
    rw [hp] at h
    exact ⟨hend h.1, h.2⟩
  | finishing wrote =>
    rw [hp] at h
    exact ⟨hend h.1, h.2⟩
  | reverting wrote todo =>
    rw [hp] at h
    exact ⟨hend h.1, h.2.1, fun key v hv => h.2.2.1 key v (hl.rows key v hv), h.2.2.2⟩
  | reverted wrote =>
    rw [hp] at h
    exact ⟨hend h.1, h.2.1, hnone h.2.2⟩
  | forgotten =>
    rw [hp] at h
    exact ⟨hend h.1, h.2.1, hnone h.2.2⟩

theorem Threads.Inv.lets {s : Threads κ δ} (h : s.Inv) {db' : Db κ δ}
    (hl : WritesInv.Lets s.db db') : Threads.Inv { s with db := db' } where
  writes := h.writes.lets hl
  taskLt a ha := Nat.lt_of_lt_of_le (h.taskLt a ha) hl.clock
  task a ha := (h.task a ha).lets hl (h.taskLt a ha)
  callLt c hc := Nat.lt_of_lt_of_le (h.callLt c hc) hl.clock

namespace WritesInv.Lets

variable {db : Db κ δ} {todo : Tuple κ δ → Prop} {minted : List Nat}

variable {m : TransactionManager}

/-- A step of the transaction table alone. -/
theorem ofMgr (ht : TxnInv m (commitTs db.log) (Wrote db.log))
    (hnc : ∀ id c p, m.states id ≠ some (.committing c p)) (hclock : db.txMgr.clock ≤ m.clock)
    (hact : ∀ t p, m.states t = some (.active p) →
      (∃ q, db.txMgr.states t = some (.active q)) ∨ db.txMgr.clock ≤ t)
    (hfl : ∀ t, InFlight m t → InFlight db.txMgr t ∨ db.txMgr.clock ≤ t)
    (hstays : ∀ key v t, db.rows key = some v → v.txnId = some t → InFlight db.txMgr t →
      InFlight m t)
    (hend : ∀ t, t < db.txMgr.clock → Ending (db.txMgr.states t) → Ending (m.states t)) :
    Lets db { db with txMgr := m } where
  ts := rfl
  wrote := rfl
  txn := ht
  noCommitting := hnc
  clock := hclock
  rows _ _ hv := hv
  find _ _ hf := hf
  written _ _ ht := ht
  committed _ he := he
  hasWrites _ ht := ht
  active t p hp := (hact t p hp).imp_left fun hq => ⟨hq, rfl⟩
  inFlight := hfl
  stays key v t hv hvt hfl := ⟨hstays key v t hv hvt hfl, rfl⟩
  ending := hend

/-- A step that changes the entry of one transaction, which has no rows or
stays in flight. -/
theorem ofEntry (h : WritesInv db todo minted) {t : Nat} {state : Option TxnState}
    (ht : TxnInv m (commitTs db.log) (Wrote db.log)) (hclock : m.clock = db.txMgr.clock)
    (hstates : m.states = Function.update db.txMgr.states t state) (hend : Ending state)
    (hlive : state = some .aborting → InFlight db.txMgr t)
    (hrows : state = some .aborting ∨ (InFlight db.txMgr t → NoRows db t)) :
    Lets db { db with txMgr := m } := by
  have hne : ∀ id, id ≠ t → m.states id = db.txMgr.states id := fun id hid => by
    rw [hstates, Function.update_of_ne hid]
  have hself : m.states t = state := by rw [hstates, Function.update_self]
  refine ofMgr ht ?_ (Nat.le_of_eq hclock.symm) ?_ ?_ ?_ ?_
  · intro id c p hs
    by_cases hid : id = t
    · rw [hid, hself] at hs
      rw [hs] at hend
      exact hend
    · rw [hne id hid] at hs
      exact h.noCommitting id c p hs
  · intro id p hs
    by_cases hid : id = t
    · rw [hid, hself] at hs
      rw [hs] at hend
      exact hend.elim
    · rw [hne id hid] at hs
      exact Or.inl ⟨p, hs⟩
  · intro id hfl
    refine Or.inl ?_
    by_cases hid : id = t
    · subst hid
      rcases hfl with ⟨p, hp⟩ | hp
      · rw [hself] at hp
        rw [hp] at hend
        exact hend.elim
      · exact hlive (hself.symm.trans hp)
    · unfold InFlight at hfl ⊢
      rwa [hne id hid] at hfl
  · intro key v id hv hvt hfl
    by_cases hid : id = t
    · subst hid
      rcases hrows with hab | hno
      · exact Or.inr (hself.trans hab)
      · exact absurd hvt (hno hfl key v hv)
    · unfold InFlight at hfl ⊢
      rwa [hne id hid]
  · intro id _ he
    by_cases hid : id = t
    · rw [hid, hself]
      exact hend
    · rwa [hne id hid]

theorem nextLsn (h : WritesInv db todo minted) : Lets db db.nextLsn.1 :=
  ofMgr h.txn.nextLsn h.noCommitting (Nat.le_succ _) (fun _ p hp => Or.inl ⟨p, hp⟩)
    (fun _ hfl => Or.inl hfl) (fun _ _ _ _ _ hfl => hfl) (fun _ _ he => he)

theorem begin (h : WritesInv db todo minted) (policy : ConflictPolicy) :
    Lets db (db.begin policy).1 := by
  have hstates : (db.txMgr.createTransaction policy).1.states =
      Function.update db.txMgr.states db.txMgr.clock (some (.active policy)) := rfl
  have hne : ∀ id, id ≠ db.txMgr.clock →
      (db.txMgr.createTransaction policy).1.states id = db.txMgr.states id := fun id hid => by
    rw [hstates, Function.update_of_ne hid]
  refine ofMgr (h.txn.createTransaction policy) ?_ (Nat.le_succ _) ?_ ?_ ?_ ?_
  · intro id c p hs
    by_cases hid : id = db.txMgr.clock
    · rw [hid, hstates, Function.update_self] at hs
      cases hs
    · rw [hne id hid] at hs
      exact h.noCommitting id c p hs
  · intro id p hs
    by_cases hid : id = db.txMgr.clock
    · exact Or.inr (Nat.le_of_eq hid.symm)
    · rw [hne id hid] at hs
      exact Or.inl ⟨p, hs⟩
  · intro id hfl
    by_cases hid : id = db.txMgr.clock
    · exact Or.inr (Nat.le_of_eq hid.symm)
    · unfold InFlight at hfl ⊢
      rw [hne id hid] at hfl
      exact Or.inl hfl
  · intro key v id _ _ hfl
    have hlt := inFlight_lt h.txn hfl
    unfold InFlight at hfl ⊢
    rwa [hne id (by omega)]
  · intro id hlt he
    rwa [hne id (by omega)]

theorem pruneStates (h : WritesInv db todo minted) :
    Lets db { db with txMgr := db.txMgr.pruneCommitted.1 } := by
  have hsome : ∀ id s, db.txMgr.pruneCommitted.1.states id = some s →
      db.txMgr.states id = some s := by
    intro id s hs
    simp only [TransactionManager.pruneCommitted, Option.filter_eq_some_iff] at hs
    exact hs.1
  refine ofMgr h.txn.pruneCommitted ?_ (Nat.le_refl _) ?_ ?_ ?_ ?_
  · exact fun id c p hs => h.noCommitting id c p (hsome id _ hs)
  · exact fun t p hs => Or.inl ⟨p, hsome t _ hs⟩
  · rintro t (⟨p, hs⟩ | hs)
    · exact Or.inl (Or.inl ⟨p, hsome t _ hs⟩)
    · exact Or.inl (Or.inr (hsome t _ hs))
  · rintro key v t - - (⟨p, hs⟩ | hs)
    · refine Or.inl ⟨p, ?_⟩
      simp [TransactionManager.pruneCommitted, hs, TransactionManager.keptByPrune]
    · refine Or.inr ?_
      simp [TransactionManager.pruneCommitted, hs, TransactionManager.keptByPrune]
  · intro t _ he
    cases hs : db.txMgr.pruneCommitted.1.states t with
    | none => trivial
    | some state =>
      rw [hsome t state hs] at he
      exact he

/-- The records of a transaction without rows, or that is not in flight, may
go. -/
theorem discard (h : WritesInv db todo minted) {w : Nat}
    (hact : ∀ p, db.txMgr.states w ≠ some (.active p))
    (hrows : InFlight db.txMgr w → NoRows db w) :
    Lets db { db with versions := (db.versions.discard w).1 } := by
  have hby : ∀ t, t ≠ w → (db.versions.discard w).1.byTxn t = db.versions.byTxn t := by
    intro t ht
    rw [VersionStore.byTxn_discard, Function.update_of_ne ht]
  have hbyW : (db.versions.discard w).1.byTxn w = none := by
    rw [VersionStore.byTxn_discard, Function.update_self]
  have hwritten : ∀ t, t ≠ w →
      (db.versions.discard w).1.writtenBy t = db.versions.writtenBy t := by
    intro t ht
    unfold VersionStore.writtenBy
    rw [hby t ht]
  exact {
    ts := rfl
    wrote := rfl
    txn := h.txn
    noCommitting := h.noCommitting
    clock := Nat.le_refl _
    rows := fun _ _ hv => hv
    find := by
      intro l p hf
      dsimp only at hf
      rw [VersionStore.find_discard] at hf
      split at hf
      · cases hf
      · exact hf
    written := by
      intro t l ht
      by_cases htw : t = w
      · subst htw
        dsimp only [VersionStore.writtenBy] at ht
        rw [hbyW] at ht
        cases ht
      · rwa [← hwritten t htw]
    committed := by
      intro e he
      rwa [← VersionStore.committed_discard db.versions w]
    hasWrites := by
      intro t ht
      by_cases htw : t = w
      · subst htw
        dsimp only [VersionStore.hasWrites] at ht
        rw [hbyW] at ht
        cases ht
      · dsimp only [VersionStore.hasWrites] at ht ⊢
        rwa [hby t htw] at ht
    active := by
      intro t p hp
      have htw : t ≠ w := by
        rintro rfl
        exact hact p hp
      refine Or.inl ⟨⟨p, hp⟩, ?_⟩
      unfold VersionStore.hasWrites
      rw [hby t htw]
    inFlight := fun _ hfl => Or.inl hfl
    stays := by
      intro key v t hv hvt hfl
      have htw : t ≠ w := by
        rintro rfl
        exact hrows hfl key v hv hvt
      refine ⟨hfl, VersionStore.undoOf_congr (hwritten t htw) fun l hl => ?_⟩
      rw [VersionStore.find_discard, if_neg]
      rw [VersionStore.mem_replacedLsns]
      exact fun hm => htw (h.ownerUnique l t w hl hm)
    ending := fun _ _ he => he }

/-- A step that touches only rows it takes away, queues, and quiet records of
the log. -/
theorem ofRows (h : WritesInv db todo minted) {db' : Db κ δ} (hm : db'.txMgr = m)
    (hinv : TxnInv m (commitTs db.log) (Wrote db.log)) (hstates : m.states = db.txMgr.states)
    (hclock : db.txMgr.clock ≤ m.clock) (hts : commitTs db'.log = commitTs db.log)
    (hwr : Wrote db'.log = Wrote db.log)
    (hrows : ∀ key v, db'.rows key = some v → db.rows key = some v)
    (hpre : db'.versions.preImages = db.versions.preImages)
    (hby : db'.versions.byTxn = db.versions.byTxn)
    (hcom : ∀ e ∈ db'.versions.committed, e ∈ db.versions.committed) : Lets db db' := by
  subst hm
  have hfl : ∀ t, InFlight db'.txMgr t ↔ InFlight db.txMgr t := by
    intro t
    unfold InFlight
    rw [hstates]
  have hfind : db'.versions.find = db.versions.find := by
    funext l
    unfold VersionStore.find
    rw [hpre]
  have hwritten : db'.versions.writtenBy = db.versions.writtenBy := by
    funext t
    unfold VersionStore.writtenBy
    rw [hby]
  have hhas : db'.versions.hasWrites = db.versions.hasWrites := by
    funext t
    unfold VersionStore.hasWrites
    rw [hby]
  have hundo : ∀ t, db'.versions.undoOf t = db.versions.undoOf t := fun t =>
    VersionStore.undoOf_congr (congrFun hwritten t) fun l _ => congrFun hfind l
  exact {
    ts := hts
    wrote := hwr
    txn := hinv
    noCommitting := by rw [hstates]; exact h.noCommitting
    clock := hclock
    rows := hrows
    find := by rw [hfind]; exact fun _ _ hf => hf
    written := by rw [hwritten]; exact fun _ _ ht => ht
    committed := hcom
    hasWrites := by rw [hhas]; exact fun _ ht => ht
    active := by rw [hstates, hhas]; exact fun _ p hp => Or.inl ⟨⟨p, hp⟩, rfl⟩
    inFlight := fun t ht => Or.inl ((hfl t).mp ht)
    stays := fun _ _ t _ _ ht => ⟨(hfl t).mpr ht, hundo t⟩
    ending := by rw [hstates]; exact fun _ _ he => he }

end WritesInv.Lets

/-! ## Commits -/

/-- The commit of a transaction that wrote. -/
theorem WritesInv.commitWrites [DecidableEq κ] {todo : Tuple κ δ → Prop} {minted : List Nat}
    (h : WritesInv db todo minted) {t : Nat} (hp : db.txMgr.states t = some (.active p))
    {m : TransactionManager}
    (hm : TxnInv m (Function.update (commitTs db.log) t (some db.txMgr.clock)) (Wrote db.log))
    (hclock : m.clock = db.txMgr.clock + 1)
    (hstates : m.states = Function.update db.txMgr.states t (some (.committed db.txMgr.clock))) :
    WritesInv { db with
      txMgr := m
      log := db.log ++ [⟨db.txMgr.clock, .commit t⟩]
      versions := db.versions.markCommitted t db.txMgr.clock } todo minted := by
  have hfacts : CommitFacts db.txMgr m db.log (db.log ++ [⟨db.txMgr.clock, .commit t⟩]) t
      db.txMgr.clock := .append hstates (h.txn.activeTs t p hp)
  have hwr : Wrote (db.log ++ [⟨db.txMgr.clock, .commit t⟩]) = Wrote db.log :=
    wrote_append_other _ _ rfl
  have hcomm : ∀ v : Tuple κ δ, CommittedBy (commitTs db.log) v →
      CommittedBy (commitTs (db.log ++ [⟨db.txMgr.clock, .commit t⟩])) v := fun v hv => hv.append
  have hrep : ∀ id l, .replaced l ∈ (db.versions.markCommitted t db.txMgr.clock).writtenBy id →
      .replaced l ∈ db.versions.writtenBy id := fun id l hl =>
    VersionStore.replaced_mem_markCommitted _ _ _ _ hl
  have hfind : (db.versions.markCommitted t db.txMgr.clock).find = db.versions.find :=
    VersionStore.find_markCommitted _ _ _
  have hheld : ∀ v, Held { db with
      txMgr := m
      log := db.log ++ [⟨db.txMgr.clock, .commit t⟩]
      versions := db.versions.markCommitted t db.txMgr.clock } todo v → Held db todo v := by
    rintro v ((⟨key, hk⟩ | ⟨l, hl⟩) | hv)
    · exact Or.inl (Or.inl ⟨key, hk⟩)
    · dsimp only at hl
      rw [hfind] at hl
      exact Or.inl (Or.inr ⟨l, hl⟩)
    · exact Or.inr hv
  have hlater : ∀ {l}, l < db.txMgr.clock → l < m.clock := fun hl => by
    rw [hclock]
    exact Nat.lt_succ_of_lt hl
  refine {
    txn := hfacts.ts ▸ hwr ▸ hm
    noCommitting := hfacts.noCommitting h.noCommitting
    rowId := h.rowId
    rowWriter := ?_
    pre := ?_
    kept := ?_
    undo := ?_
    ownerUnique := fun l t' t'' ht ht' => h.ownerUnique l t' t'' (hrep t' l ht) (hrep t'' l ht')
    hasWrites := ?_
    byTxnLt := fun t' ht' =>
      hlater (h.byTxnLt t' (VersionStore.hasWrites_of_markCommitted _ _ _ ht'))
    committedQueue := hfacts.committedQueue h.committedQueue
    mintedLt := fun l hl => hlater (h.mintedLt l hl)
    mintedNodup := h.mintedNodup
    preLt := fun v l hv hl => hlater (h.preLt v l (hheld v hv) hl)
    writtenLt := fun t' l hl => hlater (h.writtenLt t' l (hrep t' l hl))
    findLt := fun l q hq => hlater (h.findLt l q (hfind ▸ hq))
    preFresh := fun v l hv => h.preFresh v l (hheld v hv)
    writtenFresh := fun t' l hl => h.writtenFresh t' l (hrep t' l hl)
    findFresh := fun l q hq => h.findFresh l q (hfind ▸ hq) }
  · intro key v hv
    obtain ⟨w, hvw, hwrote, hlive⟩ := h.rowWriter key v hv
    refine ⟨w, hvw, hwr ▸ hwrote, ?_⟩
    by_cases hwt : w = t
    · exact Or.inr ⟨_, by rw [hfacts.ts, hwt, Function.update_self]⟩
    · exact hlive.imp (fun hfl => (hfacts.inFlight w).mpr ⟨hwt, hfl⟩)
        (Exists.imp (hfacts.ts_mono w))
  · intro v l q hv hl hf
    dsimp only at hf
    rw [hfind] at hf
    exact (h.pre v l q (hheld v hv) hl hf).imp_right (hcomm q)
  · intro t' l q ht hf
    dsimp only at hf
    rw [hfind] at hf
    exact (h.kept t' l q (hrep t' l ht) hf).imp_right (hcomm q)
  · intro t' key v hfl' hv hvt
    obtain ⟨hne, hold⟩ := (hfacts.inFlight t').mp hfl'
    dsimp only
    rw [VersionStore.undoOf_markCommitted_of_ne _ _ _ hne]
    exact h.undo t' key v hold hv hvt
  · intro t' q hq
    obtain ⟨hne, hold⟩ := hfacts.active t' q hq
    dsimp only
    rw [hwr, VersionStore.hasWrites_markCommitted_of_ne _ _ _ hne]
    exact h.hasWrites t' q hold

/-- A commit touches no abort under way but the one it forestalls. -/
theorem TaskInv.commit {db' : Db κ δ} {a : AbortTask κ δ} (h : TaskInv db a) {t c : Nat}
    (hp : db.txMgr.states t = some (.active p)) (hnone : commitTs db.log t = none)
    (hlog : db'.log = db.log ++ [⟨c, .commit t⟩]) (hrows : db'.rows = db.rows)
    (hstates : db'.txMgr.states = Function.update db.txMgr.states t (some (.committed c))) :
    TaskInv db' a := by
  have hself : db'.txMgr.states t = some (.committed c) := by
    rw [hstates, Function.update_self]
  have hnot : Ending (db.txMgr.states a.txn) → a.txn ≠ t := by
    rintro he rfl
    rw [hp] at he
    exact he
  have hend : Ending (db.txMgr.states a.txn) → Ending (db'.txMgr.states a.txn) := by
    intro he
    rwa [hstates, Function.update_of_ne (hnot he)]
  have hts : Ending (db.txMgr.states a.txn) → commitTs db.log a.txn = none →
      commitTs db'.log a.txn = none := by
    intro he hn
    rw [hlog, commitTs_append_commit _ hnone, Function.update_of_ne (hnot he)]
    exact hn
  unfold TaskInv at h ⊢
  cases hph : a.phase with
  | checked wrote =>
    rw [hph] at h
    intro hw hfl
    have hne : a.txn ≠ t := by
      intro heq
      rcases hfl with ⟨q, hq⟩ | hq
      · rw [heq, hself] at hq
        cases hq
      · rw [heq, hself] at hq
        cases hq
    have hfl' : InFlight db.txMgr a.txn := by
      unfold InFlight at hfl ⊢
      rwa [hstates, Function.update_of_ne hne] at hfl
    unfold NoRows
    rw [hrows]
    exact h hw hfl'
  | aborting =>
    rw [hph] at h
    exact ⟨hend h.1, hts h.1 h.2⟩
  | finishing wrote =>
    rw [hph] at h
    exact ⟨hend h.1, hts h.1 h.2⟩
  | reverting wrote todo =>
    rw [hph] at h
    refine ⟨hend h.1, hts h.1 h.2.1, hrows ▸ h.2.2.1, fun u hu q hq => ?_⟩
    rw [hlog]
    exact (h.2.2.2 u hu q hq).imp_right CommittedBy.append
  | reverted wrote =>
    rw [hph] at h
    unfold NoRows
    rw [hrows]
    exact ⟨hend h.1, hts h.1 h.2.1, h.2.2⟩
  | forgotten =>
    rw [hph] at h
    unfold NoRows
    rw [hrows]
    exact ⟨hend h.1, hts h.1 h.2.1, h.2.2⟩

/-- The commit of a transaction that wrote nothing. -/
theorem WritesInv.Lets.commitNothing {todo : Tuple κ δ → Prop} {minted : List Nat}
    (h : WritesInv db todo minted) {t c : Nat} (hp : db.txMgr.states t = some (.active p))
    (hw : ¬ Wrote db.log t) {m : TransactionManager} (hm : db.txMgr.commit t c = some m) :
    WritesInv.Lets db { db with txMgr := m } := by
  have htxn := h.txn.commit hw hm
  simp only [TransactionManager.commit, hp, Option.some.injEq] at hm
  subst hm
  have hne : ∀ id, id ≠ t → ((db.txMgr.setState t (some (.committed c))).setActive t false
      true).states id = db.txMgr.states id := fun id hid => by simp [hid]
  have hactive : ∀ id q, ((db.txMgr.setState t (some (.committed c))).setActive t false
      true).states id = some (.active q) → db.txMgr.states id = some (.active q) := by
    intro id q hs
    by_cases hid : id = t
    · subst hid
      simp at hs
    · rwa [hne id hid] at hs
  refine ofMgr htxn ?_ (Nat.le_refl _) (fun id q hs => Or.inl ⟨q, hactive id q hs⟩) ?_ ?_ ?_
  · intro id d q hs
    by_cases hid : id = t
    · subst hid
      simp at hs
    · rw [hne id hid] at hs
      exact h.noCommitting id d q hs
  · rintro id (⟨q, hs⟩ | hs)
    · exact Or.inl (Or.inl ⟨q, hactive id q hs⟩)
    · refine Or.inl (Or.inr ?_)
      by_cases hid : id = t
      · subst hid
        simp at hs
      · rwa [hne id hid] at hs
  · intro key v id hv hvt hfl
    have hid : id ≠ t := by
      rintro rfl
      obtain ⟨w, hvw, hwrote, -⟩ := h.rowWriter key v hv
      rw [hvt] at hvw
      cases hvw
      exact hw hwrote
    unfold InFlight at hfl ⊢
    rwa [hne id hid]
  · intro id _ he
    by_cases hid : id = t
    · rw [hid, hp] at he
      exact he.elim
    · rwa [hne id hid]

theorem Threads.Inv.commit [DecidableEq κ] {s : Threads κ δ} (h : s.Inv) (txn : Nat) :
    Threads.Inv { s with db := (s.db.commit txn).1 } := by
  obtain ⟨db', heq, hcommit⟩ := s.db.commit_cases txn
  rw [heq]
  cases hcommit with
  | refused => exact h
  | @logged p m hp hhas hbegin hclock hstates =>
    have hwrote := (h.writes.hasWrites txn _ hp).mp hhas
    have hm := (h.writes.txn.beginCommit hwrote hbegin).finishCommit txn
    have hlater : ∀ {l}, l < s.db.txMgr.clock → l < (m.finishCommit txn true).clock :=
      fun hl => by
        rw [hclock]
        exact Nat.lt_succ_of_lt hl
    exact {
      writes := h.writes.commitWrites hp hm hclock hstates
      taskLt := fun a ha => hlater (h.taskLt a ha)
      task := fun a ha =>
        (h.task a ha).commit hp (h.writes.txn.activeTs txn _ hp) rfl rfl hstates
      callLt := fun c hc => hlater (h.callLt c hc) }
  | silent hp hhas hm =>
    have hnot : ¬ Wrote s.db.log txn := by
      rw [← h.writes.hasWrites txn _ hp, hhas]
      exact Bool.false_ne_true
    have h1 := h.lets (WritesInv.Lets.nextLsn h.writes)
    exact h1.lets (WritesInv.Lets.commitNothing h1.writes hp hnot hm)

/-! ## Maintenance -/

namespace Threads.Inv

variable {s : Threads κ δ}

theorem discardAll (h : s.Inv) (ids : List Nat) (hids : ∀ w ∈ ids, ¬ InFlight s.db.txMgr w) :
    Threads.Inv { s with db := { s.db with
      versions := ids.foldl (fun s w => (s.discard w).1) s.db.versions } } := by
  induction ids generalizing s with
  | nil => exact h
  | cons w ids ih =>
    have hw := hids w List.mem_cons_self
    have hd := h.lets (WritesInv.Lets.discard h.writes (fun p hp => hw (Or.inl ⟨p, hp⟩))
      fun hfl => absurd hfl hw)
    exact ih hd fun w' hw' => hids w' (List.mem_cons_of_mem _ hw')

theorem pruneCommitted (h : s.Inv) :
    Threads.Inv { s with db := s.db.pruneCommitted } := by
  refine (h.lets (WritesInv.Lets.pruneStates h.writes)).discardAll
    s.db.txMgr.pruneCommitted.2 fun w hw => ?_
  simp only [TransactionManager.pruneCommitted, List.mem_filter, List.mem_range] at hw
  obtain ⟨-, hw⟩ := hw
  split at hw
  · next a hst =>
      rintro (⟨p, hp⟩ | hp)
      · simp [TransactionManager.pruneCommitted, hst] at hp
      · simp [TransactionManager.pruneCommitted, hst] at hp
  · cases hw

theorem forgetAll (h : s.Inv) (es : List (Nat × Nat × Nat))
    (hes : ∀ e ∈ es, commitTs s.db.log e.2.1 = some e.1) :
    Threads.Inv { s with db := { s.db with versions := (s.db.versions.forgetAll es).1 } } := by
  induction es generalizing s with
  | nil => exact h
  | cons e es ih =>
    have hfl : ¬ InFlight s.db.txMgr e.2.1 := by
      intro hfl
      have hts := hes e List.mem_cons_self
      rw [commitTs_of_inFlight h.writes.txn hfl] at hts
      cases hts
    have hd := h.lets (WritesInv.Lets.discard h.writes (fun p hp => hfl (Or.inl ⟨p, hp⟩))
      fun hfl' => absurd hfl' hfl)
    have hf : Threads.Inv { s with db := { s.db with versions := s.db.versions.forget e } } :=
      hd.lets (WritesInv.Lets.ofRows hd.writes rfl hd.writes.txn rfl (Nat.le_refl _) rfl rfl
        (fun _ _ hv => hv) rfl rfl (fun _ he => he))
    exact ih hf fun e' he' => hes e' (List.mem_cons_of_mem _ he')

theorem vacuum (h : s.Inv) : Threads.Inv { s with db := s.db.vacuum } := by
  have hq : Threads.Inv { s with db := { s.db with versions := { s.db.versions with
      committed := s.db.versions.committed.filter fun e =>
        !VersionStore.reclaimable (some s.db.txMgr.horizon) e.1
      tombstones := s.db.versions.tombstones.filter fun t =>
        !VersionStore.reclaimable (some s.db.txMgr.horizon) t.commitTs } } } :=
    h.lets (WritesInv.Lets.ofRows h.writes rfl h.writes.txn rfl (Nat.le_refl _) rfl rfl
      (fun _ _ hv => hv) rfl rfl (fun _ he => List.mem_of_mem_filter he))
  have hf := hq.forgetAll (s.db.versions.committed.filter fun e =>
      VersionStore.reclaimable (some s.db.txMgr.horizon) e.1) fun e he =>
    h.writes.committedQueue e (List.mem_of_mem_filter he)
  exact hf.lets (WritesInv.Lets.ofRows hf.writes rfl hf.writes.txn rfl (Nat.le_refl _) rfl rfl
    (fun _ _ hv => hv) rfl rfl (fun _ he => he))

/-- A record that is neither a write nor a commit. -/
theorem logNew {s : Threads κ δ} (h : s.Inv) {op : Operation κ δ} (hw : op.writer = none)
    (hc : op.commits = none) : Threads.Inv { s with db := s.db.logNew op } :=
  h.lets (WritesInv.Lets.ofRows h.writes rfl h.writes.txn.nextLsn rfl (Nat.le_succ _)
    (commitTs_append_other _ _ hc) (wrote_append_other _ _ hw) (fun _ _ hv => hv) rfl rfl
    (fun _ he => he))

variable [DecidableEq κ]

theorem purge (h : s.Inv) : Threads.Inv { s with db := s.db.purge } := by
  unfold Db.purge
  split
  · exact h
  · next t rest hp =>
      have h1 : Threads.Inv { s with db := { s.db with purging := rest }.nextLsn.1 } :=
        h.lets (WritesInv.Lets.ofRows h.writes rfl h.writes.txn.nextLsn rfl (Nat.le_succ _) rfl rfl
          (fun _ _ hv => hv) rfl rfl (fun _ he => he))
      dsimp only
      split
      · have h2 := @logNew κ δ _ h1 (.purge t.txn t.key) rfl rfl
        refine h2.lets (WritesInv.Lets.ofRows h2.writes rfl h2.writes.txn rfl (Nat.le_refl _) rfl
          rfl ?_ rfl rfl (fun _ he => he))
        intro key v hv
        by_cases hk : key = t.key
        · subst hk
          simp [Db.applyDecision] at hv
        · simpa [Db.applyDecision, hk] using hv
      · exact h1

end Threads.Inv

end SquealDb.Store
