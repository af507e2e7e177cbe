import SquealDb.Lib.Run
import SquealDb.Store.Txn

/-!
# What a reader sees

A reader takes its answers from two places: its `Snapshot`, frozen as it
began, and the shared table, whose entries change and disappear.  This module
shows that both give the one answer that snapshot isolation defines: a writer
is seen by the reader it is, and by every reader whose id is above its commit
timestamp.

`TxnInv` is the invariant that ties ids, commit timestamps, snapshots and the
prune horizon together.  It speaks of a table, of the commit timestamps `ts`
minted so far, and of the transactions that `wrote`; the history they come
from is the caller's (the run below, or the log of a whole store).  Each
operation of the table has one lemma that keeps it.

A writer that aborted and was then forgotten is the one kind the answers are
not about: the table takes its absence for "committed long ago".  `Known`
leaves it out.
-/

namespace SquealDb.Store

open TransactionManager

/-- The visibility rule of snapshot isolation. -/
def Visible (ts : Nat → Option Nat) (writer reader : Nat) :
    Prop :=
  writer = reader ∨ ∃ c, ts writer = some c ∧ c < reader

/-- The table still remembers the transaction, or it has committed. -/
def Known (m : TransactionManager) (ts : Nat → Option Nat)
    (txn : Nat) : Prop :=
  m.states txn ≠ none ∨ ts txn ≠ none

/-- A finished entry: committed, or absent. -/
def Settled : Option TxnState → Prop
  | none | some (.committed _) => True
  | some _ => False

/-- The entry of a transaction that is being aborted, or has been. -/
def Ending : Option TxnState → Prop
  | none | some .aborting | some (.aborted _) => True
  | _ => False

/-- What a snapshot taken as `r` began says of each writer that began
before it. -/
structure SnapshotInv (m : TransactionManager) (ts : Nat → Option Nat)
    (r : Nat) (s : Snapshot) : Prop where
  reader : s.reader = r
  active : s.active = true
  /-- What was unfinished commits after the reader began, if ever. -/
  unfinished : ∀ w ∈ s.unfinished, ∀ c, ts w = some c → r < c
  /-- What was committing had its timestamp already. -/
  committing : ∀ w ∈ s.committing, ∃ c, ts w = some c ∧ c < r
  /-- The rest had committed, or was gone. -/
  rest : ∀ w, w < r → w ∉ s.unfinished → w ∉ s.committing →
    (∃ c, ts w = some c ∧ c < r) ∨ (ts w = none ∧ Settled (m.states w))

/-- The invariant of the transaction table. -/
structure TxnInv (m : TransactionManager) (ts : Nat → Option Nat)
    (wrote : Nat → Prop) : Prop where
  idLt : ∀ id, m.states id ≠ none → id < m.clock
  wroteLt : ∀ id, wrote id → id < m.clock
  tsWrote : ∀ id c, ts id = some c → wrote id
  tsBound : ∀ id c, ts id = some c → id < c ∧ c < m.clock
  /-- Ids and timestamps come from one counter. -/
  tsNe : ∀ id c r, ts id = some c → m.states r ≠ none → c ≠ r
  committedTs : ∀ id c, wrote id → m.states id = some (.committed c) → ts id = some c
  committingTs : ∀ id c p, m.states id = some (.committing c p) → ts id = some c
  activeTs : ∀ id p, m.states id = some (.active p) → ts id = none
  abortingTs : ∀ id, m.states id = some .aborting → ts id = none
  abortedTs : ∀ id a, m.states id = some (.aborted a) → ts id = none
  /-- A forgotten commit is older than every active reader. -/
  absentTs : ∀ id c, m.states id = none → ts id = some c →
    ∀ r p, m.states r = some (.active p) → c < r
  snapshot : ∀ r p, m.states r = some (.active p) →
    ∃ s, m.snapshots r = some s ∧ SnapshotInv m ts r s

namespace TxnInv

variable {m : TransactionManager} {ts : Nat → Option Nat}
  {wrote : Nat → Prop}

theorem fresh_ts (h : TxnInv m ts wrote) : ts m.clock = none := by
  cases hts : ts m.clock with
  | none => rfl
  | some c =>
    have hb := h.tsBound m.clock c hts
    omega

theorem fresh_state (h : TxnInv m ts wrote) : m.states m.clock = none := by
  by_contra hne
  exact absurd (h.idLt m.clock hne) (Nat.lt_irrefl _)

variable {r t : Nat} {p : ConflictPolicy} {m' : TransactionManager}

/-- The snapshot an active reader is handed. -/
theorem snapshot_eq_some (h : TxnInv m ts wrote) (hr : m.states r = some (.active p))
    {sn : Snapshot} (hsn : m.snapshots r = some sn) : m.snapshot r = some sn := by
  obtain ⟨sn', hsn', hinv⟩ := h.snapshot r p hr
  rw [hsn] at hsn'
  cases hsn'
  simp [TransactionManager.snapshot, hsn, hinv.active]

/-! ## The answers -/

/-- The snapshot answers by the rule, wherever it answers. -/
theorem sees_iff (h : TxnInv m ts wrote) {w : Nat} (hr : m.states r = some (.active p))
    (hw : wrote w) (hk : Known m ts w) {s : Snapshot} (hs : m.snapshots r = some s) {b : Bool}
    (hb : s.sees w = some b) : b = true ↔ Visible ts w r := by
  obtain ⟨s', hs', hinv⟩ := h.snapshot r p hr
  obtain rfl : s' = s := by rw [hs'] at hs; exact Option.some.inj hs
  unfold Snapshot.sees at hb
  rw [hinv.reader] at hb
  split at hb
  · next heq =>
      cases hb
      exact iff_of_true rfl (Or.inl heq)
  · next hne =>
      split at hb
      · next hun =>
          cases hb
          refine iff_of_false Bool.false_ne_true ?_
          rintro (heq | ⟨c, hc, hlt⟩)
          · exact hne heq
          · have hbnd := h.tsBound w c hc
            rcases hun with hgt | hmem
            · omega
            · have := hinv.unfinished w hmem c hc
              omega
      · next hun =>
          split at hb
          · cases hb
          · next hcom =>
              cases hb
              refine iff_of_true rfl (Or.inr ?_)
              rw [not_or, Nat.not_lt] at hun
              rcases hinv.rest w (by omega) hun.2 hcom with hts | ⟨hnone, hset⟩
              · exact hts
              · -- a writer without a timestamp that is settled is forgotten
                rcases hk with hst | hts
                · cases hstate : m.states w with
                  | none => exact absurd hstate hst
                  | some state =>
                    rw [hstate] at hset
                    cases state with
                    | committed c =>
                      have := h.committedTs w c hw hstate
                      rw [hnone] at this
                      cases this
                    | active _ => exact hset.elim
                    | aborting => exact hset.elim
                    | committing _ _ => exact hset.elim
                    | aborted _ => exact hset.elim
                · exact absurd hnone hts

/-- The table answers by the rule, wherever it answers. -/
theorem isVisibleOnce_iff (h : TxnInv m ts wrote) {w : Nat} (hr : m.states r = some (.active p))
    (hw : wrote w) (hk : Known m ts w) {b : Bool} (hb : m.isVisibleOnce w r = some b) :
    b = true ↔ Visible ts w r := by
  unfold isVisibleOnce at hb
  split at hb
  · next heq =>
      cases hb
      exact iff_of_true rfl (Or.inl heq)
  · next hne =>
      have hnot : ts w = none → ¬ Visible ts w r := by
        rintro hnone (heq | ⟨c, hc, -⟩)
        · exact hne heq
        · rw [hnone] at hc
          cases hc
      split at hb
      · next hst =>
          cases hb
          refine iff_of_true rfl (Or.inr ?_)
          rcases hk with hst' | hts
          · exact absurd hst hst'
          · obtain ⟨c, hc⟩ := Option.ne_none_iff_exists'.mp hts
            exact ⟨c, hc, h.absentTs w c hst hc r p hr⟩
      · next c hst =>
          cases hb
          have hc := h.committedTs w c hw hst
          simp [Visible, hne, hc]
      · next c q hst =>
          split at hb
          · next hgt =>
              cases hb
              have hc := h.committingTs w c q hst
              refine iff_of_false Bool.false_ne_true ?_
              rintro (heq | ⟨c', hc', hlt⟩)
              · exact hne heq
              · rw [hc] at hc'
                cases hc'
                omega
          · cases hb
      · next state hcd hcg hst =>
          cases hb
          refine iff_of_false Bool.false_ne_true (hnot ?_)
          cases state with
          | active q => exact h.activeTs w q hst
          | aborting => exact h.abortingTs w hst
          | committed c => exact absurd rfl (hcd c)
          | committing c q => exact absurd rfl (hcg c q)
          | aborted a => exact h.abortedTs w a hst

/-- The table waits only for a commit that the reader will see. -/
theorem visible_of_waits (h : TxnInv m ts wrote) {w : Nat} (hr : m.states r = some (.active p))
    (hb : m.isVisibleOnce w r = none) :
    (∃ c q, m.states w = some (.committing c q)) ∧ Visible ts w r := by
  unfold isVisibleOnce at hb
  split at hb
  · cases hb
  · split at hb
    · cases hb
    · cases hb
    · next c q hst =>
        split at hb
        · cases hb
        · next hle =>
            have hc := h.committingTs w c q hst
            have hne := h.tsNe w c r hc (by simp [hr])
            exact ⟨⟨c, q, hst⟩, Or.inr ⟨c, hc, by omega⟩⟩
    · cases hb

/-- `conflicts` lets a writer through only if it is the caller, or committed
before the caller began. -/
theorem visible_of_not_conflicts (h : TxnInv m ts wrote) {w me : Nat}
    (hme : m.states me = some (.active p) ∨ m.states me = some .aborting) (hw : wrote w)
    (hab : m.states w = none → ∃ c, ts w = some c ∧ c < me) (hb : m.conflicts w me = false) :
    Visible ts w me := by
  unfold conflicts at hb
  split at hb
  · next heq => exact Or.inl heq
  · split at hb
    · next hst => exact Or.inr (hab hst)
    · next c hst =>
        have hc := h.committedTs w c hw hst
        have hne := h.tsNe w c me hc (by rcases hme with h | h <;> simp [h])
        have hle : ¬ c > me := by simpa using hb
        exact Or.inr ⟨c, hc, by omega⟩
    · cases hb

/-! ## The horizon -/

theorem oldestActive_some {h : Nat} (hh : m.oldestActive = some h) :
    (∃ p, m.states h = some (.active p)) ∧
      ∀ r p, m.states r = some (.active p) → h ≤ r := by
  unfold oldestActive at hh
  rw [List.find?_range_eq_some] at hh
  refine ⟨(m.isTransactionActive_iff h).mp hh.1, ?_⟩
  intro r p hr
  by_contra hlt
  have hmin := hh.2.2 r (by omega)
  rw [Bool.not_eq_true', ← Bool.not_eq_true, m.isTransactionActive_iff] at hmin
  exact hmin ⟨p, hr⟩

theorem oldestActive_none (hinv : TxnInv m ts wrote) (hh : m.oldestActive = none)
    (r : Nat) (p : ConflictPolicy) : m.states r ≠ some (.active p) := by
  intro hr
  unfold oldestActive at hh
  rw [List.find?_range_eq_none] at hh
  have hfalse := hh r (hinv.idLt r (by simp [hr]))
  rw [Bool.not_eq_true', ← Bool.not_eq_true, m.isTransactionActive_iff] at hfalse
  exact hfalse ⟨p, hr⟩

/-- No active transaction has an id below the horizon. -/
theorem horizon_le (h : TxnInv m ts wrote) (hr : m.states r = some (.active p)) :
    m.horizon ≤ r := by
  unfold horizon
  cases ho : m.oldestActive with
  | none => exact absurd hr (h.oldestActive_none ho r p)
  | some o => exact (oldestActive_some ho).2 r p hr

/-! ## One lemma for each operation -/

theorem nextLsn (h : TxnInv m ts wrote) : TxnInv m.nextLsn.1 ts wrote where
  idLt id hid := Nat.lt_succ_of_lt (h.idLt id hid)
  wroteLt id hid := Nat.lt_succ_of_lt (h.wroteLt id hid)
  tsWrote := h.tsWrote
  tsBound id c hc := ⟨(h.tsBound id c hc).1, Nat.lt_succ_of_lt (h.tsBound id c hc).2⟩
  tsNe := h.tsNe
  committedTs := h.committedTs
  committingTs := h.committingTs
  activeTs := h.activeTs
  abortingTs := h.abortingTs
  abortedTs := h.abortedTs
  absentTs := h.absentTs
  snapshot r p hr := by
    obtain ⟨s, hs, hinv⟩ := h.snapshot r p hr
    exact ⟨s, hs, ⟨hinv.reader, hinv.active, hinv.unfinished, hinv.committing, hinv.rest⟩⟩

/-- A write marks its transaction as one that wrote. -/
theorem markWrote (h : TxnInv m ts wrote)
    (ht : (∃ p, m.states t = some (.active p)) ∨ m.states t = some .aborting) :
    TxnInv m ts (fun id => wrote id ∨ id = t) := by
  have hlive : m.states t ≠ none := by
    rcases ht with ⟨p, hp⟩ | ht <;> simp [*]
  refine { h with wroteLt := ?_, tsWrote := ?_, committedTs := ?_ }
  · rintro id (hid | rfl)
    · exact h.wroteLt id hid
    · exact h.idLt id hlive
  · intro id c hc
    exact Or.inl (h.tsWrote id c hc)
  · rintro id c (hid | rfl) hst
    · exact h.committedTs id c hid hst
    · rcases ht with ⟨p, hp⟩ | ht <;> simp [*] at hst

theorem createTransaction (h : TxnInv m ts wrote) (policy : ConflictPolicy) :
    TxnInv (m.createTransaction policy).1 ts wrote := by
  have hstates : ∀ id, id ≠ m.clock →
      (m.createTransaction policy).1.states id = m.states id := by
    intro id hne
    simp [TransactionManager.createTransaction, hne]
  have hnew : (m.createTransaction policy).1.states m.clock = some (.active policy) := by
    simp [TransactionManager.createTransaction]
  have hclock : (m.createTransaction policy).1.clock = m.clock + 1 := rfl
  have hold : ∀ id state, (m.createTransaction policy).1.states id = some state →
      (id = m.clock ∧ state = .active policy) ∨
        (id ≠ m.clock ∧ m.states id = some state) := by
    intro id state hid
    by_cases heq : id = m.clock
    · subst heq
      rw [hnew] at hid
      exact Or.inl ⟨rfl, (Option.some.inj hid).symm⟩
    · rw [hstates id heq] at hid
      exact Or.inr ⟨heq, hid⟩
  constructor
  · intro id hid
    obtain ⟨state, hst⟩ := Option.ne_none_iff_exists'.mp hid
    rw [hclock]
    rcases hold id state hst with ⟨rfl, -⟩ | ⟨-, hst⟩
    · exact Nat.lt_succ_self _
    · exact Nat.lt_succ_of_lt (h.idLt id (by simp [hst]))
  · intro id hid
    exact Nat.lt_succ_of_lt (h.wroteLt id hid)
  · exact h.tsWrote
  · intro id c hc
    exact ⟨(h.tsBound id c hc).1, Nat.lt_succ_of_lt (h.tsBound id c hc).2⟩
  · intro id c r hc hr
    obtain ⟨state, hst⟩ := Option.ne_none_iff_exists'.mp hr
    rcases hold r state hst with ⟨rfl, -⟩ | ⟨-, hst⟩
    · exact Nat.ne_of_lt (h.tsBound id c hc).2
    · exact h.tsNe id c r hc (by simp [hst])
  · intro id c hw hst
    rcases hold id _ hst with ⟨-, hs⟩ | ⟨-, hst⟩
    · cases hs
    · exact h.committedTs id c hw hst
  · intro id c p hst
    rcases hold id _ hst with ⟨-, hs⟩ | ⟨-, hst⟩
    · cases hs
    · exact h.committingTs id c p hst
  · intro id p hst
    rcases hold id _ hst with ⟨rfl, -⟩ | ⟨-, hst⟩
    · exact h.fresh_ts
    · exact h.activeTs id p hst
  · intro id hst
    rcases hold id _ hst with ⟨-, hs⟩ | ⟨-, hst⟩
    · cases hs
    · exact h.abortingTs id hst
  · intro id a hst
    rcases hold id _ hst with ⟨-, hs⟩ | ⟨-, hst⟩
    · cases hs
    · exact h.abortedTs id a hst
  · intro id c hst hc r p hr
    have hne : id ≠ m.clock := by
      rintro rfl
      rw [hnew] at hst
      cases hst
    rw [hstates id hne] at hst
    rcases hold r _ hr with ⟨rfl, -⟩ | ⟨-, hr⟩
    · exact (h.tsBound id c hc).2
    · exact h.absentTs id c hst hc r p hr
  · intro r p hr
    rcases hold r _ hr with ⟨rfl, -⟩ | ⟨hne, hr⟩
    · refine ⟨⟨m.clock, m.unfinishedIds, m.committingIds, true⟩,
        by simp [TransactionManager.createTransaction], rfl, rfl, ?_, ?_, ?_⟩
      · -- an unfinished transaction has no timestamp yet
        intro w hw c hc
        have hnone : ts w = none := by
          simp only [unfinishedIds, List.mem_filter] at hw
          cases hst : m.states w with
          | none => simp [hst] at hw
          | some state =>
            cases state with
            | active q => exact h.activeTs w q hst
            | aborting => exact h.abortingTs w hst
            | committed c => simp [hst] at hw
            | committing c q => simp [hst] at hw
            | aborted a => exact h.abortedTs w a hst
        rw [hnone] at hc
        cases hc
      · intro w hw
        simp only [committingIds, List.mem_filter] at hw
        cases hst : m.states w with
        | none => simp [hst] at hw
        | some state =>
          cases state with
          | committing c q =>
            have hc := h.committingTs w c q hst
            exact ⟨c, hc, (h.tsBound w c hc).2⟩
          | active q => simp [hst] at hw
          | aborting => simp [hst] at hw
          | committed c => simp [hst] at hw
          | aborted a => simp [hst] at hw
      · intro w hlt hun hcom
        have hne : w ≠ m.clock := Nat.ne_of_lt hlt
        rw [hstates w hne]
        cases hts : ts w with
        | some c => exact Or.inl ⟨c, rfl, (h.tsBound w c hts).2⟩
        | none =>
          refine Or.inr ⟨rfl, ?_⟩
          cases hst : m.states w with
          | none => trivial
          | some state =>
            cases state with
            | committed c => trivial
            | active q => simp [unfinishedIds, hst, hlt] at hun
            | aborting => simp [unfinishedIds, hst, hlt] at hun
            | committing c q => simp [committingIds, hst, hlt] at hcom
            | aborted a => simp [unfinishedIds, hst, hlt] at hun
    · obtain ⟨s, hs, hinv⟩ := h.snapshot r p hr
      refine ⟨s, by simp [TransactionManager.createTransaction, hne, hs], { hinv with rest := ?_ }⟩
      intro w hlt hun hcom
      have hlt' := h.idLt r (by simp [hr])
      rw [hstates w (by omega)]
      exact hinv.rest w hlt hun hcom

/-- The one argument behind every operation that ends a transaction or moves
it on: the entry of `t`, open before, becomes `state`, which is not active,
and at most `t` gains a timestamp, the clock's value. -/
theorem closeEntry (h : TxnInv m ts wrote) {ts' : Nat → Option Nat} {old : TxnState}
    {state : Option TxnState} (hold : m.states t = some old) (hopen : ¬ Settled (some old))
    (hclock : m.clock ≤ m'.clock) (hstates : m'.states = Function.update m.states t state)
    (hsnap : ∀ r, r ≠ t → m'.snapshots r = m.snapshots r) (hts : ∀ id, id ≠ t → ts' id = ts id)
    (htst : ts' t = ts t ∨ ts t = none ∧ wrote t ∧ ts' t = some m.clock ∧ m.clock < m'.clock)
    (hactive : ∀ p, state ≠ some (.active p))
    (hcommitted : ∀ c, state = some (.committed c) → wrote t → ts' t = some c)
    (hcommitting : ∀ c p, state = some (.committing c p) → ts' t = some c)
    (hrest : state = none ∨ state = some .aborting ∨ (∃ a, state = some (.aborted a)) →
      ts' t = none) :
    TxnInv m' ts' wrote := by
  have htlt : t < m.clock := h.idLt t (by simp [hold])
  have hne : ∀ id, id ≠ t → m'.states id = m.states id := by
    intro id hid
    rw [hstates, Function.update_of_ne hid]
  have hself : m'.states t = state := by rw [hstates, Function.update_self]
  have hactiveOld : ∀ r p, m'.states r = some (.active p) →
      r ≠ t ∧ m.states r = some (.active p) := by
    intro r p hr
    have hrt : r ≠ t := by
      rintro rfl
      exact hactive p (hself ▸ hr)
    exact ⟨hrt, hne r hrt ▸ hr⟩
  -- the timestamps after the step: the old ones, or the clock's value for `t`
  have htsCases : ∀ id c, ts' id = some c →
      ts id = some c ∨ (id = t ∧ c = m.clock ∧ m.clock < m'.clock ∧ wrote t) := by
    intro id c hc
    by_cases hid : id = t
    · subst hid
      rcases htst with heq | ⟨-, hw, heq, hlt⟩
      · exact Or.inl (heq ▸ hc)
      · rw [heq] at hc
        exact Or.inr ⟨rfl, (Option.some.inj hc).symm, hlt, hw⟩
    · exact Or.inl (hts id hid ▸ hc)
  constructor
  · intro id hid
    by_cases heq : id = t
    · omega
    · rw [hne id heq] at hid
      exact Nat.lt_of_lt_of_le (h.idLt id hid) hclock
  · intro id hid
    exact Nat.lt_of_lt_of_le (h.wroteLt id hid) hclock
  · intro id c hc
    rcases htsCases id c hc with hc | ⟨rfl, -, -, hw⟩
    · exact h.tsWrote id c hc
    · exact hw
  · intro id c hc
    rcases htsCases id c hc with hc | ⟨rfl, rfl, hlt, -⟩
    · exact ⟨(h.tsBound id c hc).1, Nat.lt_of_lt_of_le (h.tsBound id c hc).2 hclock⟩
    · exact ⟨htlt, hlt⟩
  · intro id c r hc hr
    have hr' : m.states r ≠ none := by
      by_cases heq : r = t
      · simp [heq, hold]
      · rwa [hne r heq] at hr
    rcases htsCases id c hc with hc | ⟨-, rfl, -, -⟩
    · exact h.tsNe id c r hc hr'
    · exact (Nat.ne_of_lt (h.idLt r hr')).symm
  · intro id c hw hst
    by_cases heq : id = t
    · subst heq
      exact hcommitted c (hself ▸ hst) hw
    · rw [hne id heq] at hst
      rw [hts id heq]
      exact h.committedTs id c hw hst
  · intro id c p hst
    by_cases heq : id = t
    · subst heq
      exact hcommitting c p (hself ▸ hst)
    · rw [hne id heq] at hst
      rw [hts id heq]
      exact h.committingTs id c p hst
  · intro id p hst
    obtain ⟨hidt, hst⟩ := hactiveOld id p hst
    rw [hts id hidt]
    exact h.activeTs id p hst
  · intro id hst
    by_cases heq : id = t
    · subst heq
      exact hrest (Or.inr (Or.inl (hself ▸ hst)))
    · rw [hne id heq] at hst
      rw [hts id heq]
      exact h.abortingTs id hst
  · intro id a hst
    by_cases heq : id = t
    · subst heq
      exact hrest (Or.inr (Or.inr ⟨a, hself ▸ hst⟩))
    · rw [hne id heq] at hst
      rw [hts id heq]
      exact h.abortedTs id a hst
  · intro id c hst hc r p hr
    obtain ⟨-, hr⟩ := hactiveOld r p hr
    by_cases heq : id = t
    · subst heq
      rw [hrest (Or.inl (hself ▸ hst))] at hc
      cases hc
    · rw [hne id heq] at hst
      rw [hts id heq] at hc
      exact h.absentTs id c hst hc r p hr
  · intro r p hr
    obtain ⟨hrt, hr⟩ := hactiveOld r p hr
    obtain ⟨s, hs, hinv⟩ := h.snapshot r p hr
    have hrlt : r < m.clock := h.idLt r (by simp [hr])
    refine ⟨s, hsnap r hrt ▸ hs, hinv.reader, hinv.active, ?_, ?_, ?_⟩
    · intro w hw c hc
      rcases htsCases w c hc with hc | ⟨-, rfl, -, -⟩
      · exact hinv.unfinished w hw c hc
      · exact hrlt
    · intro w hw
      obtain ⟨c, hc, hlt⟩ := hinv.committing w hw
      refine ⟨c, ?_, hlt⟩
      by_cases heq : w = t
      · subst heq
        rcases htst with heq | ⟨hnone, -⟩
        · exact heq.trans hc
        · rw [hnone] at hc
          cases hc
      · exact (hts w heq).trans hc
    · intro w hlt hun hcom
      by_cases heq : w = t
      · subst heq
        rcases hinv.rest w hlt hun hcom with ⟨c, hc, hcr⟩ | ⟨-, hset⟩
        · rcases htst with heq | ⟨hnone, -⟩
          · exact Or.inl ⟨c, heq.trans hc, hcr⟩
          · rw [hnone] at hc
            cases hc
        · rw [hold] at hset
          exact absurd hset hopen
      · rw [hts w heq, hne w heq]
        exact hinv.rest w hlt hun hcom

theorem abort (h : TxnInv m ts wrote) (hm : m.abort t = some m') : TxnInv m' ts wrote := by
  unfold TransactionManager.abort at hm
  split at hm
  · next p hst =>
      cases hm
      refine h.closeEntry hst (by simp [Settled]) (Nat.le_refl _) rfl
        (fun r hr => setActive_snapshots_of_ne _ _ _ _ _ hr) (fun _ _ => rfl) (Or.inl rfl)
        (by simp) (by simp) (by simp) (fun _ => h.activeTs t p hst)
  · cases hm

theorem endReadOnly (h : TxnInv m ts wrote) (hm : m.endReadOnly t = some m') :
    TxnInv m' ts wrote := by
  unfold TransactionManager.endReadOnly at hm
  split at hm
  · next p hst =>
      cases hm
      refine h.closeEntry hst (by simp [Settled]) (Nat.le_refl _) rfl
        (fun r hr => setActive_snapshots_of_ne _ _ _ _ _ hr) (fun _ _ => rfl) (Or.inl rfl)
        (by simp) (by simp) (by simp) (fun _ => h.activeTs t p hst)
  · cases hm

/-- The end of an abort, which another thread may have brought about
already. -/
theorem abortComplete (h : TxnInv m ts wrote) (wrote' : Bool) (hst : Ending (m.states t))
    (hnone : ts t = none) :
    TxnInv (m.abortComplete t wrote').1 ts wrote := by
  have hopen : ∀ old, m.states t = some old → ¬ Settled (some old) →
      TxnInv (m.abortComplete t wrote').1 ts wrote := by
    intro old hold hopen
    unfold TransactionManager.abortComplete
    dsimp only
    split
    · exact h.closeEntry hold hopen (Nat.le_refl _) rfl (fun _ _ => rfl)
        (fun _ _ => rfl) (Or.inl rfl) (by simp) (by simp) (by simp) (fun _ => hnone)
    · exact h.closeEntry hold hopen (Nat.le_refl _) rfl
        (fun r hr => setActive_snapshots_of_ne _ _ _ _ _ hr) (fun _ _ => rfl) (Or.inl rfl)
        (by simp) (by simp) (by simp) (fun _ => hnone)
  cases hs : m.states t with
  | some state =>
    refine hopen state hs ?_
    rw [hs] at hst
    cases state with
    | aborting => simp [Settled]
    | aborted a => simp [Settled]
    | active p => exact hst.elim
    | committing c p => exact hst.elim
    | committed c => exact hst.elim
  | none =>
    have heq : (m.abortComplete t wrote').1 =
        (m.setState t none).setActive t false true := by
      simp [TransactionManager.abortComplete, hs]
    have hstates : (m.setState t none).states = m.states := by
      rw [setState_states, ← hs, Function.update_eq_self]
    rw [heq]
    refine { h with
      idLt := by rw [setActive_states, hstates]; exact h.idLt
      tsNe := by rw [setActive_states, hstates]; exact h.tsNe
      committedTs := by rw [setActive_states, hstates]; exact h.committedTs
      committingTs := by rw [setActive_states, hstates]; exact h.committingTs
      activeTs := by rw [setActive_states, hstates]; exact h.activeTs
      abortingTs := by rw [setActive_states, hstates]; exact h.abortingTs
      abortedTs := by rw [setActive_states, hstates]; exact h.abortedTs
      absentTs := by rw [setActive_states, hstates]; exact h.absentTs
      snapshot := ?_ }
    intro r p hr
    rw [setActive_states, hstates] at hr
    have hne : r ≠ t := by
      rintro rfl
      rw [hs] at hr
      cases hr
    obtain ⟨sn, hsn, hinv⟩ := h.snapshot r p hr
    refine ⟨sn, (setActive_snapshots_of_ne _ _ _ _ _ hne).trans hsn, { hinv with rest := ?_ }⟩
    rw [setActive_states, hstates]
    exact hinv.rest

/-- A commit of a transaction that wrote nothing gives it no timestamp that
anyone asks for. -/
theorem commit (h : TxnInv m ts wrote) {c : Nat} (hw : ¬ wrote t) (hm : m.commit t c = some m') :
    TxnInv m' ts wrote := by
  unfold TransactionManager.commit at hm
  split at hm
  · next p hst =>
      cases hm
      refine h.closeEntry hst (by simp [Settled]) (Nat.le_refl _) rfl
        (fun r hr => setActive_snapshots_of_ne _ _ _ _ _ hr) (fun _ _ => rfl) (Or.inl rfl)
        (by simp) (fun _ _ hwt => absurd hwt hw) (by simp) (fun _ => h.activeTs t p hst)
  · cases hm

theorem beginCommit (h : TxnInv m ts wrote) {c : Nat} (hw : wrote t)
    (hm : m.beginCommit t = some (m', c)) :
    TxnInv m' (Function.update ts t (some c)) wrote := by
  unfold TransactionManager.beginCommit at hm
  split at hm
  · next p hst =>
      cases hm
      refine h.closeEntry hst (by simp [Settled]) (Nat.le_succ _) rfl
        (fun r hr => setActive_snapshots_of_ne _ _ _ _ _ hr)
        (fun id hid => Function.update_of_ne hid _ _)
        (Or.inr ⟨h.activeTs t p hst, hw, Function.update_self _ _ _, Nat.lt_succ_self _⟩)
        (by simp) (by simp) ?_ (by simp)
      intro c' p' heq
      cases heq
      exact Function.update_self _ _ _
  · cases hm

theorem finishCommit (h : TxnInv m ts wrote) (t : Nat) :
    TxnInv (m.finishCommit t true) ts wrote := by
  unfold TransactionManager.finishCommit
  split
  · next c p hst =>
      have hc := h.committingTs t c p hst
      refine h.closeEntry hst (by simp [Settled]) (Nat.le_refl _) rfl
        (fun r hr => setActive_snapshots_of_ne _ _ _ _ _ hr) (fun _ _ => rfl) (Or.inl rfl)
        (by simp) ?_ (by simp) (by simp)
      intro c' heq _
      cases heq
      exact hc
  · exact h

/-- Pruning forgets only what every active reader would see anyway. -/
theorem pruneCommitted (h : TxnInv m ts wrote) :
    TxnInv m.pruneCommitted.1 ts wrote := by
  have hstates : ∀ id, m.pruneCommitted.1.states id =
      (m.states id).filter (keptByPrune m.oldestActive) := fun _ => rfl
  have hsome : ∀ id state, m.pruneCommitted.1.states id = some state →
      m.states id = some state := by
    intro id state hst
    rw [hstates, Option.filter_eq_some_iff] at hst
    exact hst.1
  have hactive : ∀ r p, m.states r = some (.active p) →
      m.pruneCommitted.1.states r = some (.active p) := by
    intro r p hr
    rw [hstates, hr]
    rfl
  have hlive : ∀ id, m.pruneCommitted.1.states id ≠ none → m.states id ≠ none := by
    intro id hid
    obtain ⟨state, hst⟩ := Option.ne_none_iff_exists'.mp hid
    simp [hsome id state hst]
  refine { h with
    idLt := fun id hid => h.idLt id (hlive id hid)
    tsNe := fun id c r hc hr => h.tsNe id c r hc (hlive r hr)
    committedTs := fun id c hw hst => h.committedTs id c hw (hsome id _ hst)
    committingTs := fun id c p hst => h.committingTs id c p (hsome id _ hst)
    activeTs := fun id p hst => h.activeTs id p (hsome id _ hst)
    abortingTs := fun id hst => h.abortingTs id (hsome id _ hst)
    abortedTs := fun id a hst => h.abortedTs id a (hsome id _ hst)
    absentTs := ?_
    snapshot := ?_ }
  · intro id c hst hc r p hr
    have hr := hsome r _ hr
    cases hid : m.states id with
    | none => exact h.absentTs id c hid hc r p hr
    | some state =>
      rw [hstates, hid, Option.filter_some, ite_eq_right_iff] at hst
      have hdrop : keptByPrune m.oldestActive state = false := by
        cases hk : keptByPrune m.oldestActive state with
        | false => rfl
        | true => exact absurd (hst hk) (by simp)
      cases state with
      | committed c' =>
        have hc' := h.committedTs id c' (h.tsWrote id c hc) hid
        rw [hc] at hc'
        cases hc'
        cases ho : m.oldestActive with
        | none => exact absurd hr (h.oldestActive_none ho r p)
        | some o =>
          have hle := (oldestActive_some ho).2 r p hr
          simp only [keptByPrune, ho, decide_eq_false_iff_not, ge_iff_le,
            Nat.not_le] at hdrop
          omega
      | aborted a =>
        rw [h.abortedTs id a hid] at hc
        cases hc
      | active q => simp [keptByPrune] at hdrop
      | aborting => simp [keptByPrune] at hdrop
      | committing c' q => simp [keptByPrune] at hdrop
  · intro r p hr
    obtain ⟨s, hs, hinv⟩ := h.snapshot r p (hsome r _ hr)
    refine ⟨s, hs, { hinv with rest := ?_ }⟩
    intro w hlt hun hcom
    rcases hinv.rest w hlt hun hcom with hts | ⟨hnone, hset⟩
    · exact Or.inl hts
    · refine Or.inr ⟨hnone, ?_⟩
      cases hst : m.pruneCommitted.1.states w with
      | none => trivial
      | some state =>
        rw [hsome w state hst] at hset
        exact hset

end TxnInv

end SquealDb.Store
