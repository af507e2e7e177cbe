import SquealDb.Lib.VersionChain
import SquealDb.Store.TxnVisibility
import SquealDb.Store.Decision

/-!
# The invariant of the store

Four structures change at different moments: the rows, the pre-images, the
transaction table and the log.  `KeyInv` says how they fit together at one
key, `DbInv` adds what spans the keys.

At a key the versions that can still be met form a chain in three parts.
`own` was written by the one transaction in flight that holds the key, if any
does; it leads back to `base`, which was written by committed transactions;
`older` is what the log knows to have been committed before that and what the
store has let go of.  The cut between `base` and `older` is where nobody
walks past: at a version every active reader sees, or in front of a tombstone
every active reader sees.
-/

namespace SquealDb.Store

open Lib

variable {κ δ : Type*}

/-- The transaction is active, or its abort is not finished. -/
def InFlight (m : TransactionManager) (txn : Nat) : Prop :=
  (∃ p, m.states txn = some (.active p)) ∨ m.states txn = some .aborting

/-- Every active reader sees the version. -/
def SeenByAll (m : TransactionManager) (ts : Nat → Option Nat) (v : Tuple κ δ) : Prop :=
  ∃ w c, v.txnId = some w ∧ ts w = some c ∧
    ∀ r p, m.states r = some (.active p) → c < r

/-- Version `u` was written by the writer of `v`, or by one that began after
`v` was committed. -/
def BuiltOn (ts : Nat → Option Nat) (u v : Tuple κ δ) : Prop :=
  u.txnId = v.txnId ∨
    ∃ wu wv c, u.txnId = some wu ∧ v.txnId = some wv ∧ ts wv = some c ∧ c < wu

/-- Nobody walks from `base` into `older`. -/
def CutAt (m : TransactionManager) (ts : Nat → Option Nat)
    (base older : List (Tuple κ δ)) : Prop :=
  older = [] ∨ (∃ v, base.getLast? = some v ∧ SeenByAll m ts v) ∨
    ∃ v, older.head? = some v ∧ SeenByAll m ts v ∧ v.tombstoned = true

/-- A write record says who wrote, and how the write is undone. -/
structure RecordWf (r : LogRecord κ δ) (v : Tuple κ δ) : Prop where
  writer : v.txnId = r.operation.writer
  txn : ∃ t, r.operation.writer = some t
  undo : ∃ u, r.operation.undo = some u ∧ u.key = v.id ∧ (u.target = none ↔ v.preLsn = none)

variable [DecidableEq κ]

/-- Some version of the key was written by `txn`. -/
def WroteKey (log : List (LogRecord κ δ)) (txn : Nat) (key : κ) : Prop :=
  ∃ v ∈ versionsOf log key, v.txnId = some txn

/-- The invariant of one key. -/
structure KeyInv (m : TransactionManager) (log : List (LogRecord κ δ))
    (find : Nat → Option (Tuple κ δ)) (key : κ) (row : Option (Tuple κ δ))
    (own base older : List (Tuple κ δ)) : Prop where
  path : Path Tuple.preLsn find row own base.head?
  chain : Chain Tuple.preLsn find (SeenByAll m (commitTs log)) base.head? base
  keyed : ∀ v ∈ own ++ base, v.id = key
  history : (committedVersions log key).reverse = base ++ older
  ordered : (own ++ base ++ older).Pairwise (BuiltOn (commitTs log))
  cut : CutAt m (commitTs log) base older
  /-- The holder is in flight, and has logged what it wrote. -/
  holder : ∀ v ∈ own, ∃ t, v.txnId = some t ∧ InFlight m t ∧ WroteKey log t key
  same : ∀ u ∈ own, ∀ v ∈ own, u.txnId = v.txnId
  /-- An active transaction holds every key it wrote, and what it wrote comes
  after everything committed. -/
  active : ∀ t p, m.states t = some (.active p) → WroteKey log t key →
    own ≠ [] ∧ (∀ v ∈ own, v.txnId = some t) ∧
      (versionsOf log key).filter (fun v =>
        decide (CommittedBy (commitTs log) v) || decide (v.txnId = some t)) =
        (own ++ base ++ older).reverse
  /-- The holder's undo ends with the row before its first write; on the way
  there it restores versions of its own that lead back to the same row. -/
  undo : ∀ t v, InFlight m t → row = some v → v.txnId = some t →
    ∃ u rest, undosOn log t key = u :: rest ∧ u.target = base.head? ∧
      ∀ u' ∈ rest, ∃ p own', u'.target = some p ∧ own' ≠ [] ∧
        (∀ x ∈ own', x.txnId = some t ∧ x.id = key) ∧
        Path Tuple.preLsn find (some p) own' base.head?

/-- A version that can still be met: a row, or a pre-image. -/
def Stored (db : Db κ δ) (v : Tuple κ δ) : Prop :=
  (∃ key, db.rows key = some v) ∨ ∃ l, db.versions.find l = some v

/-- The invariant of the store. -/
structure DbInv (db : Db κ δ) : Prop where
  txn : TxnInv db.txMgr (commitTs db.log) (Wrote db.log)
  noCommitting : ∀ id c p, db.txMgr.states id ≠ some (.committing c p)
  lsnLt : ∀ r ∈ db.log, r.lsn < db.txMgr.clock
  lsnOrdered : db.log.Pairwise fun r r' => r.lsn < r'.lsn
  recordWf : ∀ r ∈ db.log, ∀ v, r.written = some v → RecordWf r v
  key : ∀ key, ∃ own base older,
    KeyInv db.txMgr db.log db.versions.find key (db.rows key) own base older
  findLt : ∀ l v, db.versions.find l = some v → l < db.txMgr.clock
  preLt : ∀ v l, Stored db v → v.preLsn = some l → l < db.txMgr.clock
  writtenLt : ∀ t l, .replaced l ∈ db.versions.writtenBy t → l < db.txMgr.clock
  /-- A pre-image is kept by the writer of the version that points at it. -/
  owner : ∀ v l t, Stored db v → v.preLsn = some l →
    .replaced l ∈ db.versions.writtenBy t → v.txnId = some t
  ownerUnique : ∀ l t t', .replaced l ∈ db.versions.writtenBy t →
    .replaced l ∈ db.versions.writtenBy t' → t = t'
  byTxnLt : ∀ t, db.versions.hasWrites t = true → t < db.txMgr.clock
  hasWrites : ∀ t, InFlight db.txMgr t → (db.versions.hasWrites t = true ↔ Wrote db.log t)
  /-- The version store undoes what the log says was done. -/
  undoOf : ∀ t, InFlight db.txMgr t → db.versions.undoOf t = undosOf db.log t
  /-- The first undo of a key restores another's version, the rest one's
  own. -/
  undoShape : ∀ t key u rest, undosOn db.log t key = u :: rest →
    (∀ v, u.target = some v → v.txnId ≠ some t) ∧
      ∀ u' ∈ rest, ∃ p, u'.target = some p ∧ p.txnId = some t
  committedQueue : ∀ e ∈ db.versions.committed, commitTs db.log e.2.1 = some e.1
  tombstones : ∀ t ∈ db.versions.tombstones, commitTs db.log t.txn = some t.commitTs
  purging : ∀ t ∈ db.purging, commitTs db.log t.txn = some t.commitTs ∧
    ∀ r p, db.txMgr.states r = some (.active p) → t.commitTs < r

/-! ## First consequences -/

section KeyConsequences

variable {m : TransactionManager} {log : List (LogRecord κ δ)}
  {find : Nat → Option (Tuple κ δ)} {key : κ} {row : Option (Tuple κ δ)}
  {own base older : List (Tuple κ δ)}

theorem mem_committedVersions {v : Tuple κ δ} :
    v ∈ committedVersions log key ↔
      v ∈ versionsOf log key ∧ CommittedBy (commitTs log) v := by
  simp [committedVersions]

namespace KeyInv

variable {v : Tuple κ δ}

theorem committed_of_mem (h : KeyInv m log find key row own base older) (hv : v ∈ base ++ older) :
    v ∈ versionsOf log key ∧ CommittedBy (commitTs log) v := by
  rw [← h.history, List.mem_reverse, mem_committedVersions] at hv
  exact hv

/-- All that a walk from the row meets. -/
theorem full_chain (h : KeyInv m log find key row own base older) :
    Chain Tuple.preLsn find (SeenByAll m (commitTs log)) row (own ++ base) :=
  h.path.append_chain h.chain

theorem row_eq_head (h : KeyInv m log find key row own base older) :
    row = (own ++ base).head? :=
  h.full_chain.head_eq

theorem row_mem (h : KeyInv m log find key row own base older) (hv : row = some v) :
    v ∈ own ++ base := by
  rw [h.row_eq_head] at hv
  exact List.mem_of_mem_head? hv

theorem row_id (h : KeyInv m log find key row own base older) (hv : row = some v) : v.id = key :=
  h.keyed v (h.row_mem hv)

/-- What the holder wrote is not committed. -/
theorem not_committed_of_own (h : KeyInv m log find key row own base older) {wrote : Nat → Prop}
    (ht : TxnInv m (commitTs log) wrote) (hv : v ∈ own) : ¬ CommittedBy (commitTs log) v := by
  obtain ⟨t, htxn, hfl, -⟩ := h.holder v hv
  rw [committedBy_iff htxn]
  rintro ⟨c, hc⟩
  rcases hfl with ⟨p, hp⟩ | hp
  · rw [ht.activeTs t p hp] at hc
    cases hc
  · rw [ht.abortingTs t hp] at hc
    cases hc

/-- A row whose writer has not committed is held by it. -/
theorem own_ne_nil (h : KeyInv m log find key row own base older) (hv : row = some v)
    (hnc : ¬ CommittedBy (commitTs log) v) : own ≠ [] := by
  rintro rfl
  have hmem := h.row_mem hv
  rw [List.nil_append] at hmem
  exact hnc (h.committed_of_mem (List.mem_append_left _ hmem)).2

/-- A row whose writer has committed is held by nobody. -/
theorem own_eq_nil (h : KeyInv m log find key row own base older) {wrote : Nat → Prop}
    (ht : TxnInv m (commitTs log) wrote) (hv : row = some v) (hc : CommittedBy (commitTs log) v) :
    own = [] := by
  by_contra hne
  rw [h.path.head_eq hne] at hv
  exact h.not_committed_of_own ht (List.mem_of_mem_head? hv) hc

/-- Whoever wrote the row holds the key with all of `own`. -/
theorem own_by (h : KeyInv m log find key row own base older) (hv : row = some v) (hne : own ≠ [])
    {u : Tuple κ δ} (hu : u ∈ own) :
    u.txnId = v.txnId := by
  rw [h.path.head_eq hne] at hv
  exact h.same u hu v (List.mem_of_mem_head? hv)

end KeyInv

end KeyConsequences

/-! ## Frames -/

/-- Every reader of `m'` was active in `m` already, or began after everything
committed so far. -/
def NoOlderReader (m m' : TransactionManager) (ts : Nat → Option Nat) : Prop :=
  ∀ r p, m'.states r = some (.active p) →
    (∃ q, m.states r = some (.active q)) ∨ ∀ w c, ts w = some c → c < r

variable {m m' : TransactionManager} {ts : Nat → Option Nat}

omit [DecidableEq κ] in
theorem SeenByAll.mono {v : Tuple κ δ} (h : SeenByAll m ts v) (hr : NoOlderReader m m' ts) :
    SeenByAll m' ts v := by
  obtain ⟨w, c, hw, hc, hall⟩ := h
  refine ⟨w, c, hw, hc, fun r p hp => ?_⟩
  rcases hr r p hp with ⟨q, hq⟩ | hnew
  · exact hall r q hq
  · exact hnew w c hc

omit [DecidableEq κ] in
theorem CutAt.mono {base older : List (Tuple κ δ)} (h : CutAt m ts base older)
    (hr : NoOlderReader m m' ts) : CutAt m' ts base older := by
  rcases h with h | ⟨v, hv, hs⟩ | ⟨v, hv, hs, ht⟩
  · exact Or.inl h
  · exact Or.inr (Or.inl ⟨v, hv, hs.mono hr⟩)
  · exact Or.inr (Or.inr ⟨v, hv, hs.mono hr, ht⟩)

/-- A step that leaves a key's row, its versions in the log and what its
holder needs leaves its invariant; the store may let go of some more of
`base`. -/
theorem KeyInv.frame {log log' : List (LogRecord κ δ)} {find find' : Nat → Option (Tuple κ δ)}
    {key : κ} {row : Option (Tuple κ δ)} {own base gone older : List (Tuple κ δ)}
    (h : KeyInv m log find key row own (base ++ gone) older) (hts : commitTs log' = commitTs log)
    (hvers : versionsOf log' key = versionsOf log key)
    (hundo : ∀ t, undosOn log' t key = undosOn log t key) (hhead : base = [] → gone = [])
    (hchain : Chain Tuple.preLsn find' (SeenByAll m' (commitTs log)) base.head? base)
    (hcut : CutAt m' (commitTs log) base (gone ++ older))
    (hstored : ∀ t u p, InFlight m' t → u ∈ undosOn log t key → u.target = some p →
      ∃ l, find l = some p) (hpath : ∀ t v l p, InFlight m' t → v.txnId = some t →
      (row = some v ∨ ∃ l, find l = some v) → v.preLsn = some l →
      find l = some p → find' l = some p) (hact : ∀ t p, m'.states t = some (.active p) →
      (∃ q, m.states t = some (.active q)) ∨ ¬ WroteKey log t key)
    (hfl : ∀ t, InFlight m' t → InFlight m t ∨ ¬ WroteKey log t key)
    (hown : ∀ v ∈ own, ∀ t, v.txnId = some t → InFlight m' t) :
    KeyInv m' log' find' key row own base (gone ++ older) := by
  have hhead' : (base ++ gone).head? = base.head? := by
    cases base with
    | nil => simp [hhead rfl]
    | cons b bs => rfl
  have hwk : ∀ t, WroteKey log' t key ↔ WroteKey log t key := by
    intro t
    unfold WroteKey
    rw [hvers]
  have hcv : committedVersions log' key = committedVersions log key := by
    unfold committedVersions
    rw [hvers, hts]
  refine ⟨?_, hts ▸ hchain, ?_, ?_, ?_, hts ▸ hcut, ?_, h.same, ?_, ?_⟩
  · have hp := h.path
    rw [hhead'] at hp
    refine hp.mono_store ?_
    intro v hst hmem l p hl hs
    obtain ⟨t, ht, -, -⟩ := h.holder v hmem
    exact hpath t v l p (hown v hmem t ht) ht hst hl hs
  · intro v hv
    refine h.keyed v ?_
    simp only [List.mem_append] at hv ⊢
    tauto
  · rw [hcv, h.history, List.append_assoc]
  · rw [hts]
    have hord := h.ordered
    simpa only [List.append_assoc] using hord
  · intro v hv
    obtain ⟨t, ht, -, hw⟩ := h.holder v hv
    exact ⟨t, ht, hown v hv t ht, (hwk t).mpr hw⟩
  · intro t p hp hw
    rw [hwk] at hw
    rcases hact t p hp with ⟨q, hq⟩ | hno
    · have ha := h.active t q hq hw
      rw [hvers, hts]
      simpa only [List.append_assoc] using ha
    · exact absurd hw hno
  · intro t v ht hv hvt
    rcases hfl t ht with hf | hno
    · obtain ⟨u, rest, hu, htar, hrest⟩ := h.undo t v hf hv hvt
      refine ⟨u, rest, (hundo t).trans hu, htar.trans hhead', fun u' hu' => ?_⟩
      obtain ⟨p, own', hp, hne, hby, hpa⟩ := hrest u' hu'
      refine ⟨p, own', hp, hne, hby, ?_⟩
      rw [hhead'] at hpa
      refine hpa.mono_store ?_
      intro x hst hmem l q hl hs
      refine hpath t x l q ht (hby x hmem).1 (Or.inr ?_) hl hs
      rcases hst with hx | hx
      · cases hx
        exact hstored t u' p ht (hu ▸ List.mem_cons_of_mem _ hu') hp
      · exact hx
    · refine absurd ?_ hno
      rcases List.mem_append.mp (h.row_mem hv) with hm | hm
      · obtain ⟨t', ht', -, hw⟩ := h.holder v hm
        rw [hvt] at ht'
        cases ht'
        exact hw
      · exact ⟨v, (h.committed_of_mem (List.mem_append_left _ hm)).1, hvt⟩

theorem not_settled_of_inFlight {t : Nat} (h : InFlight m t) :
    ¬ Settled (m.states t) := by
  rcases h with ⟨p, hp⟩ | hp
  · simp [hp, Settled]
  · simp [hp, Settled]

theorem commitTs_of_inFlight {wrote : Nat → Prop} (ht : TxnInv m ts wrote) {t : Nat}
    (h : InFlight m t) :
    ts t = none := by
  rcases h with ⟨p, hp⟩ | hp
  · exact ht.activeTs t p hp
  · exact ht.abortingTs t hp

theorem inFlight_lt {wrote : Nat → Prop} (ht : TxnInv m ts wrote) {t : Nat} (h : InFlight m t) :
    t < m.clock := by
  refine ht.idLt t ?_
  rcases h with ⟨p, hp⟩ | hp
  · simp [hp]
  · simp [hp]

namespace DbInv

variable {db : Db κ δ}

theorem row_id (h : DbInv db) (key : κ) (c : Tuple κ δ) (hc : db.rows key = some c) :
    c.id = key := by
  obtain ⟨own, base, older, hk⟩ := h.key key
  exact hk.row_id hc

theorem mem_versionsOf {log : List (LogRecord κ δ)} {key : κ} {v : Tuple κ δ} :
    v ∈ versionsOf log key ↔ ∃ r ∈ log, r.written = some v ∧ v.id = key := by
  unfold versionsOf
  rw [List.mem_filterMap]
  simp only [Option.filter_eq_some_iff, decide_eq_true_eq]

variable {t : Nat}

/-- Whoever has a version in the log has written. -/
theorem wrote_of_wroteKey (h : DbInv db) {key : κ} (hw : WroteKey db.log t key) :
    Wrote db.log t := by
  obtain ⟨v, hv, ht⟩ := hw
  obtain ⟨r, hr, hwr, -⟩ := mem_versionsOf.mp hv
  exact ⟨r, hr, (h.recordWf r hr v hwr).writer ▸ ht⟩

theorem wroteKey_iff_undosOn (h : DbInv db) (t : Nat) (key : κ) :
    WroteKey db.log t key ↔ undosOn db.log t key ≠ [] := by
  have hwritten : ∀ r : LogRecord κ δ, ∀ u, r.operation.undo = some u →
      ∃ v, r.written = some v := by
    intro r u hu
    unfold LogRecord.written
    cases hop : r.operation with
    | add txn post => exact ⟨_, rfl⟩
    | mod txn pre post => exact ⟨_, rfl⟩
    | del txn pre => exact ⟨_, rfl⟩
    | commit txn => rw [hop] at hu; cases hu
    | rollback txn => rw [hop] at hu; cases hu
    | purge txn k => rw [hop] at hu; cases hu
  constructor
  · rintro ⟨v, hv, ht⟩ hnil
    obtain ⟨r, hr, hwr, hkey⟩ := mem_versionsOf.mp hv
    have hwf := h.recordWf r hr v hwr
    obtain ⟨u, hu, hukey, -⟩ := hwf.undo
    have hmem : u ∈ undosOn db.log t key := by
      unfold undosOn undosOf
      rw [List.mem_filter, List.mem_filterMap]
      refine ⟨⟨r, hr, ?_⟩, by simp [hukey, hkey]⟩
      rw [if_pos (hwf.writer ▸ ht), hu]
    rw [hnil] at hmem
    cases hmem
  · intro hne
    obtain ⟨u, hu⟩ := List.exists_mem_of_ne_nil _ hne
    unfold undosOn undosOf at hu
    rw [List.mem_filter, List.mem_filterMap] at hu
    obtain ⟨⟨r, hr, hru⟩, hkey⟩ := hu
    split at hru
    · next hw =>
        obtain ⟨v, hv⟩ := hwritten r u hru
        have hwf := h.recordWf r hr v hv
        obtain ⟨u', hu', hukey, -⟩ := hwf.undo
        rw [hru] at hu'
        cases hu'
        refine ⟨v, mem_versionsOf.mpr ⟨r, hr, hv, ?_⟩, hwf.writer.trans hw⟩
        rw [← hukey]
        exact of_decide_eq_true hkey
    · cases hru

/-- The writer of a version in a key's chain is in flight or committed, and
has written. -/
theorem known_of_mem (h : DbInv db) {key : κ} {own base older : List (Tuple κ δ)}
    (hk : KeyInv db.txMgr db.log db.versions.find key (db.rows key) own base older)
    {v : Tuple κ δ} (hv : v ∈ own ++ base) :
    ∃ w, v.txnId = some w ∧ Wrote db.log w ∧ Known db.txMgr (commitTs db.log) w := by
  rcases List.mem_append.mp hv with hv | hv
  · obtain ⟨t, ht, hfl, hw⟩ := hk.holder v hv
    refine ⟨t, ht, h.wrote_of_wroteKey hw, Or.inl ?_⟩
    intro hnone
    exact not_settled_of_inFlight hfl (hnone ▸ trivial)
  · obtain ⟨hmem, hc⟩ := hk.committed_of_mem (List.mem_append_left older hv)
    cases hw : v.txnId with
    | none => simp [CommittedBy, hw] at hc
    | some w =>
      obtain ⟨c, hc⟩ := (committedBy_iff hw).mp hc
      exact ⟨w, rfl, h.wrote_of_wroteKey ⟨v, hmem, hw⟩, Or.inr (by simp [hc])⟩

/-- What an undo restores is a pre-image that is still kept. -/
theorem stored_of_undo (h : DbInv db) (ht : InFlight db.txMgr t) {key : κ} {u : Undo κ δ}
    {p : Tuple κ δ} (hu : u ∈ undosOn db.log t key) (hp : u.target = some p) :
    ∃ l, db.versions.find l = some p := by
  have hmem : u ∈ db.versions.undoOf t := by
    rw [h.undoOf t ht]
    exact List.mem_of_mem_filter hu
  unfold VersionStore.undoOf at hmem
  obtain ⟨w, -, hw⟩ := List.mem_filterMap.mp hmem
  cases w with
  | inserted k =>
    cases hw
    cases hp
  | replaced l =>
    simp only [VersionStore.undoEntry, Option.map_eq_some_iff] at hw
    obtain ⟨q, hq, rfl⟩ := hw
    cases hp
    exact ⟨l, hq⟩

omit [DecidableEq κ] in
theorem undosOf_of_not_wrote {log : List (LogRecord κ δ)} (h : ¬ Wrote log t) :
    undosOf log t = [] := by
  unfold undosOf
  rw [List.filterMap_eq_nil_iff]
  intro r hr
  rw [if_neg]
  intro hw
  exact h ⟨r, hr, hw⟩

omit [DecidableEq κ] in
theorem undoOf_of_not_hasWrites {s : VersionStore κ δ} (h : s.hasWrites t = false) :
    s.undoOf t = [] := by
  have hnone : s.byTxn t = none := by simpa [VersionStore.hasWrites] using h
  simp [VersionStore.undoOf, VersionStore.writtenBy, hnone]

/-- A step of the transaction table alone. -/
theorem withMgr (h : DbInv db) {m' : TransactionManager}
    (ht : TxnInv m' (commitTs db.log) (Wrote db.log))
    (hclock : db.txMgr.clock ≤ m'.clock)
    (hnc : ∀ id c p, m'.states id ≠ some (.committing c p))
    (hact : ∀ t p, m'.states t = some (.active p) →
      (∃ q, db.txMgr.states t = some (.active q)) ∨ db.txMgr.clock ≤ t)
    (hfl : ∀ t, InFlight m' t → InFlight db.txMgr t ∨ db.txMgr.clock ≤ t)
    (hown : ∀ t key v, InFlight db.txMgr t → db.rows key = some v →
      v.txnId = some t → InFlight m' t) :
    DbInv { db with txMgr := m' } := by
  have hfresh : ∀ t, db.txMgr.clock ≤ t → ¬ Wrote db.log t := by
    intro t hle hw
    have hlt := h.txn.wroteLt t hw
    omega
  have hfreshKey : ∀ t key, db.txMgr.clock ≤ t → ¬ WroteKey db.log t key :=
    fun t key hle hw => hfresh t hle (h.wrote_of_wroteKey hw)
  have hreader : NoOlderReader db.txMgr m' (commitTs db.log) := by
    intro r p hp
    refine (hact r p hp).imp_right fun hle w c hc => ?_
    have hlt := (h.txn.tsBound w c hc).2
    omega
  refine { h with
    txn := ht
    noCommitting := hnc
    lsnLt := fun r hr => Nat.lt_of_lt_of_le (h.lsnLt r hr) hclock
    key := ?_
    findLt := fun l v hl => Nat.lt_of_lt_of_le (h.findLt l v hl) hclock
    preLt := fun v l hv hl => Nat.lt_of_lt_of_le (h.preLt v l hv hl) hclock
    writtenLt := fun t l hl => Nat.lt_of_lt_of_le (h.writtenLt t l hl) hclock
    byTxnLt := fun t htw => Nat.lt_of_lt_of_le (h.byTxnLt t htw) hclock
    hasWrites := ?_
    undoOf := ?_
    purging := ?_ }
  · intro key
    obtain ⟨own, base, older, hk⟩ := h.key key
    have hk' : KeyInv db.txMgr db.log db.versions.find key (db.rows key) own
        (base ++ []) older := by rwa [List.append_nil]
    refine ⟨own, base, older, hk'.frame rfl rfl (fun _ => rfl) (fun _ => rfl)
      (hk.chain.mono fun v _ hv => hv.mono hreader) (hk.cut.mono hreader) ?_
      (fun _ _ _ _ _ _ _ _ hs => hs) ?_ ?_ ?_⟩
    · intro t u p htf hu hp
      rcases hfl t htf with hf | hle
      · exact h.stored_of_undo hf hu hp
      · refine absurd ?_ (hfreshKey t key hle)
        rw [h.wroteKey_iff_undosOn]
        exact List.ne_nil_of_mem hu
    · exact fun t p hp => (hact t p hp).imp_right (hfreshKey t key)
    · exact fun t htf => (hfl t htf).imp_right (hfreshKey t key)
    · intro v hv t htv
      obtain ⟨t', ht', hf, -⟩ := hk.holder v hv
      rw [htv] at ht'
      cases ht'
      have hne : own ≠ [] := List.ne_nil_of_mem hv
      cases hrow : db.rows key with
      | none =>
        have hhead := hk.path.head_eq hne
        rw [hrow, eq_comm, List.head?_eq_none_iff] at hhead
        exact absurd hhead hne
      | some c => exact hown t key c hf hrow ((hk.own_by hrow hne hv).symm.trans htv)
  · intro t htf
    rcases hfl t htf with hf | hle
    · exact h.hasWrites t hf
    · refine iff_of_false ?_ (hfresh t hle)
      intro hw
      have hlt := h.byTxnLt t hw
      omega
  · intro t htf
    rcases hfl t htf with hf | hle
    · exact h.undoOf t hf
    · rw [undosOf_of_not_wrote (hfresh t hle)]
      refine undoOf_of_not_hasWrites ?_
      cases hw : db.versions.hasWrites t with
      | false => rfl
      | true =>
        have hlt := h.byTxnLt t hw
        omega
  · intro t htp
    obtain ⟨hts, hall⟩ := h.purging t htp
    refine ⟨hts, fun r p hp => ?_⟩
    rcases hact r p hp with ⟨q, hq⟩ | hle
    · exact hall r q hq
    · have hlt := (h.txn.tsBound t.txn t.commitTs hts).2
      omega

theorem nextLsn (h : DbInv db) : DbInv db.nextLsn.1 :=
  h.withMgr h.txn.nextLsn (Nat.le_succ _) h.noCommitting (fun _ p hp => Or.inl ⟨p, hp⟩)
    (fun _ ht => Or.inl ht) (fun _ _ _ ht _ _ => ht)

/-- A record under the next number takes its place behind the log. -/
theorem log_append (h : DbInv db) (op : Operation κ δ)
    (hwf : ∀ v, LogRecord.written ⟨db.txMgr.clock, op⟩ = some v →
      RecordWf ⟨db.txMgr.clock, op⟩ v) :
    (∀ r ∈ db.log ++ [LogRecord.mk db.txMgr.clock op], r.lsn < db.txMgr.clock + 1) ∧
      ((db.log ++ [LogRecord.mk db.txMgr.clock op]).Pairwise fun r r' => r.lsn < r'.lsn) ∧
      ∀ r ∈ db.log ++ [LogRecord.mk db.txMgr.clock op], ∀ v, r.written = some v → RecordWf r v := by
  refine ⟨List.forall_mem_append.mpr ⟨fun r hr => Nat.lt_succ_of_lt (h.lsnLt r hr), ?_⟩, ?_,
    List.forall_mem_append.mpr ⟨h.recordWf, List.forall_mem_singleton.mpr hwf⟩⟩
  · exact List.forall_mem_singleton.mpr (Nat.lt_succ_self _)
  · refine List.pairwise_append.mpr ⟨h.lsnOrdered, List.pairwise_singleton _ _, fun r hr => ?_⟩
    exact List.forall_mem_singleton.mpr (h.lsnLt r hr)

end DbInv

end SquealDb.Store
