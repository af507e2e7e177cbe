import SquealDb.Store.Calls

/-!
# A store of snapshots

What the store is for, in terms of maps alone: the rows that are committed, of each open
transaction its policy, the rows it began with, its writes over them and the keys that others
have committed since, and the rows that an unfinished abort has left in place. What a write does
depends on these alone. Every interleaving of calls, under either conflict policy and with the
store's upkeep between them, is a run of such a store.
-/

namespace SquealDb.Store

open Lib

variable {κ δ : Type*} [DecidableEq κ]

/-- An open transaction. -/
structure Opened (κ δ : Type*) where
  policy : ConflictPolicy
  /-- The rows it began with. -/
  seen : κ → Option δ
  writes : κ → Option (Option δ)
  /-- The keys that others have committed since it began. -/
  overtaken : κ → Prop

namespace Opened

/-- What the transaction finds. -/
def view (e : Opened κ δ) : κ → Option δ := overlay e.writes e.seen

def put (e : Opened κ δ) (key : κ) (v : Option δ) : Opened κ δ :=
  { e with writes := Function.update e.writes key (some v) }

/-- The writes of another transaction are committed. -/
def overtake (e : Opened κ δ) (writes : κ → Option (Option δ)) : Opened κ δ :=
  { e with overtaken := fun key => e.overtaken key ∨ writes key ≠ none }

end Opened

/-- The committed rows, the open transactions, and the rows that an abort whose revert failed
has left in place, with the transaction that wrote them. -/
structure Snapshots (κ δ : Type*) where
  committed : κ → Option δ
  opened : Nat → Option (Opened κ δ)
  left : κ → Option (Nat × Option δ)

/-- What a write leaves under its key. -/
def Action.put : Action κ δ → Option (κ × Option δ)
  | .insert _ tuple | .update _ tuple => some (tuple.id, some tuple.data)
  | .remove _ key => some (key, none)
  | _ => none

/-- Whether a write is of a row that is not there yet. -/
def Action.isInsert : Action κ δ → Bool
  | .insert _ _ => true
  | _ => false

namespace Snapshots

/-- A write of `t` under the key is in conflict: others have committed the key since `t` began,
another open transaction has written it, or an abort has yet to take it back. -/
def Conflict (s : Snapshots κ δ) (t : Nat) (key : κ) : Prop :=
  (∃ e, s.opened t = some e ∧ e.overtaken key) ∨ s.left key ≠ none ∨
    ∃ u e, u ≠ t ∧ s.opened u = some e ∧ e.writes key ≠ none

/-- The row in place under a key: what was written there last, committed or not. -/
def InPlace (s : Snapshots κ δ) (key : κ) (v : Option δ) : Prop :=
  (∃ t, s.left key = some (t, v)) ∨ (∃ t e, s.opened t = some e ∧ e.writes key = some v) ∨
    (s.left key = none ∧ (∀ t e, s.opened t = some e → e.writes key = none) ∧
      v = s.committed key)

def close (s : Snapshots κ δ) (t : Nat) : Snapshots κ δ :=
  { s with opened := Function.update s.opened t none }

/-- One action on a store of snapshots. -/
inductive Step (s : Snapshots κ δ) : Action κ δ → Snapshots κ δ → Prop
  | begin {policy : ConflictPolicy} {t : Nat} : s.opened t = none →
      Step s (.begin policy) { s with
        opened := Function.update s.opened t
          (some ⟨policy, s.committed, fun _ => none, fun _ => False⟩) }
  /-- A write that is not in conflict goes through, if the transaction finds no row under the
  key, for an insert, or finds one. -/
  | write {a : Action κ δ} {t : Nat} {e : Opened κ δ} {key : κ} {v : Option δ} :
      s.opened t = some e → a.writer = some t → a.put = some (key, v) → ¬ s.Conflict t key →
      (e.view key = none ↔ a.isInsert = true) →
      Step s a { s with opened := Function.update s.opened t (some (e.put key v)) }
  /-- A write in conflict takes its transaction down, or fails alone. An insert looks at the row
  in place first. -/
  | conflict {a : Action κ δ} {t : Nat} {e : Opened κ δ} {key : κ} {v : Option δ} :
      s.opened t = some e → a.writer = some t → a.put = some (key, v) → s.Conflict t key →
      (a.isInsert = true → s.InPlace key none) →
      Step s a (if e.policy = .abortOnConflict then s.close t else s)
  /-- An insert over a row in place, whoever wrote it, and an update or remove of no row. -/
  | refuse {a : Action κ δ} {t : Nat} {e : Opened κ δ} {key : κ} {v : Option δ} :
      s.opened t = some e → a.writer = some t → a.put = some (key, v) →
      (a.isInsert = true → ∃ d, s.InPlace key (some d)) →
      (a.isInsert = false → ¬ s.Conflict t key ∧ e.view key = none) →
      Step s a s
  | commit {t : Nat} {e : Opened κ δ} : s.opened t = some e →
      Step s (.commit t) { s with
        committed := overlay e.writes s.committed
        opened := fun u => if u = t then none else (s.opened u).map (·.overtake e.writes) }
  /-- An abort leaves in place, at most, what its transaction wrote, and nothing if its revert
  goes through. -/
  | abort {t : Nat} {failsAfter : Option Nat} {e : Opened κ δ}
      {left : κ → Option (Nat × Option δ)} :
      s.opened t = some e →
      (∀ key, left key = s.left key ∨ e.writes key ≠ none ∧ ∃ v, left key = some (t, v)) →
      (failsAfter = none → left = s.left) →
      Step s (.abort t failsAfter) { s.close t with left := left }
  /-- A retried abort takes back what it had left, all of it if its revert goes through. -/
  | retry {t : Nat} {failsAfter : Option Nat} {left : κ → Option (Nat × Option δ)} :
      (∀ key, left key = s.left key ∨ ∃ v, s.left key = some (t, v)) →
      (failsAfter = none → ∀ key v, left key ≠ some (t, v)) →
      Step s (.retryAbort t failsAfter) { s with left := left }
  /-- Upkeep, or a call of a transaction that is not open. -/
  | stay {a : Action κ δ} : (∀ policy, a ≠ .begin policy) →
      (∀ t failsAfter, a ≠ .retryAbort t failsAfter) →
      (∀ t, a.under = some t → s.opened t = none) → Step s a s

inductive Run : Snapshots κ δ → List (Action κ δ) → Snapshots κ δ → Prop
  | nil {s : Snapshots κ δ} : Run s [] s
  | cons {s s' s'' : Snapshots κ δ} {a : Action κ δ} {as : List (Action κ δ)} :
      Step s a s' → Run s' as s'' → Run s (a :: as) s''

end Snapshots

namespace Db

/-- The last version committed under the key is not one that was committed as `t` began. -/
def overtaken (db : Db κ δ) (t : Nat) (key : κ) : Prop :=
  ∃ v, lastCommitted db.log key = some v ∧ ¬ SeenAt (commitTs db.log) t v

/-- The row that a transaction in the middle of its abort has in place. -/
def left (db : Db κ δ) (key : κ) : Option (Nat × Option δ) :=
  (db.rows key).bind fun c => c.txnId.bind fun w =>
    if db.txMgr.states w = some .aborting then some (w, rowData (some c)) else none

def entry (db : Db κ δ) (t : Nat) : Opened κ δ :=
  ⟨db.txMgr.conflictPolicy t, db.seenRow t, db.ownWrite t, db.overtaken t⟩

/-- The store, as a store of snapshots. -/
def snapshots (db : Db κ δ) : Snapshots κ δ where
  committed := db.committedRow
  opened t := if db.txMgr.isTransactionActive t then some (db.entry t) else none
  left := db.left

variable {db : Db κ δ} {t u : Nat} {p q : ConflictPolicy} {key : κ} {a : Action κ δ}

theorem opened_eq (ht : db.txMgr.states t = some (.active p)) :
    db.snapshots.opened t = some (db.entry t) :=
  if_pos ((db.txMgr.isTransactionActive_iff t).mpr ⟨p, ht⟩)

theorem opened_eq_none_iff : db.snapshots.opened t = none ↔ Ended db.txMgr t := by
  show (if _ then _ else _) = none ↔ _
  constructor
  · intro h p hp
    rw [if_pos ((db.txMgr.isTransactionActive_iff t).mpr ⟨p, hp⟩)] at h
    cases h
  · intro h
    rw [if_neg]
    intro hactive
    obtain ⟨p, hp⟩ := (db.txMgr.isTransactionActive_iff t).mp hactive
    exact h p hp

theorem active_of_opened {e : Opened κ δ} (h : db.snapshots.opened t = some e) :
    e = db.entry t ∧ ∃ p, db.txMgr.states t = some (.active p) := by
  by_cases hactive : ∃ p, db.txMgr.states t = some (.active p)
  · obtain ⟨p, ht⟩ := hactive
    exact ⟨Option.some.inj (h.symm.trans (opened_eq ht)), p, ht⟩
  · rw [opened_eq_none_iff.mpr fun p hp => hactive ⟨p, hp⟩] at h
    cases h

omit [DecidableEq κ] in
theorem conflictPolicy_eq (ht : db.txMgr.states t = some (.active p)) :
    db.txMgr.conflictPolicy t = p := by
  rw [TransactionManager.conflictPolicy, ht]

/-! ## What a step leaves -/

/-- Only a begin opens a transaction. -/
theorem step_reader (h : DbInv db) (ha : ∀ policy, a ≠ .begin policy)
    (hr : (db.step a).txMgr.states t = some (.active p)) :
    db.txMgr.states t = some (.active p) := by
  have hcall : ∀ db' u key, (db' = db ∨ db.txMgr.isTransactionActive u = true ∧
      WriteStep db u key db') → db'.txMgr.states t = some (.active p) →
      db.txMgr.states t = some (.active p) := by
    rintro db' u key (rfl | ⟨-, hstep⟩) hr
    · exact hr
    · cases hstep with
      | wrote hw => exact hr
      | failed => exact hr
      | aborted => exact ((quiet_nextLsn db).trans rfl (quiet_abort _ u none)).reader t p hr
  cases a with
  | begin policy => exact absurd rfl (ha policy)
  | insert txn tuple => exact hcall _ _ _ (insert_step h.row_id txn tuple) hr
  | update txn tuple => exact hcall _ _ _ (update_step h.row_id txn tuple) hr
  | remove txn key => exact hcall _ _ _ (remove_step h.row_id txn key) hr
  | commit txn =>
    have hne : t ≠ txn := by
      rintro rfl
      exact commit_ends db t p hr
    exact (keepsOthers_commit db txn t hne).symm.trans hr
  | abort txn failsAfter => exact (quiet_abort db txn failsAfter).reader t p hr
  | retryAbort txn failsAfter =>
    simp only [step, retryAbort] at hr
    split at hr
    · exact (quiet_finishAbort db txn failsAfter).reader t p hr
    · exact hr
  | pruneCommitted =>
    simp only [step, pruneCommitted, TransactionManager.pruneCommitted,
      Option.filter_eq_some_iff] at hr
    exact hr.1
  | vacuum => exact hr
  | purge => exact (quiet_purge db).reader t p hr

/-- Only a commit overtakes. -/
theorem overtaken_step (h : DbInv db) (ha : ∀ t, a ≠ .commit t) (t : Nat) :
    (db.step a).overtaken t = db.overtaken t := by
  obtain ⟨hts, hlast⟩ := committed_step h a ha
  funext key
  rw [overtaken, hts, hlast]
  rfl

/-- A transaction that an action is not made under stays open as it is, unless that is a
commit. -/
theorem opened_step (h : DbInv db) (ha : ∀ t, a ≠ .commit t) (hu : a.under ≠ some t)
    (hfresh : (∃ policy, a = .begin policy) → t ≠ db.txMgr.clock) :
    (db.step a).snapshots.opened t = db.snapshots.opened t := by
  by_cases hactive : ∃ p, db.txMgr.states t = some (.active p)
  · obtain ⟨p, ht⟩ := hactive
    have hlt : t < db.txMgr.clock := h.txn.idLt t (by rw [ht]; exact Option.some_ne_none _)
    have hw : a.writer ≠ some t := by
      cases a with
      | insert | update | remove => exact hu
      | _ => simp [Action.writer]
    have ht' := step_keepsOthers h a ht hu
    rw [opened_eq ht, opened_eq ht', entry, entry, conflictPolicy_eq ht, conflictPolicy_eq ht',
      funext (seenRow_step h a hlt), funext (ownWrite_step h a hw), overtaken_step h ha]
  · rw [opened_eq_none_iff.mpr fun p hp => hactive ⟨p, hp⟩, opened_eq_none_iff]
    intro p hp
    by_cases hbegin : ∃ policy, a = .begin policy
    · exact ((step_spec db a h).reader t p hp).elim (hfresh hbegin) fun ht => hactive ⟨p, ht⟩
    · exact hactive ⟨p, step_reader h (fun policy heq => hbegin ⟨policy, heq⟩) hp⟩

/-- What an action leaves of the store, but for the transaction that it is made under and for
the rows of unfinished aborts. -/
theorem snapshots_step (h : DbInv db) (ha : ∀ t, a ≠ .commit t) (hu : a.under = some t)
    {e : Option (Opened κ δ)} (he : (db.step a).snapshots.opened t = e)
    {left : κ → Option (Nat × Option δ)} (hleft : (db.step a).left = left) :
    (db.step a).snapshots =
      ⟨db.committedRow, Function.update db.snapshots.opened t e, left⟩ := by
  have hopened : (db.step a).snapshots.opened = Function.update db.snapshots.opened t e := by
    funext u
    by_cases hut : u = t
    · rw [hut, Function.update_self, he]
    · rw [Function.update_of_ne hut]
      refine opened_step h ha (by rw [hu]; exact fun heq => hut (Option.some.inj heq).symm) ?_
      rintro ⟨policy, rfl⟩
      cases hu
  rw [← hopened, ← funext (committedRow_step h a ha), ← hleft]
  rfl

/-! ## Conflicts -/

/-- The row in place is another's that conflicts. -/
def Blocked (db : Db κ δ) (t : Nat) (key : κ) : Prop :=
  ∃ c w, db.rows key = some c ∧ c.txnId = some w ∧ db.txMgr.conflicts w t = true

omit [DecidableEq κ] in
theorem left_eq_some_iff {v : Option δ} : db.left key = some (t, v) ↔
    ∃ c, db.rows key = some c ∧ c.txnId = some t ∧ db.txMgr.states t = some .aborting ∧
      rowData (some c) = v := by
  unfold left
  constructor
  · intro h
    obtain ⟨c, hc, h⟩ := Option.bind_eq_some_iff.mp h
    obtain ⟨w, hw, h⟩ := Option.bind_eq_some_iff.mp h
    split at h
    · next hab =>
        cases h
        exact ⟨c, hc, hw, hab, rfl⟩
    · cases h
  · rintro ⟨c, hc, hw, hab, rfl⟩
    simp [hc, hw, hab]

/-- What the holder of a key wrote is the row in place. -/
theorem ownWrite_of_own (h : DbInv db) {own base older : List (Tuple κ δ)} {o : Tuple κ δ}
    {os : List (Tuple κ δ)}
    (hk : KeyInv db.txMgr db.log db.versions.find key (db.rows key) own base older)
    (hown : own = o :: os) (ht : db.txMgr.states t = some (.active p))
    (hwrote : WroteKey db.log t key) : db.ownWrite t key = some (rowData (some o)) := by
  rw [ownWrite, ownVersions_eq h ht hk hwrote, List.getLast?_reverse, hown]
  rfl

/-- What was committed last is the head of what is known to be committed. -/
theorem lastCommitted_eq {own base older : List (Tuple κ δ)}
    (hk : KeyInv db.txMgr db.log db.versions.find key (db.rows key) own base older) :
    lastCommitted db.log key = (base ++ older).head? := by
  rw [lastCommitted, ← hk.history, List.head?_reverse]

/-- The row in place, in both stores. -/
theorem inPlace_row (h : DbInv db) (key : κ) :
    db.snapshots.InPlace key (rowData (db.rows key)) := by
  obtain ⟨own, base, older, hk⟩ := h.key key
  cases hown : own with
  | cons o os =>
    have hrow : db.rows key = some o := by
      rw [hk.row_eq_head, hown]
      rfl
    obtain ⟨w, hw, hfl, hwrote⟩ := hk.holder o (by rw [hown]; exact List.mem_cons_self)
    rw [hrow]
    rcases hfl with ⟨p, hp⟩ | hab
    · exact Or.inr (Or.inl ⟨w, _, opened_eq hp, ownWrite_of_own h hk hown hp hwrote⟩)
    · exact Or.inl ⟨w, left_eq_some_iff.mpr ⟨o, hrow, hw, hab, rfl⟩⟩
  | nil =>
    have hhead : db.rows key = base.head? := by
      rw [hk.row_eq_head, hown, List.nil_append]
    refine Or.inr (Or.inr ⟨?_, fun t e he => ?_, ?_⟩)
    · by_contra hne
      obtain ⟨⟨w, v⟩, hleft⟩ := Option.ne_none_iff_exists'.mp hne
      obtain ⟨c, hc, hw, hab, -⟩ := left_eq_some_iff.mp hleft
      rw [hhead] at hc
      have hcom := (hk.committed_of_mem
        (List.mem_append_left _ (List.mem_of_mem_head? hc))).2
      rw [committedBy_iff hw, h.txn.abortingTs w hab] at hcom
      exact hcom.elim fun c hc => nomatch hc
    · obtain ⟨rfl, p, hp⟩ := active_of_opened he
      by_contra hwrote
      exact (hk.active t p hp (wroteKey_of_ownWrite hwrote)).1 hown
    · show rowData _ = rowData (lastCommitted db.log key)
      rw [lastCommitted_eq hk, hhead]
      cases base with
      | cons b bs => rfl
      | nil =>
        -- the row was purged, and its tombstone is what is known of it
        rcases hk.cut with hnil | ⟨v, hv, -⟩ | ⟨v, hv, -, htomb⟩
        · rw [hnil]
          rfl
        · cases hv
        · rw [List.nil_append, hv, rowData, rowData, asRow_tombstoned htomb]
          rfl

/-- A conflict in the store is one in the store of snapshots. -/
theorem conflict_iff (h : DbInv db) (ht : db.txMgr.states t = some (.active p)) :
    db.snapshots.Conflict t key ↔ db.Blocked t key := by
  obtain ⟨own, base, older, hk⟩ := h.key key
  constructor
  · intro hconf
    by_contra hno
    have hfree : ∀ c, db.rows key = some c →
        ∃ w, c.txnId = some w ∧ db.txMgr.conflicts w t = false := by
      intro c hc
      obtain ⟨w, hw, -⟩ := h.known_of_mem hk (hk.row_mem hc)
      exact ⟨w, hw, Bool.eq_false_iff.mpr fun hcon => hno ⟨c, w, hc, hw, hcon⟩⟩
    obtain ⟨hown, hbefore⟩ :=
      hk.own_by_writer h.txn ht (fun _ hwrote => h.wrote_of_wroteKey hwrote) hfree
    rcases hconf with ⟨e, he, hover⟩ | hleft | ⟨u, e, hu, he, hwrote⟩
    · obtain ⟨rfl, -⟩ := active_of_opened he
      obtain ⟨v, hlast, hsee⟩ := hover
      rw [lastCommitted_eq hk] at hlast
      obtain ⟨w, c, hw, hc, hlt⟩ := hbefore v (List.mem_of_mem_head? hlast)
      exact hsee ((seenAt_iff hw).mpr ⟨c, hc, hlt⟩)
    · obtain ⟨⟨w, v⟩, hleft⟩ := Option.ne_none_iff_exists'.mp hleft
      obtain ⟨c, hc, hw, hab, -⟩ := left_eq_some_iff.mp hleft
      refine hno ⟨c, w, hc, hw, ?_⟩
      have hne : w ≠ t := by
        rintro rfl
        rw [ht] at hab
        cases hab
      rw [TransactionManager.conflicts, if_neg hne, hab]
    · obtain ⟨rfl, q, hq⟩ := active_of_opened he
      obtain ⟨hne, hby, -⟩ := hk.active u q hq (wroteKey_of_ownWrite hwrote)
      obtain ⟨o, ho⟩ := List.exists_mem_of_ne_nil _ hne
      exact hu (Option.some.inj ((hby o ho).symm.trans (hown o ho)))
  · rintro ⟨c, w, hc, hw, hcon⟩
    have hne : w ≠ t := by
      rintro rfl
      simp [TransactionManager.conflicts] at hcon
    by_cases hcom : CommittedBy (commitTs db.log) c
    · refine Or.inl ⟨_, opened_eq ht, c, ?_, fun hseen => ?_⟩
      · have hnil := hk.own_eq_nil h.txn hc hcom
        have hmem : c ∈ (base ++ older).head? := by
          have hhead := hk.row_eq_head
          rw [hnil, List.nil_append, hc] at hhead
          cases base with
          | nil => cases hhead
          | cons b bs => exact hhead.symm
        rw [lastCommitted_eq hk]
        exact hmem
      · obtain ⟨ts, hts, hlt⟩ := (seenAt_iff hw).mp hseen
        rw [TransactionManager.conflicts, if_neg hne] at hcon
        cases hst : db.txMgr.states w with
        | none =>
          rw [hst] at hcon
          cases hcon
        | some state =>
          rw [hst] at hcon
          cases state with
          | active q => rw [h.txn.activeTs w q hst] at hts; cases hts
          | committing c q => exact h.noCommitting w c q hst
          | committed c' =>
            have hgt : c' > t := of_decide_eq_true hcon
            have hts' := h.txn.committedTs w c' (h.txn.tsWrote w ts hts) hst
            obtain rfl := Option.some.inj (hts'.symm.trans hts)
            omega
          | aborting => rw [h.txn.abortingTs w hst] at hts; cases hts
          | aborted a => rw [h.txn.abortedTs w a hst] at hts; cases hts
    · have hne' := hk.own_ne_nil hc hcom
      obtain ⟨o, os, hown⟩ := List.exists_cons_of_ne_nil hne'
      have hoc : o = c := by
        have hhead := hk.row_eq_head
        rw [hown, hc] at hhead
        exact (Option.some.inj hhead).symm
      obtain ⟨w', hw', hfl, hwrote⟩ := hk.holder o (by rw [hown]; exact List.mem_cons_self)
      rw [hoc, hw] at hw'
      obtain rfl := Option.some.inj hw'
      rcases hfl with ⟨q, hq⟩ | hab
      · refine Or.inr (Or.inr ⟨w, _, hne, opened_eq hq, ?_⟩)
        show db.ownWrite w key ≠ none
        rw [ownWrite_of_own h hk hown hq hwrote]
        exact Option.some_ne_none _
      · refine Or.inr (Or.inl ?_)
        show db.left key ≠ none
        rw [left_eq_some_iff.mpr ⟨c, hc, hw, hab, rfl⟩]
        exact Option.some_ne_none _

/-! ## What aborts leave -/

omit [DecidableEq κ] in
/-- A step that neither moves the row nor changes whether its writer is being aborted. -/
theorem left_congr {db' : Db κ δ} (hrow : db'.rows key = db.rows key)
    (hab : ∀ c w, db.rows key = some c → c.txnId = some w →
      (db'.txMgr.states w = some .aborting ↔ db.txMgr.states w = some .aborting)) :
    db'.left key = db.left key := by
  unfold left
  rw [hrow]
  cases hc : db.rows key with
  | none => rfl
  | some c =>
    cases hw : c.txnId with
    | none => simp [hw]
    | some w => simp [hw, hab c w hc hw]

variable {c : Tuple κ δ} {w : Nat}

omit [DecidableEq κ] in
/-- The row of an active or committed transaction is not left by an abort. -/
theorem left_eq_none (hc : db.rows key = some c) (hw : c.txnId = some w)
    (hst : db.txMgr.states w ≠ some .aborting) : db.left key = none := by
  simp [left, hc, hw, hst]

/-- What `finish_abort` leaves under a key is what was there, or of the transaction. -/
theorem left_finishAbort (h : DbInv db) (hab : db.txMgr.states t = some .aborting)
    (f : Option Nat) (key : κ) :
    (db.finishAbort t f).left key = db.left key ∨
      (∃ v, db.left key = some (t, v)) ∧
        ((db.finishAbort t f).left key = none ∨
          ∃ v, (db.finishAbort t f).left key = some (t, v)) := by
  have hothers := keepsOthers_finishAbort db t f
  by_cases hby : ∃ c, db.rows key = some c ∧ c.txnId = some t
  · obtain ⟨c, hc, hct⟩ := hby
    refine Or.inr ⟨⟨_, left_eq_some_iff.mpr ⟨c, hc, hct, hab, rfl⟩⟩, ?_⟩
    cases hleft : (db.finishAbort t f).left key with
    | none => exact Or.inl rfl
    | some e =>
      obtain ⟨w, v⟩ := e
      obtain ⟨c', hc', hw, hab', -⟩ := left_eq_some_iff.mp hleft
      refine Or.inr ⟨v, ?_⟩
      by_contra hne
      have hwt : w ≠ t := fun heq => hne (by rw [heq])
      rw [hothers w hwt] at hab'
      rcases rows_finishAbort_mem h hab f key with hrow | ⟨c₀, undo, hc₀, hct₀, hu, hrow⟩
      · rw [hrow, hc] at hc'
        cases hc'
        exact hwt (Option.some.inj (hw.symm.trans hct))
      · -- what an undo puts back is the transaction's own, or was committed
        obtain ⟨own, base, older, hk⟩ := h.key key
        obtain ⟨u₀, rest, hundos, htarget, -⟩ := hk.undo t c (Or.inr hab) hc hct
        rw [hrow] at hc'
        rw [hundos] at hu
        rcases List.mem_cons.mp hu with rfl | hu
        · rw [htarget] at hc'
          have hcom := (hk.committed_of_mem
            (List.mem_append_left _ (List.mem_of_mem_head? hc'))).2
          rw [committedBy_iff hw, h.txn.abortingTs w hab'] at hcom
          exact hcom.elim fun c hc => nomatch hc
        · obtain ⟨c₁, hc₁, hct₁⟩ := (h.undoShape t key u₀ rest hundos).2 undo hu
          rw [hc₁] at hc'
          cases hc'
          exact hwt (Option.some.inj (hw.symm.trans hct₁))
  · refine Or.inl (left_congr ?_ fun c w hc hw => ?_)
    · refine (rows_finishAbort_mem h hab f key).resolve_right ?_
      rintro ⟨c, -, hc, hct, -⟩
      exact hby ⟨c, hc, hct⟩
    · rw [hothers w fun heq => hby ⟨c, hc, by rw [hw, heq]⟩]

/-- A revert that goes through ends the abort. -/
theorem states_finishAbort_none (db : Db κ δ) (t : Nat) :
    (db.finishAbort t none).txMgr.states t ≠ some .aborting := by
  have hcomplete : ∀ m : TransactionManager, ∀ wrote,
      (m.abortComplete t wrote).1.states t ≠ some .aborting := by
    intro m wrote
    unfold TransactionManager.abortComplete
    dsimp only
    split <;> simp
  have hcompleted : ∀ (db : Db κ δ) wrote,
      (db.completeAbort t wrote).txMgr.states t ≠ some .aborting := by
    intro db wrote
    unfold completeAbort
    generalize (if wrote then db.logNew (.rollback t) else db) = logged
    dsimp only
    split
    · exact hcomplete _ _
    · exact hcomplete _ _
  exact hcompleted _ _

/-- An abort leaves, at most, what its transaction wrote. -/
theorem left_abort (h : DbInv db) (ht : db.txMgr.states t = some (.active p)) (f : Option Nat) :
    (∀ key, (db.abort t f).left key = db.left key ∨
        db.ownWrite t key ≠ none ∧ ∃ v, (db.abort t f).left key = some (t, v)) ∧
      (f = none → (db.abort t f).left = db.left) := by
  by_cases hwrote : Wrote db.log t
  · obtain ⟨m, hm, hab, hinv, heq⟩ := abort_eq h ht hwrote
    have hmarked : ∀ key, (∃ v, ({ db with txMgr := m } : Db κ δ).left key = some (t, v)) ∨
        ({ db with txMgr := m } : Db κ δ).left key = db.left key := by
      intro key
      by_cases hby : ∃ c, db.rows key = some c ∧ c.txnId = some t
      · obtain ⟨c, hc, hct⟩ := hby
        exact Or.inl ⟨_, left_eq_some_iff.mpr ⟨c, hc, hct, hab, rfl⟩⟩
      · refine Or.inr (left_congr rfl fun c w hc hw => ?_)
        have hne : w ≠ t := fun heq => hby ⟨c, hc, by rw [hw, heq]⟩
        simp only [TransactionManager.abort, ht] at hm
        cases hm
        simp [hne]
    have hheld : ∀ key v, ({ db with txMgr := m } : Db κ δ).left key = some (t, v) →
        db.left key = none ∧ db.ownWrite t key ≠ none := by
      intro key v hv
      obtain ⟨c, hc, hct, -⟩ := left_eq_some_iff.mp hv
      obtain ⟨own, base, older, hk⟩ := h.key key
      refine ⟨left_eq_none hc hct (by simp [ht]), ?_⟩
      have hnot : ¬ CommittedBy (commitTs db.log) c := by
        rw [committedBy_iff hct, h.txn.activeTs t p ht]
        rintro ⟨c, hc⟩
        cases hc
      obtain ⟨o, os, hown⟩ := List.exists_cons_of_ne_nil (hk.own_ne_nil hc hnot)
      have hoc : o = c := by
        have hhead := hk.row_eq_head
        rw [hown, hc] at hhead
        exact (Option.some.inj hhead).symm
      obtain ⟨w, hw, -, hwrote⟩ := hk.holder o (by rw [hown]; exact List.mem_cons_self)
      rw [hoc, hct] at hw
      obtain rfl := Option.some.inj hw
      rw [ownWrite_of_own h hk hown ht hwrote]
      exact Option.some_ne_none _
    have hleaves : ∀ key, (db.abort t f).left key = db.left key ∨
        db.ownWrite t key ≠ none ∧ ∃ v, (db.abort t f).left key = some (t, v) := by
      intro key
      rw [heq f]
      rcases left_finishAbort hinv hab f key with hsame | ⟨⟨v, hv⟩, hnone | hown⟩
      · rw [hsame]
        rcases hmarked key with ⟨v, hv⟩ | hmarked
        · exact Or.inr ⟨(hheld key v hv).2, v, hv⟩
        · exact Or.inl hmarked
      · rw [hnone, (hheld key v hv).1]
        exact Or.inl rfl
      · exact Or.inr ⟨(hheld key v hv).2, hown⟩
    refine ⟨hleaves, ?_⟩
    rintro rfl
    funext key
    refine (hleaves key).resolve_right ?_
    rintro ⟨-, v, hv⟩
    obtain ⟨c, -, -, hab', -⟩ := left_eq_some_iff.mp hv
    rw [heq none] at hab'
    exact states_finishAbort_none _ t hab'
  · -- it has nothing in place
    have hsame : (db.abort t f).left = db.left := by
      obtain ⟨db', heq, habort⟩ := db.abort_cases t f
      rw [heq]
      cases habort with
      | refused => rfl
      | forgotten hp hhas hend hclock hstates =>
        refine funext fun key => left_congr rfl fun c w hc hw => ?_
        by_cases hwt : w = t
        · subst hwt
          simp [hstates, hp]
        · simp [hstates, hwt]
      | reverted hp hhas => exact absurd ((h.hasWrites t (Or.inl ⟨p, ht⟩)).mp hhas) hwrote
    exact ⟨fun key => Or.inl (congrFun hsame key), fun _ => hsame⟩

/-- A retried abort takes back what it had left. -/
theorem left_retryAbort (h : DbInv db) (t : Nat) (f : Option Nat) :
    (∀ key, (db.retryAbort t f).left key = db.left key ∨ ∃ v, db.left key = some (t, v)) ∧
      (f = none → ∀ key v, (db.retryAbort t f).left key ≠ some (t, v)) := by
  unfold retryAbort
  split
  · next hab =>
      refine ⟨fun key => (left_finishAbort h hab f key).imp_right And.left, ?_⟩
      rintro rfl key v hv
      obtain ⟨c, -, -, hab', -⟩ := left_eq_some_iff.mp hv
      exact states_finishAbort_none db t hab'
  · next hab =>
      refine ⟨fun key => Or.inl rfl, fun _ key v hv => ?_⟩
      obtain ⟨c, -, -, hab', -⟩ := left_eq_some_iff.mp hv
      exact hab hab'

/-- Nothing but an abort changes what aborts have left. -/
theorem left_step (h : DbInv db) (ha : a.writer = none) (habort : ∀ t f, a ≠ .abort t f)
    (hretry : ∀ t f, a ≠ .retryAbort t f) : (db.step a).left = db.left := by
  funext key
  cases a with
  | begin policy =>
    refine left_congr rfl fun c w _ _ => ?_
    by_cases hw : w = db.txMgr.clock
    · subst hw
      simp [step, begin, TransactionManager.createTransaction, h.txn.fresh_state]
    · simp [step, begin, TransactionManager.createTransaction, hw]
  | insert | update | remove => cases ha
  | commit t =>
    refine left_congr (congrFun (commit_log db t).1 key) fun c w _ _ => ?_
    show (db.commit t).1.txMgr.states w = _ ↔ _
    by_cases hw : w = t
    · subst hw
      obtain ⟨db', heq, hcommit⟩ := db.commit_cases w
      rw [heq]
      cases hcommit with
      | refused => exact Iff.rfl
      | logged hp hhas hbegin hclock hstates => simp [hstates, hp]
      | silent hp hhas hm hclock hstates => simp [hstates, hp]
    · rw [keepsOthers_commit db t w hw]
  | abort t f => exact absurd rfl (habort t f)
  | retryAbort t f => exact absurd rfl (hretry t f)
  | pruneCommitted =>
    refine left_congr rfl fun c w _ _ => ?_
    simp only [step, pruneCommitted, TransactionManager.pruneCommitted,
      Option.filter_eq_some_iff]
    exact and_iff_left rfl
  | vacuum => exact left_congr rfl fun c w _ _ => Iff.rfl
  | purge =>
    simp only [step, purge]
    split
    · rfl
    · next tomb rest hpurging =>
        split
        · next hpurges =>
            by_cases hkey : key = tomb.key
            · -- the tombstone of a transaction that committed
              have hgone : db.left key = none := by
                cases hc : db.rows key with
                | none => simp [left, hc]
                | some c =>
                  have hrow : db.rows tomb.key = some c := hkey ▸ hc
                  have hsame : (c.tombstoned && c.isSameTxn tomb.txn) = true := by
                    simpa [purges, nextLsn, hrow] using hpurges
                  have hct : c.txnId = some tomb.txn :=
                    (c.isSameTxn_iff _).mp (Bool.and_eq_true_iff.mp hsame).2
                  have hts := (h.purging tomb (by rw [hpurging]; exact List.mem_cons_self)).1
                  refine left_eq_none hc hct fun hab => ?_
                  rw [h.txn.abortingTs _ hab] at hts
                  cases hts
              rw [hgone]
              simp [left, applyDecision, hkey]
            · exact left_congr (Function.update_of_ne hkey _ _) fun c w _ _ => Iff.rfl
        · exact left_congr rfl fun c w _ _ => Iff.rfl

/-! ## Writes -/

/-- A conflict takes down a transaction of its policy. -/
theorem writeWithPolicy_conflict (ht : db.txMgr.states t = some (.active p))
    {decide : Option (Tuple κ δ) → Except (StoreError κ) (Db κ δ × Decision κ δ)} {k : κ}
    (hd : decide (db.rows key) = .error (.writeConflict k)) :
    (db.writeWithPolicy key t decide).1 =
      if p = .abortOnConflict then db.abort t none else db := by
  unfold writeWithPolicy
  rw [hd]
  dsimp only [afterWrite]
  rw [conflictPolicy_eq ht]
  split <;> rfl

/-- A write that is refused for another reason leaves the store. -/
theorem writeWithPolicy_refused
    {decide : Option (Tuple κ δ) → Except (StoreError κ) (Db κ δ × Decision κ δ)}
    {e : StoreError κ} (hd : decide (db.rows key) = .error e)
    (he : ∀ k, e ≠ .writeConflict k) : (db.writeWithPolicy key t decide).1 = db := by
  unfold writeWithPolicy
  rw [hd]
  cases e with
  | writeConflict k => exact absurd rfl (he k)
  | _ => rfl

omit [DecidableEq κ] in
theorem checkWriteConflict_eq (hw : c.txnId = some w) :
    db.checkWriteConflict c t =
      if db.txMgr.conflicts w t then .error (.writeConflict c.id) else .ok () := by
  simp only [checkWriteConflict, hw]

omit [DecidableEq κ] in
theorem blocked_iff (hc : db.rows key = some c) (hw : c.txnId = some w) :
    db.Blocked t key ↔ db.txMgr.conflicts w t = true := by
  refine ⟨?_, fun hcon => ⟨c, w, hc, hw, hcon⟩⟩
  rintro ⟨c', w', hc', hw', hcon⟩
  obtain rfl := Option.some.inj (hc.symm.trans hc')
  obtain rfl := Option.some.inj (hw.symm.trans hw')
  exact hcon

omit [DecidableEq κ] in
theorem not_blocked_of_no_row (hc : db.rows key = none) : ¬ db.Blocked t key := by
  rintro ⟨c, w, hc', -⟩
  rw [hc] at hc'
  cases hc'

omit [DecidableEq κ] in
theorem rowData_live (hlive : c.tombstoned = false) :
    rowData (some c) = some c.data := by
  rw [rowData, asRow_live hlive]
  rfl

omit [DecidableEq κ] in
theorem rowData_tombstoned (htomb : c.tombstoned = true) :
    rowData (some c) = none := by
  rw [rowData, asRow_tombstoned htomb]
  rfl

/-- What an update or remove finds to replace. -/
theorem replacedVersion_cases (h : DbInv db) (t : Nat) (key : κ) :
    (db.Blocked t key ∧ ∃ k, db.replacedVersion key t (db.rows key) = .error (.writeConflict k)) ∨
      (¬ db.Blocked t key ∧ rowData (db.rows key) = none ∧
        db.replacedVersion key t (db.rows key) = .error (.keyNotFound key)) ∨
      (¬ db.Blocked t key ∧ ∃ old, db.rows key = some old ∧ old.tombstoned = false ∧
        db.replacedVersion key t (db.rows key) = .ok old) := by
  cases hc : db.rows key with
  | none => exact Or.inr (Or.inl ⟨not_blocked_of_no_row hc, rfl, rfl⟩)
  | some c =>
    obtain ⟨own, base, older, hk⟩ := h.key key
    obtain ⟨w, hw, -⟩ := h.known_of_mem hk (hk.row_mem hc)
    rw [blocked_iff hc hw]
    cases hcon : db.txMgr.conflicts w t with
    | true =>
      refine Or.inl ⟨rfl, c.id, ?_⟩
      simp only [replacedVersion, checkWriteConflict_eq hw, hcon, if_true]
    | false =>
      have hcheck : db.checkWriteConflict c t = .ok () := by
        rw [checkWriteConflict_eq hw, hcon]
        rfl
      rw [replacedVersion_eq hcheck]
      cases htomb : c.tombstoned with
      | true => exact Or.inr (Or.inl ⟨Bool.false_ne_true, rowData_tombstoned htomb, rfl⟩)
      | false => exact Or.inr (Or.inr ⟨Bool.false_ne_true, c, rfl, htomb, rfl⟩)

/-- A write of an open transaction is refused for the row in place, is in conflict, or leaves
what it is to leave. -/
inductive WriteCase (db : Db κ δ) (t : Nat) (p : ConflictPolicy) (a : Action κ δ) (key : κ)
    (data : Option δ) : Prop
  | refused : (a.isInsert = true → rowData (db.rows key) ≠ none) →
      (a.isInsert = false → ¬ db.Blocked t key ∧ rowData (db.rows key) = none) →
      db.step a = db.nextLsn.1 → WriteCase db t p a key data
  | conflict : db.Blocked t key → (a.isInsert = true → rowData (db.rows key) = none) →
      db.step a = (if p = .abortOnConflict then db.nextLsn.1.abort t none else db.nextLsn.1) →
      WriteCase db t p a key data
  | written (op : Operation κ δ) (v : Tuple κ δ) :
      WriteSpec db.nextLsn.1.txMgr t db.nextLsn.2 key (db.rows key) op v →
      data = rowData (some v) → (rowData (db.rows key) = none ↔ a.isInsert = true) →
      db.step a = db.nextLsn.1.write db.nextLsn.2 key op v → WriteCase db t p a key data

theorem insert_case (h : DbInv db) (ht : db.txMgr.states t = some (.active p))
    (tuple : Tuple κ δ) :
    WriteCase db t p (.insert t tuple) tuple.id (some tuple.data) := by
  have ht' : db.nextLsn.1.txMgr.states t = some (.active p) := ht
  have hstep : db.step (.insert t tuple) = (db.nextLsn.1.writeWithPolicy tuple.id t
      (db.nextLsn.1.insertDecision (stamped tuple t) t db.nextLsn.2)).1 := by
    simp only [step, insert, requireActive_eq ht]
  -- what is decided goes through
  have hwrites : ∀ r, db.nextLsn.1.insertDecision (stamped tuple t) t db.nextLsn.2
      (db.rows tuple.id) = .ok r → rowData (r.1.applyDecision tuple.id r.2 |>.rows tuple.id) =
        some tuple.data → rowData (db.rows tuple.id) = none →
      WriteCase db t p (.insert t tuple) tuple.id (some tuple.data) := by
    intro r hd hdata hfresh
    obtain ⟨op, v, hspec, hwrite⟩ := insertDecision_spec (h.row_id tuple.id) hd
    have hv : (r.1.applyDecision tuple.id r.2).rows tuple.id = some v := by
      rw [hwrite]
      exact Function.update_self _ _ _
    refine .written op v hspec (by rw [← hv, hdata]) (iff_of_true hfresh rfl) ?_
    rw [hstep]
    unfold writeWithPolicy
    have hd' : db.nextLsn.1.insertDecision (stamped tuple t) t db.nextLsn.2
        (db.nextLsn.1.rows tuple.id) = .ok r := hd
    rw [hd']
    exact hwrite
  cases hc : db.rows tuple.id with
  | none =>
    refine hwrites _ (by rw [hc]; rfl) ?_ (by rw [hc]; rfl)
    simp [applyDecision, rowData, asRow, stamped]
  | some c =>
    obtain ⟨own, base, older, hk⟩ := h.key tuple.id
    obtain ⟨w, hw, -⟩ := h.known_of_mem hk (hk.row_mem hc)
    cases htomb : c.tombstoned with
    | false =>
      have hd : db.nextLsn.1.insertDecision (stamped tuple t) t db.nextLsn.2
          (db.nextLsn.1.rows tuple.id) = .error (.duplicateKey tuple.id) := by
        show db.nextLsn.1.insertDecision _ _ _ (db.rows tuple.id) = _
        simp [hc, insertDecision, htomb, stamped]
      refine .refused (fun _ => ?_) (fun hno => by cases hno) ?_
      · rw [hc, rowData_live htomb]
        exact Option.some_ne_none _
      · rw [hstep, writeWithPolicy_refused hd (by simp)]
    | true =>
      cases hcon : db.txMgr.conflicts w t with
      | true =>
        have hcheck : db.nextLsn.1.checkWriteConflict c t =
            .error (.writeConflict c.id) := by
          rw [checkWriteConflict_eq hw]
          exact if_pos hcon
        have hd : db.nextLsn.1.insertDecision (stamped tuple t) t db.nextLsn.2
            (db.nextLsn.1.rows tuple.id) = .error (.writeConflict c.id) := by
          show db.nextLsn.1.insertDecision _ _ _ (db.rows tuple.id) = _
          simp [hc, insertDecision, htomb, hcheck]
        refine .conflict ((blocked_iff hc hw).mpr hcon) (fun _ => ?_) ?_
        · rw [hc, rowData_tombstoned htomb]
        · rw [hstep, writeWithPolicy_conflict ht' hd]
      | false =>
        have hcheck : db.nextLsn.1.checkWriteConflict c t = .ok () := by
          rw [checkWriteConflict_eq hw]
          exact if_neg (Bool.eq_false_iff.mp hcon)
        obtain ⟨r, hd, hdata⟩ : ∃ r, db.nextLsn.1.insertDecision (stamped tuple t) t
            db.nextLsn.2 (db.rows tuple.id) = .ok r ∧
              rowData ((r.1.applyDecision tuple.id r.2).rows tuple.id) =
                some tuple.data := by
          rw [hc]
          simp only [insertDecision, htomb, hcheck, if_true]
          exact ⟨_, rfl, by simp [applyDecision, rowData, asRow, stamped]⟩
        exact hwrites r hd hdata (by rw [hc, rowData_tombstoned htomb])

/-- An update or a remove, by the version that it puts over the row. -/
theorem replace_case (h : DbInv db) (ht : db.txMgr.states t = some (.active p))
    (decide : Option (Tuple κ δ) → Except (StoreError κ) (Db κ δ × Decision κ δ))
    {data : Option δ} {next : Tuple κ δ → Db κ δ × Decision κ δ} (hinsert : a.isInsert = false)
    (hstep : db.step a = (db.nextLsn.1.writeWithPolicy key t decide).1)
    (hdecide : decide (db.rows key) =
      match db.nextLsn.1.replacedVersion key t (db.rows key) with
      | .error e => .error e
      | .ok old => .ok (next old))
    (hnext : ∀ old, decide (db.rows key) = .ok (next old) → ∃ op v,
      WriteSpec db.nextLsn.1.txMgr t db.nextLsn.2 key (db.rows key) op v ∧
        (next old).1.applyDecision key (next old).2 = db.nextLsn.1.write db.nextLsn.2 key op v)
    (hdata : ∀ old, old.tombstoned = false →
      rowData ((next old).1.applyDecision key (next old).2 |>.rows key) = data) :
    WriteCase db t p a key data := by
  have ht' : db.nextLsn.1.txMgr.states t = some (.active p) := ht
  have hno : a.isInsert ≠ true := by simp [hinsert]
  rcases replacedVersion_cases h.nextLsn t key with ⟨hblocked, k, hk⟩ | ⟨hfree, hnone, hk⟩ |
    ⟨hfree, old, hold, hlive, hk⟩
  · have hd : decide (db.nextLsn.1.rows key) = .error (.writeConflict k) := by
      show decide (db.rows key) = _
      rw [hdecide, show db.nextLsn.1.replacedVersion key t (db.rows key) = _ from hk]
    refine .conflict hblocked (fun hyes => absurd hyes hno) ?_
    rw [hstep, writeWithPolicy_conflict ht' hd]
  · have hd : decide (db.nextLsn.1.rows key) = .error (.keyNotFound key) := by
      show decide (db.rows key) = _
      rw [hdecide, show db.nextLsn.1.replacedVersion key t (db.rows key) = _ from hk]
    refine .refused (fun hyes => absurd hyes hno) (fun _ => ⟨hfree, hnone⟩) ?_
    rw [hstep, writeWithPolicy_refused hd (by simp)]
  · have hd : decide (db.rows key) = .ok (next old) := by
      rw [hdecide, show db.nextLsn.1.replacedVersion key t (db.rows key) = _ from hk]
    obtain ⟨op, v, hspec, hwrite⟩ := hnext old hd
    have hv : ((next old).1.applyDecision key (next old).2).rows key = some v := by
      rw [hwrite]
      exact Function.update_self _ _ _
    refine .written op v hspec (by rw [← hv, hdata old hlive]) ?_ ?_
    · rw [show db.rows key = some old from hold, rowData_live hlive]
      exact iff_of_false (Option.some_ne_none _) hno
    · rw [hstep, ← hwrite]
      unfold writeWithPolicy
      rw [show decide (db.nextLsn.1.rows key) = _ from hd]

theorem write_case (h : DbInv db) (ht : db.txMgr.states t = some (.active p))
    (hw : a.writer = some t) :
    ∃ key data, a.put = some (key, data) ∧ WriteCase db t p a key data := by
  cases a with
  | insert txn tuple =>
    obtain rfl := Option.some.inj hw
    exact ⟨_, _, rfl, insert_case h ht tuple⟩
  | update txn tuple =>
    obtain rfl := Option.some.inj hw
    refine ⟨_, _, rfl, replace_case h ht
      (db.nextLsn.1.updateDecision tuple txn db.nextLsn.2) rfl ?_ rfl
      (fun old hd => updateDecision_spec (h.row_id tuple.id) hd) fun old hlive => ?_⟩
    · simp only [step, update, requireActive_eq ht]
    · simp [applyDecision, rowData, asRow, hlive]
  | remove txn key =>
    obtain rfl := Option.some.inj hw
    refine ⟨_, _, rfl, replace_case h ht
      (db.nextLsn.1.removeDecision key txn db.nextLsn.2) rfl ?_ rfl
      (fun old hd => removeDecision_spec (h.row_id key) hd) fun old hlive => ?_⟩
    · simp only [step, remove, requireActive_eq ht]
      split <;> rfl
    · simp [applyDecision, rowData, asRow]
  | _ => cases hw

/-! ## Refinement -/

/-- Where no row blocks it, a transaction finds the row in place. -/
theorem view_of_not_blocked (h : DbInv db) (ht : db.txMgr.states t = some (.active p))
    (hfree : ¬ db.Blocked t key) : (db.entry t).view key = rowData (db.rows key) := by
  refine view_of_free h ht fun c hc => ?_
  obtain ⟨own, base, older, hk⟩ := h.key key
  obtain ⟨w, hw, -⟩ := h.known_of_mem hk (hk.row_mem hc)
  exact ⟨w, hw, Bool.eq_false_iff.mpr fun hcon => hfree ⟨c, w, hc, hw, hcon⟩⟩

omit [DecidableEq κ] in
/-- What is written over a row was not blocked by it. -/
theorem not_blocked_of_spec (db : Db κ δ) {op : Operation κ δ} {v : Tuple κ δ} {lsn : Nat}
    (hspec : WriteSpec db.txMgr t lsn key (db.rows key) op v) : ¬ db.Blocked t key := by
  rintro ⟨c, w, hc, hw, hcon⟩
  rcases hspec.replaces with ⟨hnone, -⟩ | ⟨c', w', hc', hw', hconflicts, -⟩
  · rw [hnone] at hc
    cases hc
  · obtain rfl := Option.some.inj (hc.symm.trans hc')
    obtain rfl := Option.some.inj (hw.symm.trans hw')
    rw [hcon] at hconflicts
    cases hconflicts

/-- What a write puts in place of a row is not of an unfinished abort, nor was the row. -/
theorem left_write (h : DbInv db) (ht : db.txMgr.states t = some (.active p))
    {op : Operation κ δ} {v : Tuple κ δ}
    (hspec : WriteSpec db.nextLsn.1.txMgr t db.nextLsn.2 key (db.rows key) op v) :
    (db.nextLsn.1.write db.nextLsn.2 key op v).left = db.left := by
  funext other
  by_cases hkey : other = key
  · subst hkey
    have hnone : db.left other = none := by
      by_contra hne
      exact not_blocked_of_spec db.nextLsn.1 hspec
        ((conflict_iff h.nextLsn ht).mp (Or.inr (Or.inl hne)))
    rw [hnone]
    refine left_eq_none (c := v) (w := t) (Function.update_self ..) hspec.txnId ?_
    show db.txMgr.states t ≠ _
    simp [ht]
  · exact left_congr (Function.update_of_ne hkey _ _) fun c w _ _ => Iff.rfl

/-- A write of an open transaction, as one of the store of snapshots. -/
theorem write_refines (h : DbInv db) (ht : db.txMgr.states t = some (.active p))
    (hw : a.writer = some t) : db.snapshots.Step a (db.step a).snapshots := by
  have hu : a.under = some t := by
    cases a with
    | insert | update | remove => exact hw
    | _ => cases hw
  have hcommit : ∀ u, a ≠ .commit u := by
    rintro u rfl
    cases hw
  have hentry : (db.entry t).policy = p := conflictPolicy_eq ht
  have hplace := inPlace_row h
  obtain ⟨key, data, hput, hcase⟩ := write_case h ht hw
  cases hcase with
  | refused hins hother heq =>
    have hsame : (db.step a).snapshots = db.snapshots := by
      rw [heq]
      rfl
    rw [hsame]
    refine .refuse (opened_eq ht) hw hput (fun hinsert => ?_) fun hinsert => ?_
    · obtain ⟨d, hd⟩ := Option.ne_none_iff_exists'.mp (hins hinsert)
      exact ⟨d, hd ▸ hplace key⟩
    · obtain ⟨hfree, hnone⟩ := hother hinsert
      rw [conflict_iff h ht, view_of_not_blocked h ht hfree]
      exact ⟨hfree, hnone⟩
  | conflict hblocked hins heq =>
    have hafter : (db.step a).snapshots =
        if (db.entry t).policy = .abortOnConflict then db.snapshots.close t
          else db.snapshots := by
      rw [hentry]
      by_cases hp : p = .abortOnConflict
      · rw [if_pos hp] at heq ⊢
        refine snapshots_step h hcommit hu ?_ ?_
        · rw [heq]
          exact opened_eq_none_iff.mpr (abort_ends _ t none)
        · rw [heq, (left_abort h.nextLsn ht none).2 rfl]
          rfl
      · rw [if_neg hp] at heq ⊢
        rw [heq]
        rfl
    rw [hafter]
    exact .conflict (opened_eq ht) hw hput ((conflict_iff h ht).mpr hblocked)
      fun hinsert => hins hinsert ▸ hplace key
  | written op v hspec hdata hfresh heq =>
    have hfree : ¬ db.Blocked t key := not_blocked_of_spec db.nextLsn.1 hspec
    obtain ⟨-, hown⟩ := view_write h ht hspec
    have hactive : (db.step a).txMgr.states t = some (.active p) := by
      rw [heq]
      exact ht
    have hlt : t < db.txMgr.clock := h.txn.idLt t (by rw [ht]; exact Option.some_ne_none _)
    have hopened : (db.step a).snapshots.opened t = some ((db.entry t).put key data) := by
      rw [opened_eq hactive, entry, conflictPolicy_eq hactive, funext (seenRow_step h a hlt),
        overtaken_step h hcommit, heq, hown, ← hdata, ← hentry]
      rfl
    have hleft : (db.step a).left = db.left := by
      rw [heq, left_write h ht hspec]
    rw [snapshots_step h hcommit hu hopened hleft]
    refine .write (opened_eq ht) hw hput ?_ ?_
    · rwa [conflict_iff h ht]
    · rwa [view_of_not_blocked h ht hfree]

/-- What a commit makes of the keys that another transaction has seen overtaken. -/
theorem overtaken_commit (h : DbInv db) (ht : db.txMgr.states t = some (.active p))
    (hu : u < db.txMgr.clock) (key : κ) :
    (db.commit t).1.overtaken u key ↔ db.overtaken u key ∨ db.ownWrite t key ≠ none := by
  have hseen : ∀ v : Tuple κ δ, SeenAt (commitTs (db.commit t).1.log) u v ↔
      SeenAt (commitTs db.log) u v := by
    intro v
    rcases commit_log_active h ht with hlog | ⟨hlog, -⟩
    · rw [hlog, commitTs_append_commit _ (h.txn.activeTs t p ht)]
      cases hv : v.txnId with
      | none => simp [SeenAt, hv]
      | some w =>
        rw [seenAt_iff hv, seenAt_iff hv]
        by_cases hwt : w = t
        · subst hwt
          simp [h.txn.activeTs w p ht]
          omega
        · rw [Function.update_of_ne hwt]
    · rw [hlog]
  unfold overtaken
  rcases commit_lastCommitted h ht key with ⟨v, hown, hvt, hlast, hts⟩ | ⟨hown, hlast⟩
  · refine iff_of_true ⟨v, hlast, fun hsee => ?_⟩ (Or.inr (by simp [hown]))
    obtain ⟨c, hc, hlt⟩ := (seenAt_iff hvt).mp hsee
    rw [hts] at hc
    cases hc
    omega
  · simp only [hlast, hseen, hown, ne_eq, not_true_eq_false, or_false]

/-- A commit, as one of the store of snapshots. -/
theorem commit_refines (h : DbInv db) (ht : db.txMgr.states t = some (.active p)) :
    db.snapshots.Step (.commit t) (db.step (.commit t)).snapshots := by
  have hopened : (db.step (.commit t)).snapshots.opened = fun u => if u = t then none
      else (db.snapshots.opened u).map (·.overtake (db.entry t).writes) := by
    funext u
    by_cases hut : u = t
    · rw [if_pos hut, hut]
      exact opened_eq_none_iff.mpr (commit_ends db t)
    · rw [if_neg hut]
      by_cases hactive : ∃ q, db.txMgr.states u = some (.active q)
      · obtain ⟨q, hq⟩ := hactive
        have hlt : u < db.txMgr.clock := h.txn.idLt u (by rw [hq]; exact Option.some_ne_none _)
        have hq' := step_keepsOthers h (.commit t) hq
          (by simp [Action.under, Ne.symm hut])
        have hentry : (db.step (.commit t)).entry u = (db.entry u).overtake (db.ownWrite t) := by
          rw [entry, conflictPolicy_eq hq', funext (seenRow_step h (.commit t) hlt),
            funext (ownWrite_step h (.commit t) (by simp [Action.writer])),
            show (db.step (.commit t)).overtaken u = _ from
              funext fun key => propext (overtaken_commit h ht hlt key), ← conflictPolicy_eq hq]
          rfl
        rw [opened_eq hq, opened_eq hq', hentry]
        rfl
      · rw [opened_eq_none_iff.mpr fun q hq => hactive ⟨q, hq⟩, Option.map_none,
          opened_eq_none_iff]
        exact fun q hq => hactive ⟨q, step_reader h (by simp) hq⟩
  have hafter : (db.step (.commit t)).snapshots =
      ⟨overlay (db.entry t).writes db.committedRow, (db.step (.commit t)).snapshots.opened,
        db.left⟩ := by
    rw [← left_step h (a := .commit t) rfl (by simp) (by simp)]
    exact congrArg (Snapshots.mk · _ _) (commit_committedRow h ht)
  rw [hafter, hopened]
  exact .commit (opened_eq ht)

/-- A begin, as one of the store of snapshots. -/
theorem begin_refines (h : DbInv db) (policy : ConflictPolicy) :
    db.snapshots.Step (.begin policy) (db.step (.begin policy)).snapshots := by
  obtain ⟨hseen, hown⟩ := begin_view h policy
  have hbegun : (db.step (.begin policy)).txMgr.states db.txMgr.clock =
      some (.active policy) := by
    simp [step, begin, TransactionManager.createTransaction]
  have hnew : (db.step (.begin policy)).overtaken db.txMgr.clock = fun _ => False := by
    rw [overtaken_step h (by simp)]
    funext key
    refine propext (iff_false_intro ?_)
    rintro ⟨v, hlast, hsee⟩
    have hmem := List.mem_of_getLast? hlast
    rw [← snapshotVersions_begin h key] at hmem
    exact hsee (of_decide_eq_true (List.mem_filter.mp hmem).2)
  have hopened : (db.step (.begin policy)).snapshots.opened = Function.update db.snapshots.opened
      db.txMgr.clock (some ⟨policy, db.committedRow, fun _ => none, fun _ => False⟩) := by
    funext t
    by_cases ht : t = db.txMgr.clock
    · rw [ht, Function.update_self, opened_eq hbegun, entry, conflictPolicy_eq hbegun, hnew]
      exact congrArg some (congrArg₂ (Opened.mk policy · · _) hseen hown)
    · rw [Function.update_of_ne ht]
      exact opened_step h (by simp) (by simp [Action.under]) fun _ => ht
  have hafter : (db.step (.begin policy)).snapshots =
      ⟨db.committedRow, (db.step (.begin policy)).snapshots.opened, db.left⟩ := by
    rw [← left_step h (a := .begin policy) rfl (by simp) (by simp),
      ← funext (committedRow_step h (.begin policy) (by simp))]
    rfl
  rw [hafter, hopened]
  refine .begin (opened_eq_none_iff.mpr fun p hp => ?_)
  rw [h.txn.fresh_state] at hp
  cases hp

/-- A call of a transaction that is not open leaves the store. -/
theorem step_ended (hu : a.under = some t) (hended : Ended db.txMgr t) : db.step a = db := by
  have hreq : db.requireActive t = .error .transactionAlreadyFinished := if_neg fun hactive =>
    ((db.txMgr.isTransactionActive_iff t).mp hactive).elim hended
  cases a with
  | insert | update | remove | commit =>
    obtain rfl := Option.some.inj hu
    simp only [step, insert, update, remove, commit, hreq]
  | abort txn failsAfter =>
    obtain rfl := Option.some.inj hu
    exact abort_of_not_active hended failsAfter
  | _ => cases hu

/-- An action under no transaction, other than a begin, leaves the open transactions and what is
committed. -/
theorem upkeep_eq (h : DbInv db) (ha : ∀ policy, a ≠ .begin policy) (hu : a.under = none) :
    (db.step a).snapshots =
      ⟨db.committedRow, db.snapshots.opened, (db.step a).left⟩ := by
  have hcommit : ∀ t, a ≠ .commit t := by
    rintro t rfl
    cases hu
  have hopened : (db.step a).snapshots.opened = db.snapshots.opened := funext fun t =>
    opened_step h hcommit (by simp [hu]) fun hbegin =>
      hbegin.elim fun policy heq => absurd heq (ha policy)
  rw [← hopened, ← funext (committedRow_step h a hcommit)]
  rfl

/-- Each action on the store is one on the store of snapshots. -/
theorem step_refines (h : DbInv db) (a : Action κ δ) :
    db.snapshots.Step a (db.step a).snapshots := by
  cases hu : a.under with
  | none =>
    have hsame : a.writer = none → (∀ policy, a ≠ .begin policy) → (∀ t f, a ≠ .abort t f) →
        (∀ t f, a ≠ .retryAbort t f) → db.snapshots.Step a (db.step a).snapshots := by
      intro hwriter hbegin habort hretry
      rw [upkeep_eq h hbegin hu, left_step h hwriter habort hretry]
      exact .stay hbegin hretry (by simp [hu])
    cases a with
    | begin policy => exact begin_refines h policy
    | retryAbort t f =>
      rw [upkeep_eq h (by simp) hu]
      exact .retry (left_retryAbort h t f).1 (left_retryAbort h t f).2
    | pruneCommitted | vacuum | purge => exact hsame rfl (by simp) (by simp) (by simp)
    | _ => cases hu
  | some t =>
    by_cases hactive : ∃ p, db.txMgr.states t = some (.active p)
    · obtain ⟨p, ht⟩ := hactive
      cases a with
      | insert | update | remove => exact write_refines h ht hu
      | commit txn =>
        obtain rfl := Option.some.inj hu
        exact commit_refines h ht
      | abort txn f =>
        obtain rfl := Option.some.inj hu
        rw [snapshots_step h (by simp) hu (opened_eq_none_iff.mpr (abort_ends db txn f)) rfl]
        exact .abort (opened_eq ht) (left_abort h ht f).1 (left_abort h ht f).2
      | _ => cases hu
    · have hended : Ended db.txMgr t := fun p hp => hactive ⟨p, hp⟩
      rw [step_ended hu hended]
      refine .stay ?_ ?_ fun t' hu' => ?_
      · rintro policy rfl
        cases hu
      · rintro t' f rfl
        cases hu
      · obtain rfl := Option.some.inj (hu.symm.trans hu')
        exact opened_eq_none_iff.mpr hended

end Db

end SquealDb.Store
