import SquealDb.Doc.Client

/-!
# Operations that fail

An operation that fails once it is in a transaction takes the transaction with it.  One that fails
before, because what it was given does not parse, and an aggregate that fails after its find, leave
their session's transaction open.
-/

namespace SquealDb.Doc

open Codec Lib Store

/-! ## What holds of a client -/

/-- The store has what the ledger tells, each transaction sees the rows that it began with and its
own writes, and the counter counts the sessions that have a transaction. -/
structure AllOrNothing (c : Client) : Prop where
  committed : c.tracked.server.db.committedRow = c.tracked.ledger.committed
  seen : ∀ t session, c.tracked.server.sessions t = some session →
    c.tracked.server.db.view t =
      overlay (c.tracked.ledger.accounts t).pending (c.tracked.ledger.accounts t).begun
  counted : c.opened = c.slots.countP Option.isSome

/-- A transaction that a session has begun is open. -/
def Live (s : Sessions) (t : Nat) : Prop := (s.sessions t).any (·.explicit) = true

structure ClientInv (c : Client) : Prop where
  ledger : c.tracked.Inv
  unspoiled : Unspoiled c.tracked.server
  counted : c.opened = c.slots.countP Option.isSome
  live : ∀ i t, c.txn i = some t → Live c.tracked.server t
  apart : ∀ i j t, c.txn i = some t → c.txn j = some t → i = j

variable {indexes : List Index} {env : ClientSetting}

variable {c : Client} {slots : List (Option Nat)} {e : ClientEvent env}

theorem ClientInv.allOrNothing (h : ClientInv c) : AllOrNothing c where
  committed := h.ledger.committed
  seen t session hs := by
    have hfollows := h.ledger.sessions t session hs
    rw [Db.view, hfollows.pending (h.unspoiled t session hs), hfollows.begun]
  counted := h.counted

/-! ## Sessions that go on -/

theorem live_iff {s : Sessions} {t : Nat} :
    Live s t ↔ ∃ session, s.sessions t = some session ∧ session.explicit = true := by
  rw [Live, Option.any_eq_true]

/-- The transaction that begins next has none of the numbers in use. -/
theorem Live.ne_begin {t : Tracked Place Value Empty OpError} (h : t.Inv) {txn : Nat}
    (hlive : Live t.server txn) : txn ≠ (t.server.db.begin .continueOnConflict).2 := by
  obtain ⟨session, hs, -⟩ := live_iff.mp hlive
  have hactive := (h.sessions txn session hs).active
  have hlt : txn < t.server.db.txMgr.clock := by
    apply h.db.txn.idLt
    rw [hactive]
    exact Option.some_ne_none _
  exact Nat.ne_of_lt hlt

/-- What an event does to one session leaves the others. -/
theorem Live.update {s s' : Sessions} {txn t : Nat}
    {session : Option (Session Place Value Empty OpError)} (h : Live s txn)
    (hsessions : s'.sessions = Function.update s.sessions t session)
    (hself : txn = t → session.any (·.explicit) = true) : Live s' txn := by
  rw [Live, hsessions]
  by_cases ht : txn = t
  · rw [ht, Function.update_self]
    exact hself ht
  · rw [Function.update_of_ne ht]
    exact h

/-- A transaction goes on through every event that does not end it. -/
theorem Live.step {s : Sessions} {txn : Nat} (h : Live s txn)
    (lang : Language Place Value Empty OpError Work) (e : Event Place Value Work)
    (hfresh : txn ≠ (s.db.begin .continueOnConflict).2) (hcommit : e ≠ .commit txn)
    (hrollback : ∀ failsAfter, e ≠ .rollback txn failsAfter) : Live (s.step lang e) txn := by
  cases e with
  | begin => exact h.update rfl fun heq => absurd heq hfresh
  | autocommit work => exact h.update rfl fun heq => absurd heq hfresh
  | start t work =>
    simp only [Server.step]
    cases hidle : s.idle t with
    | none => exact h
    | some session =>
      refine h.update rfl fun _ => ?_
      exact (Tracked.idle_eq_some hidle).2.1
  | call t rows failsAfter =>
    simp only [Server.step]
    cases hs : s.sessions t with
    | none => exact h
    | some session =>
      have hexplicit : txn = t → session.explicit = true := by
        rintro rfl
        rw [Live, hs] at h
        exact h
      have hkept : ∀ s' running wrote spoiled,
          s'.sessions = Function.update s.sessions t
            (some ⟨session.explicit, running, wrote, spoiled⟩) → Live s' txn :=
        fun s' running wrote spoiled hsessions => h.update hsessions hexplicit
      dsimp only
      cases hrunning : session.running with
      | none => exact h
      | some script =>
        cases script with
        | done r =>
          simp only [Server.finish]
          split
          · exact hkept _ _ _ _ rfl
          · exact hkept _ _ _ _ rfl
          · next hno => exact h.update rfl fun heq => absurd (hexplicit heq) (by simp [hno])
          · next hno => exact h.update rfl fun heq => absurd (hexplicit heq) (by simp [hno])
        | find key next => exact hkept _ _ _ _ rfl
        | insert key data next => exact hkept _ _ _ _ rfl
        | update key data next => exact hkept _ _ _ _ rfl
        | remove key next => exact hkept _ _ _ _ rfl
        | genKey name next => exact hkept _ _ _ _ rfl
        | select on next => exact hkept _ _ _ _ rfl
  | commit t =>
    simp only [Server.step]
    cases hidle : s.idle t with
    | none => exact h
    | some session => exact h.update rfl fun heq => absurd (heq ▸ rfl) hcommit
  | rollback t failsAfter =>
    simp only [Server.step]
    cases hidle : s.idle t with
    | none => exact h
    | some session => exact h.update rfl fun heq => absurd (heq ▸ rfl) (hrollback failsAfter)
  | maintain upkeep => exact h

/-! ## Slots -/

private theorem join_set_self (slots : List (Option Nat)) (i : Nat) :
    (slots.set i none)[i]?.join = none := by
  rw [List.getElem?_set_self']
  cases slots[i]? <;> rfl

private theorem join_set_ne {i j : Nat} (h : i ≠ j) (slot : Option Nat) :
    (slots.set i slot)[j]?.join = slots[j]?.join := by
  rw [List.getElem?_set_ne h]

/-- One session fewer has a transaction. -/
private theorem countP_close {i t : Nat} (h : slots[i]?.join = some t) :
    (slots.set i none).countP Option.isSome = slots.countP Option.isSome - 1 := by
  rw [Option.join_eq_some_iff] at h
  obtain ⟨hi, hget⟩ := List.getElem?_eq_some_iff.mp h
  rw [List.countP_set hi, hget]
  rfl

/-- One more. -/
private theorem countP_open {i : Nat} (h : slots[i]? = some none) (t : Nat) :
    (slots.set i (some t)).countP Option.isSome = slots.countP Option.isSome + 1 := by
  obtain ⟨hi, hget⟩ := List.getElem?_eq_some_iff.mp h
  rw [List.countP_set hi, hget]
  rfl

namespace ClientInv

variable {c : Client} {tracked : Tracked Place Value Empty OpError}

/-- The store goes on, and each session keeps its transaction. -/
theorem store (h : ClientInv c) (hledger : tracked.Inv) (hunspoiled : Unspoiled tracked.server)
    (hlive : ∀ t, Live c.tracked.server t → Live tracked.server t) :
    ClientInv { c with tracked := tracked } where
  ledger := hledger
  unspoiled := hunspoiled
  counted := h.counted
  live i t ht := hlive t (h.live i t ht)
  apart := h.apart

/-- A session's transaction ends. -/
theorem close (h : ClientInv c) {i t : Nat} (ht : c.txn i = some t) (hledger : tracked.Inv)
    (hunspoiled : Unspoiled tracked.server)
    (hlive : ∀ t', t' ≠ t → Live c.tracked.server t' → Live tracked.server t') :
    ClientInv ⟨tracked, c.slots.set i none, c.opened - 1⟩ := by
  have hold : ∀ j t', (c.slots.set i none)[j]?.join = some t' → j ≠ i ∧ c.txn j = some t' := by
    intro j t' hj
    have hne : j ≠ i := by
      rintro rfl
      rw [join_set_self] at hj
      cases hj
    exact ⟨hne, (join_set_ne hne.symm none).symm.trans hj⟩
  constructor
  · exact hledger
  · exact hunspoiled
  · rw [countP_close ht, h.counted]
  · intro j t' hj
    obtain ⟨hne, hj⟩ := hold j t' hj
    refine hlive t' ?_ (h.live j t' hj)
    rintro rfl
    exact hne (h.apart j i t' hj ht)
  · intro j k t' hj hk
    exact h.apart j k t' (hold j t' hj).2 (hold k t' hk).2

/-- A session begins a transaction. -/
theorem start (h : ClientInv c) {i : Nat} (hi : c.slots[i]? = some none) :
    ClientInv ⟨Client.store indexes c.tracked .begin,
      c.slots.set i (some (c.tracked.server.db.begin .continueOnConflict).2), c.opened + 1⟩ := by
  generalize hnew : (c.tracked.server.db.begin .continueOnConflict).2 = new
  have hold : ∀ j t, (c.slots.set i (some new))[j]?.join = some t →
      j = i ∧ t = new ∨ j ≠ i ∧ c.txn j = some t := by
    intro j t hj
    by_cases hne : j = i
    · subst hne
      rw [List.getElem?_set_self', hi] at hj
      exact .inl ⟨rfl, (Option.some.inj hj).symm⟩
    · exact .inr ⟨hne, (join_set_ne (Ne.symm hne) _).symm.trans hj⟩
  have hfresh : ∀ t, Live c.tracked.server t → t ≠ new := fun t ht =>
    hnew ▸ ht.ne_begin h.ledger
  constructor
  · exact Tracked.inv_step _ _ h.ledger trivial
  · show Unspoiled (c.tracked.server.step (Work.language indexes) .begin)
    exact h.unspoiled.step .begin fun _ _ _ => nofun
  · rw [countP_open hi, h.counted]
  · intro j t hj
    rcases hold j t hj with ⟨-, rfl⟩ | ⟨-, hj⟩
    · refine live_iff.mpr ⟨⟨true, none, false, false⟩, ?_, rfl⟩
      rw [← hnew]
      exact Function.update_self ..
    · have hlive := h.live j t hj
      exact hlive.step (Work.language indexes) .begin (hlive.ne_begin h.ledger) nofun nofun
  · intro j k t hj hk
    rcases hold j t hj with ⟨rfl, rfl⟩ | ⟨-, hj'⟩
    · rcases hold k t hk with ⟨rfl, -⟩ | ⟨-, hk'⟩
      · rfl
      · exact absurd rfl (hfresh t (h.live k t hk'))
    · rcases hold k t hk with ⟨rfl, rfl⟩ | ⟨-, hk'⟩
      · exact absurd rfl (hfresh t (h.live j t hj'))
      · exact h.apart j k t hj' hk'

/-- A transaction that no statement failed in may go on, and commit. -/
theorem goesOn (h : ClientInv c) (e : Event Place Value Work) : c.tracked.GoesOn e := by
  cases e with
  | start txn work => exact h.unspoiled.all txn
  | commit txn => exact h.unspoiled.all txn
  | begin => trivial
  | autocommit work => trivial
  | call txn rows failsAfter => trivial
  | rollback txn failsAfter => trivial
  | maintain upkeep => trivial

/-- An event that ends no session's transaction, and no statement that failed. -/
theorem event (h : ClientInv c) (e : Event Place Value Work)
    (hok : ∀ txn rows failsAfter, e = .call txn rows failsAfter →
      failed c.tracked.server txn = false)
    (hcommit : ∀ t, e ≠ .commit t) (hrollback : ∀ t failsAfter, e ≠ .rollback t failsAfter) :
    ClientInv { c with tracked := Client.store indexes c.tracked e } :=
  h.store (Tracked.inv_step _ e h.ledger (h.goesOn e)) (h.unspoiled.step e hok) fun t ht =>
    ht.step _ e (ht.ne_begin h.ledger) (hcommit t) (hrollback t)

/-- A transaction that is left open, with no session. -/
theorem abandoned (h : ClientInv c) (txn : Nat) :
    (abandon c.tracked txn).Inv ∧ Unspoiled (abandon c.tracked txn).server ∧
      ∀ t, t ≠ txn → Live c.tracked.server t → Live (abandon c.tracked txn).server t := by
  refine ⟨?_, unspoiled_update h.unspoiled nofun, ?_⟩
  · exact h.ledger.update h.ledger.db h.ledger.committed (fun _ _ => rfl)
      (fun _ _ ht => untouched_refl ht) nofun
  · intro t ht hlive
    exact hlive.update rfl fun heq => absurd heq ht

/-- A session's transaction ends as it is taken. -/
theorem take (h : ClientInv c) (i : Nat)
    {f : Nat → Tracked Place Value Empty OpError → Tracked Place Value Empty OpError}
    (hf : ∀ t, (f t c.tracked).Inv ∧ Unspoiled (f t c.tracked).server ∧
      ∀ t', t' ≠ t → Live c.tracked.server t' → Live (f t c.tracked).server t') :
    ClientInv (c.take i f) := by
  simp only [Client.take]
  cases ht : c.txn i with
  | none => exact h
  | some t =>
    dsimp only
    cases c.tracked.server.idle t with
    | none => exact h
    | some session => exact h.close ht (hf t).1 (hf t).2.1 (hf t).2.2

/-- An event that may end one transaction. -/
theorem ending (h : ClientInv c) {e : Event Place Value Work} {txn : Nat}
    (hcall : ∀ t rows failsAfter, e ≠ .call t rows failsAfter)
    (hcommit : ∀ t, e = .commit t → t = txn)
    (hrollback : ∀ t failsAfter, e = .rollback t failsAfter → t = txn) :
    (Client.store indexes c.tracked e).Inv ∧
      Unspoiled (Client.store indexes c.tracked e).server ∧
      ∀ t, t ≠ txn → Live c.tracked.server t →
        Live (Client.store indexes c.tracked e).server t := by
  refine ⟨Tracked.inv_step _ e h.ledger (h.goesOn e), ?_, ?_⟩
  · exact h.unspoiled.step e fun t rows failsAfter heq => absurd heq (hcall t rows failsAfter)
  · intro t ht hlive
    refine hlive.step _ e (hlive.ne_begin h.ledger) ?_ ?_
    · exact fun heq => ht (hcommit t heq)
    · exact fun failsAfter heq => ht (hrollback t failsAfter heq)

theorem rolledBack (h : ClientInv c) (i : Nat) (failsAfter : Option Nat) :
    ClientInv
      (c.take i fun t tracked => Client.store indexes tracked (.rollback t failsAfter)) := by
  refine h.take i fun t => ?_
  refine h.ending (e := .rollback t failsAfter) (fun _ _ _ => nofun) (fun _ => nofun) ?_
  exact fun _ _ heq => (Event.rollback.inj heq).1.symm

/-- An operation goes on in its session's transaction. -/
theorem proceed (h : ClientInv c) (i : Nat) (rows : List (Place × Value))
    (failsAfter : Option Nat) : ClientInv (c.proceed indexes i rows failsAfter) := by
  simp only [Client.proceed]
  cases ht : c.txn i with
  | none => exact h
  | some t =>
    dsimp only
    have hcall : (Client.store indexes c.tracked (.call t rows failsAfter)).Inv :=
      Tracked.inv_step _ _ h.ledger trivial
    by_cases hfailed : failed c.tracked.server t = true
    · rw [if_pos hfailed]
      refine h.close ht (Tracked.inv_step _ _ hcall trivial)
        (h.unspoiled.rolledBack hfailed rows failsAfter) fun t' ht' hlive => ?_
      have hlive' : Live (Client.store indexes c.tracked (.call t rows failsAfter)).server t' :=
        hlive.step _ (.call t rows failsAfter) (hlive.ne_begin h.ledger) nofun fun _ => nofun
      refine hlive'.step (Work.language indexes) (.rollback t failsAfter) (hlive'.ne_begin hcall)
        nofun ?_
      intro failsAfter' heq
      cases heq
      exact ht' rfl
    · rw [if_neg hfailed]
      refine h.event (.call t rows failsAfter) ?_ (fun _ => nofun) fun _ _ => nofun
      rintro t' rows' failsAfter' heq
      cases heq
      exact Bool.eq_false_iff.mpr hfailed

/-- And in a transaction of its own. -/
theorem proceedAlone (h : ClientInv c) (txn : Nat) (rows : List (Place × Value))
    (failsAfter : Option Nat) (commitFails : Bool) :
    ClientInv (c.proceedAlone indexes txn rows failsAfter commitFails) := by
  simp only [Client.proceedAlone]
  split
  · next running wrote spoiled hs =>
      split
      · obtain ⟨hinv, hunspoiled, hothers⟩ := h.abandoned txn
        refine h.store hinv hunspoiled fun t hlive => hothers t ?_ hlive
        rintro rfl
        rw [Live, hs] at hlive
        cases hlive
      · refine h.event (.call txn rows failsAfter) ?_ (fun _ => nofun) fun _ _ => nofun
        rintro t rows' failsAfter' heq
        cases heq
        rw [failed, hs]
  · exact h

theorem step (h : ClientInv c) (e : ClientEvent env) : ClientInv (c.step indexes e) := by
  cases e with
  | startSession =>
    have hsame : ∀ i t, (c.slots ++ [none])[i]?.join = some t → c.txn i = some t := by
      intro i t hi
      rw [List.getElem?_append] at hi
      split at hi
      · exact hi
      · rw [Option.join_eq_some_iff, List.getElem?_eq_some_iff] at hi
        obtain ⟨hlt, hget⟩ := hi
        rw [List.getElem_singleton] at hget
        cases hget
    refine ⟨h.ledger, h.unspoiled, ?_, ?_, ?_⟩
    · show c.opened = (c.slots ++ [none]).countP Option.isSome
      rw [List.countP_append, h.counted]
      rfl
    · exact fun i t hi => h.live i t (hsame i t hi)
    · exact fun i j t hi hj => h.apart i j t (hsame i t hi) (hsame j t hj)
  | startTransaction session =>
    simp only [Client.step]
    split
    · next hi => exact h.start hi
    · exact h
  | commitTransaction session fails =>
    show ClientInv (c.take session fun t tracked =>
      if fails then abandon tracked t else Client.store indexes tracked (.commit t))
    refine h.take session fun t => ?_
    cases fails with
    | true => exact h.abandoned t
    | false =>
      refine h.ending (e := .commit t) (fun _ _ _ => nofun) ?_ fun _ _ => nofun
      exact fun _ heq => (Event.commit.inj heq).symm
  | abortTransaction session failsAfter => exact h.rolledBack session failsAfter
  | endSession session failsAfter => exact h.rolledBack session failsAfter
  | operation on op =>
    simp only [Client.step]
    split
    · exact h
    · split
      · exact h.event _ (fun _ _ _ => nofun) (fun _ => nofun) fun _ _ => nofun
      · exact h.event _ (fun _ _ _ => nofun) (fun _ => nofun) fun _ _ => nofun
  | proceed session rows failsAfter => exact h.proceed session rows failsAfter
  | proceedAlone txn rows failsAfter commitFails =>
    exact h.proceedAlone txn rows failsAfter commitFails
  | lastStages on stages docs => exact h
  | maintain upkeep =>
    exact h.event (.maintain upkeep) (fun _ _ _ => nofun) (fun _ => nofun) fun _ _ => nofun

end ClientInv

/-! ## What is committed -/

/-- Whether an event commits a transaction. -/
def Client.commits (c : Client) : ClientEvent env → Bool
  | .commitTransaction _ fails => !fails
  | .proceedAlone txn _ _ commitFails =>
    !commitFails && (outcome c.tracked.server txn).any fun r => r.toOption.isSome
  | _ => false

/-- The ledger of a call, unless that ends an operation with a transaction of its own. -/
theorem call_ledger {t : Tracked Place Value Empty OpError} {txn : Nat}
    (h : (outcome t.server txn).all (fun r => !r.toOption.isSome) = true)
    (rows : List (Place × Value)) (failsAfter : Option Nat) :
    (Client.store indexes t (.call txn rows failsAfter)).ledger.committed = t.ledger.committed := by
  simp only [Client.store, Tracked.step, Ledger.step]
  cases hs : t.server.sessions txn with
  | none => rfl
  | some session =>
    obtain ⟨explicit, running, wrote, spoiled⟩ := session
    cases running with
    | none => rfl
    | some script =>
      cases script with
      | done r =>
        cases r with
        | error e => rfl
        | ok u =>
          cases explicit with
          | true => rfl
          | false =>
            rw [outcome, hs] at h
            cases h
      | find key next => dsimp only; split <;> rfl
      | insert key data next => dsimp only; split <;> rfl
      | update key data next => dsimp only; split <;> rfl
      | remove key next => dsimp only; split <;> rfl
      | genKey name next => cases name
      | select on next => rfl

/-- No event but a commit changes the ledger of what is committed. -/
theorem step_ledger (h : ClientInv c) (he : c.commits e = false) :
    (c.step indexes e).tracked.ledger.committed = c.tracked.ledger.committed := by
  have htake :
    ∀ i (f : Nat → Tracked Place Value Empty OpError → Tracked Place Value Empty OpError),
      (∀ t, (f t c.tracked).ledger.committed = c.tracked.ledger.committed) →
      (c.take i f).tracked.ledger.committed = c.tracked.ledger.committed := by
    intro i f hf
    simp only [Client.take]
    split
    · rfl
    · split
      · rfl
      · exact hf _
  cases e with
  | startSession => rfl
  | startTransaction session =>
    simp only [Client.step]
    split <;> rfl
  | commitTransaction session fails =>
    have hfails : fails = true := by simpa [Client.commits] using he
    subst hfails
    exact htake session _ fun t => rfl
  | abortTransaction session failsAfter => exact htake session _ fun t => rfl
  | endSession session failsAfter => exact htake session _ fun t => rfl
  | operation on op =>
    simp only [Client.step]
    split
    · rfl
    · split <;> rfl
  | proceed session rows failsAfter =>
    simp only [Client.step, Client.proceed]
    cases ht : c.txn session with
    | none => rfl
    | some t =>
      have hcall : (Client.store indexes c.tracked (.call t rows failsAfter)).ledger.committed =
          c.tracked.ledger.committed := by
        refine call_ledger ?_ rows failsAfter
        obtain ⟨ss, hs, hexplicit⟩ := live_iff.mp (h.live session t ht)
        obtain ⟨explicit, running, wrote, spoiled⟩ := ss
        cases hexplicit
        rw [outcome, hs]
        rfl
      dsimp only
      split
      · exact hcall
      · exact hcall
  | proceedAlone txn rows failsAfter commitFails =>
    simp only [Client.step, Client.proceedAlone]
    split
    · cases hout : outcome c.tracked.server txn with
      | none => exact call_ledger (by rw [hout]; rfl) rows failsAfter
      | some r =>
        cases r with
        | error e => exact call_ledger (by rw [hout]; rfl) rows failsAfter
        | ok u =>
          cases commitFails with
          | true => rfl
          | false =>
            rw [Client.commits, hout] at he
            cases he
    · rfl
  | lastStages on stages docs => rfl
  | maintain upkeep => rfl

/-! ## Operations that fail -/

/-- An operation that fails in this session leaves the documents and entries as they are, and the
session's transaction is over. -/
structure Exits (indexes : List Index) (c : Client) (e : ClientEvent env) (on : Option Nat) :
    Prop where
  rows : (c.step indexes e).tracked.server.db.committedRow = c.tracked.server.db.committedRow
  past : ∀ session, on = some session → (c.step indexes e).inTransaction session = false
  ended : ∀ session t, on = some session → c.txn session = some t →
    (c.step indexes e).tracked.server.sessions t = none

/-- What an operation of a session with an open transaction is given parses, and so do the options;
its collection can be made, and the last stages of an aggregate do not fail. -/
def Client.Spares (c : Client) : ClientEvent env → Prop
  | .operation (some session) op =>
    c.inTransaction session = true → ∃ work, op.prepare env = .ok work
  | .lastStages (some session) stages docs =>
    c.inTransaction session = true → ∃ result, Stage.runAll stages docs = .ok result
  | _ => True

/-- An operation that fails without a transaction. -/
theorem exits_outside {on : Option Nat} (hsame : c.step indexes e = c)
    (hout : ∀ session, on = some session → c.inTransaction session = false) :
    Exits indexes c e on where
  rows := by rw [hsame]
  past session hon := by
    rw [hsame]
    exact hout session hon
  ended session t hon ht := by
    have hnone := hout session hon
    rw [Client.inTransaction, ht] at hnone
    cases hnone

theorem ClientInv.exits (h : ClientInv c) (hok : c.Spares e) {on : Option Nat}
    (hfails : c.fails e = some on) :
    Exits indexes c e on := by
  have hrows : c.commits e = false →
      (c.step indexes e).tracked.server.db.committedRow =
        c.tracked.server.db.committedRow := by
    intro he
    rw [(h.step e).ledger.committed, step_ledger h he, ← h.ledger.committed]
  cases e with
  | operation on' op =>
    simp only [Client.fails] at hfails
    split at hfails
    · next err hprepare =>
        obtain rfl := Option.some.inj hfails
        refine exits_outside (by simp only [Client.step, hprepare]) fun session hon => ?_
        subst hon
        refine Bool.eq_false_iff.mpr fun htrue => ?_
        obtain ⟨work, hwork⟩ := hok htrue
        rw [hprepare] at hwork
        cases hwork
    · cases hfails
  | lastStages on' stages docs =>
    simp only [Client.fails] at hfails
    split at hfails
    · next err hrun =>
        obtain rfl := Option.some.inj hfails
        refine exits_outside rfl fun session hon => ?_
        subst hon
        refine Bool.eq_false_iff.mpr fun htrue => ?_
        obtain ⟨result, hresult⟩ := hok htrue
        rw [hrun] at hresult
        cases hresult
    · cases hfails
  | proceed session rows failsAfter =>
    simp only [Client.fails] at hfails
    split at hfails
    · next t ht =>
        split at hfails
        · next hfailed =>
            obtain rfl := Option.some.inj hfails
            have hstep : c.step indexes (.proceed session rows failsAfter : ClientEvent env) =
                ⟨Client.store indexes (Client.store indexes c.tracked (.call t rows failsAfter))
                  (.rollback t failsAfter), c.slots.set session none, c.opened - 1⟩ := by
              simp only [Client.step, Client.proceed, ht, if_pos hfailed]
            refine ⟨hrows rfl, ?_, ?_⟩
            · rintro _ ⟨⟩
              rw [hstep, Client.inTransaction, Client.txn, join_set_self]
              rfl
            · rintro _ t' ⟨⟩ ht'
              rw [ht] at ht'
              obtain rfl := Option.some.inj ht'
              rw [hstep]
              have hgone : (Client.store indexes (Client.store indexes c.tracked
                    (.call t rows failsAfter)) (.rollback t failsAfter)).server.sessions =
                  Function.update c.tracked.server.sessions t none :=
                rolledBack_sessions hfailed rows failsAfter
              exact (congrFun hgone t).trans (Function.update_self ..)
        · cases hfails
    · cases hfails
  | proceedAlone txn rows failsAfter commitFails =>
    have hon : on = none ∧
        c.commits (.proceedAlone txn rows failsAfter commitFails : ClientEvent env) = false := by
      simp only [Client.fails] at hfails
      simp only [Client.commits]
      split at hfails
      · next e hout => exact ⟨(Option.some.inj hfails).symm, by simp [hout, Except.toOption]⟩
      · split at hfails
        · next hfail => exact ⟨(Option.some.inj hfails).symm, by simp [hfail]⟩
        · cases hfails
      · cases hfails
    obtain ⟨rfl, hno⟩ := hon
    exact ⟨hrows hno, (by intros; contradiction), (by intros; contradiction)⟩
  | startSession => cases hfails
  | startTransaction session => cases hfails
  | commitTransaction session fails => cases hfails
  | abortTransaction session failsAfter => cases hfails
  | endSession session failsAfter => cases hfails
  | maintain upkeep => cases hfails

/-- Where an operation that fails ends its session's transaction, nothing it was given failed
before. -/
theorem spares_of_exits (h : ∀ on, c.fails e = some on → Exits indexes c e on) : c.Spares e := by
  cases e with
  | operation on op =>
    cases on with
    | none => trivial
    | some session =>
      intro hopen
      cases hprepare : op.prepare env with
      | ok work => exact ⟨work, rfl⟩
      | error err =>
        have hexits := (h (some session) (by simp only [Client.fails, hprepare])).past session rfl
        simp only [Client.step, hprepare] at hexits
        rw [hopen] at hexits
        cases hexits
  | lastStages on stages docs =>
    cases on with
    | none => trivial
    | some session =>
      intro hopen
      cases hrun : Stage.runAll stages docs with
      | ok result => exact ⟨result, rfl⟩
      | error err =>
        have hexits := (h (some session) (by simp only [Client.fails, hrun])).past session rfl
        exact absurd (hexits.symm.trans hopen) nofun
  | proceed session rows failsAfter => trivial
  | proceedAlone txn rows failsAfter commitFails => trivial
  | startSession => trivial
  | startTransaction session => trivial
  | commitTransaction session fails => trivial
  | abortTransaction session failsAfter => trivial
  | endSession session failsAfter => trivial
  | maintain upkeep => trivial

/-- In every run the store has what successful operations and commits wrote, whoever looks at it,
and the counter is right; and whatever fails at an event leaves nothing and ends its session's
transaction, if and only if it was in that already. -/
theorem failed_operation_leaves_nothing {db : Db Place Value} (hdb : Db.Reachable db) {c : Client}
    (h : Reachable (fun c (e : ClientEvent env) => c.step indexes e) (fun _ _ => True)
      (Client.new db) c) :
    AllOrNothing c ∧
      (∀ e : ClientEvent env, c.commits e = false →
        (c.step indexes e).tracked.server.db.committedRow =
          c.tracked.server.db.committedRow) ∧
      ∀ e : ClientEvent env,
        (∀ on, c.fails e = some on → Exits indexes c e on) ↔ c.Spares e := by
  have hinit : ClientInv (Client.new db) := by
    refine ⟨Tracked.inv_opening (Db.inv_of_reachable hdb) _, fun _ _ => nofun, rfl, ?_, ?_⟩
    · exact fun _ _ => nofun
    · exact fun _ _ _ => nofun
  have hinv : ClientInv c := h.invariant hinit fun c e hc _ => hc.step e
  refine ⟨hinv.allOrNothing, fun e he => ?_, fun e => ⟨spares_of_exits, ?_⟩⟩
  · rw [(hinv.step e).ledger.committed, step_ledger hinv he, ← hinv.ledger.committed]
  · exact fun hok on hfails => hinv.exits hok hfails

/-! ## Two failures -/

/-- No stages but those that a find can take. -/
def plainClient : ClientSetting where
  toSetting := plainSetting
  Other := Empty
  parseOther name _ := .error (.badValue ("unknown pipeline stage " ++ name))
  runOther := nofun

/-- A run over an empty collection. -/
def plainRun (events : List (ClientEvent plainClient)) : Client :=
  run (fun c e => c.step [] e) (Client.new Db.new) events

theorem plainRun_reachable (events : List (ClientEvent plainClient)) :
    Reachable (fun c (e : ClientEvent plainClient) => c.step [] e) (fun _ _ => True)
      (Client.new Db.new) (plainRun events) := by
  refine reachable_run events ?_
  generalize Client.new Db.new = c
  induction events generalizing c with
  | nil => trivial
  | cons e rest ih => exact ⟨trivial, ih _⟩

/-- A session's transaction inserts a document, and the same one again. -/
def insertsTwice : List (ClientEvent plainClient) :=
  [.startSession, .startTransaction 0,
    .operation (some 0) (.write (.insertMany [(oneDoc, someObjectId)]) (.ok ⟨⟩)),
    .proceed 0 [] none, .proceed 0 [] none,
    .operation (some 0) (.write (.insertMany [(oneDoc, someObjectId)]) (.ok ⟨⟩)),
    .proceed 0 [] none]

/-- The second insert fails on its duplicate key. -/
theorem failed_operation_leaves_nothing_duplicate :
    (plainRun insertsTwice).fails (.proceed 0 [] none : ClientEvent plainClient) =
        some (some 0) ∧
      Exits [] (plainRun insertsTwice) (.proceed 0 [] none : ClientEvent plainClient)
        (some 0) := by
  have hfails : (plainRun insertsTwice).fails (.proceed 0 [] none : ClientEvent plainClient) =
      some (some 0) := by decide +kernel
  have hall := failed_operation_leaves_nothing .init (plainRun_reachable insertsTwice)
  exact ⟨hfails, (hall.2.2 (.proceed 0 [] none)).mpr trivial (some 0) hfails⟩

/-- A delete whose filter does not parse. -/
def badDelete : ClientEvent plainClient :=
  .operation (some 0) (.write (.delete [("$bogus", .bool true)]) (.ok ⟨⟩))

/-- It returns an error, and the transaction that it was called in goes on. -/
theorem bad_filter_leaves_transaction_open :
    ∃ c, Reachable (fun c (e : ClientEvent plainClient) => c.step [] e) (fun _ _ => True)
        (Client.new Db.new) c ∧
      c.fails badDelete = some (some 0) ∧ (c.step [] badDelete).inTransaction 0 = true ∧
      ¬ Exits [] c badDelete (some 0) := by
  have hopen : ((plainRun [.startSession, .startTransaction 0]).step [] badDelete).inTransaction 0 =
      true := by decide +kernel
  refine ⟨_, plainRun_reachable [.startSession, .startTransaction 0], by decide +kernel, hopen,
    fun h => ?_⟩
  have hover := h.past 0 rfl
  rw [hopen] at hover
  cases hover

end SquealDb.Doc
