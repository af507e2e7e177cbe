import SquealDb.Store.Calls
import SquealDb.Store.Server

/-!
# The transactions of connections

`use_database`, `create_database`, `begin_transaction`, `commit_transaction` and
`rollback_transaction` of `conn/connection.rs`, and the statements that call them, of any
number of connections to any number of databases.  A connection keeps the database it points
at apart from its open transaction, and a store's ids are numbers that another store may
have given out as well.

Each call of a store is one step.  A statement outside an explicit transaction runs in one of
its own, which ends with it.
-/

namespace SquealDb.Conn.Transactions

open Store

variable {N C : Type*} {κ δ : Type}

/-- A store's `Transaction`: its id, and the database that aborts it when it is dropped. -/
structure Guard (N : Type*) where
  sink : N
  id : Nat
  deriving DecidableEq

/-- A connection, as far as its transactions go. -/
structure Connection (N : Type*) where
  database : N
  currentTxn : Option (Guard N)
  /-- The transaction of the statement that is running, if it has one of its own. -/
  statementTxn : Option (Guard N)

/-- A write of one row. -/
inductive Write (κ δ : Type) where
  | insert (tuple : Tuple κ δ)
  | update (tuple : Tuple κ δ)
  | remove (key : κ)

/-- As an action of the store. -/
def Write.action (txn : Nat) : Write κ δ → Action κ δ
  | insert tuple => .insert txn tuple
  | update tuple => .update txn tuple
  | remove key => .remove txn key

/-- What becomes of a commit that the store is asked for: its record is queued, or the store
is degraded and refuses it, or the record cannot be queued. -/
inductive Fate where
  | queued
  | refused
  | unqueued
  deriving DecidableEq

/-- What a connection's statement does next, or a store's maintenance. -/
inductive Event (N C : Type*) (κ δ : Type) where
  | begin (c : C)
  | startStatement (c : C)
  | write (c : C) (w : Write κ δ)
  | find (c : C) (key : κ)
  | endStatement (c : C) (fate : Fate)
  | failStatement (c : C) (failsAfter : Option Nat)
  | commit (c : C) (fate : Fate)
  | rollback (c : C) (failsAfter : Option Nat)
  | useDatabase (c : C) (name : N)
  | createDatabase (c : C) (name : N) (ifNotExists : Bool)
  | upkeep (name : N) (job : Upkeep)
  /-- `enforce_snapshot_limits` aborts the oldest transaction. -/
  | enforceLimits (name : N) (txn : Nat) (failsAfter : Option Nat)

/-- The connection whose statement it is. -/
def Event.connection : Event N C κ δ → Option C
  | begin c | startStatement c | write c _ | find c _ | endStatement c _ | failStatement c _
  | commit c _ | rollback c _ | useDatabase c _ | createDatabase c _ _ => some c
  | upkeep _ _ | enforceLimits _ _ _ => none

/-- The databases that exist, and the connections. -/
structure State (N C : Type*) (κ δ : Type) where
  databases : N → Option (Db κ δ)
  conns : C → Connection N
  /-- Whose statement has begun a transaction.  No step reads this. -/
  begunBy : N → Nat → Option C

namespace State

/-- One database, at which every connection points. -/
def new [DecidableEq N] (name : N) : State N C κ δ where
  databases := Function.update (fun _ => none) name (some Db.new)
  conns := fun _ => ⟨name, none, none⟩
  begunBy := fun _ _ => none

variable [DecidableEq N] [DecidableEq C] [DecidableEq κ]

/-- The call of a store that an event makes, and on which database. -/
def call (s : State N C κ δ) : Event N C κ δ → Option (N × Action κ δ)
  | .begin c | .startStatement c =>
    let conn := s.conns c
    if conn.currentTxn = none ∧ conn.statementTxn = none then
      some (conn.database, .begin .continueOnConflict)
    else none
  | .write c w =>
    let conn := s.conns c
    (conn.statementTxn.or conn.currentTxn).map fun txn => (conn.database, w.action txn.id)
  | .endStatement c fate =>
    let conn := s.conns c
    if fate = .queued then conn.statementTxn.map fun txn => (conn.database, .commit txn.id)
    else none
  | .failStatement c failsAfter =>
    let conn := s.conns c
    conn.statementTxn.map fun txn => (conn.database, .abort txn.id failsAfter)
  | .commit c fate =>
    let conn := s.conns c
    if conn.statementTxn = none ∧ fate = .queued then
      conn.currentTxn.map fun txn => (conn.database, .commit txn.id)
    else none
  | .rollback c failsAfter =>
    let conn := s.conns c
    if conn.statementTxn = none then
      conn.currentTxn.map fun txn => (conn.database, .abort txn.id failsAfter)
    else none
  | .find _ _ | .useDatabase _ _ | .createDatabase _ _ _ => none
  | .upkeep name job => some (name, job.action)
  | .enforceLimits name txn failsAfter => some (name, .abort txn failsAfter)

/-- The databases after a call. -/
def perform (s : State N C κ δ) : Option (N × Action κ δ) → N → Option (Db κ δ)
  | none => s.databases
  | some (name, a) =>
    Function.update s.databases name ((s.databases name).map fun db => db.step a)

/-- The guard of a transaction that the connection begins now. -/
def nextGuard (s : State N C κ δ) (c : C) : Option (Guard N) :=
  (s.databases (s.conns c).database).map fun db =>
    ⟨(s.conns c).database, db.txMgr.clock⟩

/-- The connection after its statement's step. -/
def connAfter (s : State N C κ δ) (c : C) : Event N C κ δ → Connection N
  | .begin _ =>
    let conn := s.conns c
    if conn.currentTxn = none ∧ conn.statementTxn = none then
      { conn with currentTxn := s.nextGuard c }
    else conn
  | .startStatement _ =>
    let conn := s.conns c
    if conn.currentTxn = none ∧ conn.statementTxn = none then
      { conn with statementTxn := s.nextGuard c }
    else conn
  | .endStatement _ _ | .failStatement _ _ => { s.conns c with statementTxn := none }
  | .commit _ _ | .rollback _ _ =>
    -- the guard is taken, and its id with it, before the store is asked
    let conn := s.conns c
    if conn.statementTxn = none then { conn with currentTxn := none } else conn
  | .useDatabase _ name =>
    let conn := s.conns c
    if conn.statementTxn = none ∧ (s.databases name).isSome then
      { conn with database := name }
    else conn
  | .createDatabase _ name ifNotExists =>
    let conn := s.conns c
    if conn.statementTxn = none ∧ ((s.databases name).isNone ∨ ifNotExists = true) then
      { conn with database := name }
    else conn
  | .write _ _ | .find _ _ | .upkeep _ _ | .enforceLimits _ _ _ => s.conns c

/-- The databases once one of them has given out an LSN. -/
def spendLsn (s : State N C κ δ) (name : N) : N → Option (Db κ δ) :=
  Function.update s.databases name ((s.databases name).map fun db => db.nextLsn.1)

/-- The databases after an event.  A commit whose record cannot be queued has spent an LSN;
one that is refused has done nothing. -/
def databasesAfter (s : State N C κ δ) (e : Event N C κ δ) : N → Option (Db κ δ) :=
  match e with
  | .createDatabase c name _ =>
    if (s.conns c).statementTxn = none ∧ (s.databases name).isNone then
      Function.update s.databases name (some Db.new)
    else s.databases
  | .commit c .unqueued =>
    if (s.conns c).currentTxn.isSome ∧ (s.conns c).statementTxn = none then
      s.spendLsn (s.conns c).database
    else s.databases
  | .endStatement c .unqueued =>
    if (s.conns c).statementTxn.isSome then s.spendLsn (s.conns c).database
    else s.databases
  | e => s.perform (s.call e)

/-- Whose statement has begun which transaction, after an event. -/
def begunAfter (s : State N C κ δ) (e : Event N C κ δ) : N → Nat → Option C :=
  match e.connection, s.call e with
  | some c, some (name, .begin _) =>
    match s.databases name with
    | none => s.begunBy
    | some db =>
      Function.update s.begunBy name
        (Function.update (s.begunBy name) db.txMgr.clock (some c))
  | _, _ => s.begunBy

/-- One event. -/
def step (s : State N C κ δ) (e : Event N C κ δ) : State N C κ δ where
  databases := s.databasesAfter e
  conns :=
    match e.connection with
    | none => s.conns
    | some c => Function.update s.conns c (s.connAfter c e)
  begunBy := s.begunAfter e

/-- No connection with an open transaction changes its database, and no store refuses a
commit. -/
def Stays (s : State N C κ δ) : Event N C κ δ → Prop
  | .useDatabase c name =>
    (s.conns c).currentTxn = none ∨ name = (s.conns c).database ∨ s.databases name = none
  | .createDatabase c name ifNotExists =>
    (s.conns c).currentTxn = none ∨ name = (s.conns c).database ∨
      ((s.databases name).isSome ∧ ifNotExists = false)
  | .commit c fate => (s.conns c).currentTxn = none ∨ fate = .queued
  | .endStatement c fate => (s.conns c).statementTxn = none ∨ fate = .queued
  | _ => True

/-- The store has transaction `id` as active. -/
def Active (s : State N C κ δ) (name : N) (id : Nat) : Prop :=
  ∃ db, s.databases name = some db ∧ db.txMgr.isTransactionActive id = true

/-! ## The invariant -/

/-- Each guard is of a transaction of the connection's own, in the database it points at, and
each transaction it has begun and not ended is in one of its guards. -/
structure Inv (s : State N C κ δ) : Prop where
  pointed : ∀ c, ∃ db, s.databases (s.conns c).database = some db
  stores : ∀ name db, s.databases name = some db → DbInv db
  begun : ∀ name id c, s.begunBy name id = some c →
    ∃ db, s.databases name = some db ∧ id < db.txMgr.clock
  current : ∀ c txn, (s.conns c).currentTxn = some txn →
    txn.sink = (s.conns c).database ∧ s.begunBy txn.sink txn.id = some c
  statement : ∀ c txn, (s.conns c).statementTxn = some txn →
    txn.sink = (s.conns c).database ∧ s.begunBy txn.sink txn.id = some c
  left : ∀ c name id, s.begunBy name id = some c → s.Active name id →
    (s.conns c).currentTxn = some ⟨name, id⟩ ∨ (s.conns c).statementTxn = some ⟨name, id⟩

namespace Inv

variable {s : State N C κ δ}

omit [DecidableEq C] in
theorem new (name : N) : Inv (State.new name : State N C κ δ) where
  pointed := fun c => ⟨Db.new, by simp [State.new]⟩
  stores := by
    intro m db hdb
    by_cases hm : m = name
    · subst hm
      rw [show (State.new m : State N C κ δ).databases m = some Db.new by
        simp [State.new]] at hdb
      cases hdb
      exact Db.inv_new
    · simp [State.new, hm] at hdb
  begun := fun _ _ _ h => by cases h
  current := fun _ _ h => by cases h
  statement := fun _ _ h => by cases h
  left := fun _ _ _ h => by cases h

omit [DecidableEq C] in
/-- What a call of a store leaves as it was. -/
theorem perform (h : Inv s) (call : Option (N × Action κ δ)) :
    Inv { s with databases := s.perform call } := by
  cases call with
  | none => exact h
  | some r =>
    cases r with
    | mk name a =>
      have hat : ∀ m db', s.perform (some (name, a)) m = some db' →
          ∃ db, s.databases m = some db ∧ (db' = db ∨ m = name ∧ db' = db.step a) := by
        intro m db' hm
        by_cases hne : m = name
        · subst hne
          cases hdb : s.databases m with
          | none => simp [State.perform, hdb] at hm
          | some db =>
            simp only [State.perform, Function.update_self, hdb, Option.map_some,
              Option.some.injEq] at hm
            exact ⟨db, rfl, Or.inr ⟨rfl, hm.symm⟩⟩
        · simp only [State.perform, Function.update_of_ne hne] at hm
          exact ⟨db', hm, Or.inl rfl⟩
      have hto : ∀ m db, s.databases m = some db →
          ∃ db', s.perform (some (name, a)) m = some db' ∧
            db.txMgr.clock ≤ db'.txMgr.clock := by
        intro m db hdb
        by_cases hne : m = name
        · subst hne
          exact ⟨db.step a, by simp [State.perform, hdb],
            (Db.step_spec db a (h.stores m db hdb)).clock⟩
        · exact ⟨db, by simp [State.perform, hne, hdb], Nat.le_refl _⟩
      exact {
        pointed := by
          intro c
          obtain ⟨db, hdb⟩ := h.pointed c
          obtain ⟨db', hdb', -⟩ := hto _ db hdb
          exact ⟨db', hdb'⟩
        stores := by
          intro m db' hm
          obtain ⟨db, hdb, rfl | ⟨-, rfl⟩⟩ := hat m db' hm
          · exact h.stores m _ hdb
          · exact Db.inv_step db a (h.stores m db hdb)
        begun := by
          intro m id c hb
          obtain ⟨db, hdb, hlt⟩ := h.begun m id c hb
          obtain ⟨db', hdb', hle⟩ := hto m db hdb
          exact ⟨db', hdb', Nat.lt_of_lt_of_le hlt hle⟩
        current := h.current
        statement := h.statement
        left := by
          intro c m id hb hactive
          apply h.left c m id hb
          obtain ⟨db', hm, hact⟩ := hactive
          obtain ⟨db, hdb, heq | ⟨-, heq⟩⟩ := hat m db' hm
          · exact ⟨db, hdb, heq ▸ hact⟩
          · refine ⟨db, hdb, ?_⟩
            obtain ⟨p, hp⟩ := (TransactionManager.isTransactionActive_iff _ id).mp hact
            rw [heq] at hp
            rcases (Db.step_spec db a (h.stores m db hdb)).reader id p hp with hid | hold
            · -- an id this step has given out is nobody's yet
              obtain ⟨db₀, hdb₀, hlt⟩ := h.begun m id c hb
              rw [hdb] at hdb₀
              cases hdb₀
              omega
            · exact (TransactionManager.isTransactionActive_iff _ id).mpr ⟨p, hold⟩ }

variable {c : C} {conn : Connection N}

omit [DecidableEq N] in
/-- The connection's record changes, and nothing else. -/
theorem setConn (h : Inv s) (hpointed : ∃ db, s.databases conn.database = some db)
    (hcurrent : ∀ txn, conn.currentTxn = some txn →
      txn.sink = conn.database ∧ s.begunBy txn.sink txn.id = some c)
    (hstatement : ∀ txn, conn.statementTxn = some txn →
      txn.sink = conn.database ∧ s.begunBy txn.sink txn.id = some c)
    (hleft : ∀ name id, s.begunBy name id = some c → s.Active name id →
      conn.currentTxn = some ⟨name, id⟩ ∨ conn.statementTxn = some ⟨name, id⟩) :
    Inv { s with conns := Function.update s.conns c conn } where
  pointed := by
    intro d
    by_cases hd : d = c
    · simpa [hd] using hpointed
    · simpa [hd] using h.pointed d
  stores := h.stores
  begun := h.begun
  current := by
    intro d txn
    by_cases hd : d = c
    · simpa [hd] using hcurrent txn
    · simpa [hd] using h.current d txn
  statement := by
    intro d txn
    by_cases hd : d = c
    · simpa [hd] using hstatement txn
    · simpa [hd] using h.statement d txn
  left := by
    intro d name id hb hactive
    have hwas : s.Active name id := hactive
    by_cases hd : d = c
    · subst hd
      simpa using hleft name id hb hwas
    · simpa [hd] using h.left d name id hb hwas

/-- A connection without an open transaction begins one. -/
theorem opened (h : Inv s) {db : Db κ δ} (hcurrent : (s.conns c).currentTxn = none)
    (hstatement : (s.conns c).statementTxn = none)
    (hdb : s.databases (s.conns c).database = some db)
    (hdatabase : conn.database = (s.conns c).database)
    (hguard : conn.currentTxn = some ⟨(s.conns c).database, db.txMgr.clock⟩ ∧
        conn.statementTxn = none ∨
      conn.statementTxn = some ⟨(s.conns c).database, db.txMgr.clock⟩ ∧
        conn.currentTxn = none) :
    Inv { databases := s.perform (some ((s.conns c).database, .begin .continueOnConflict))
          conns := Function.update s.conns c conn
          begunBy := Function.update s.begunBy (s.conns c).database
            (Function.update (s.begunBy (s.conns c).database) db.txMgr.clock (some c)) } := by
  have hp := h.perform (some ((s.conns c).database, .begin .continueOnConflict))
  generalize hname : (s.conns c).database = name at *
  have hafter : s.perform (some (name, .begin .continueOnConflict)) name =
      some (db.step (.begin .continueOnConflict)) := by
    simp [State.perform, hdb]
  -- what was begun before is not what is begun now
  have hold : ∀ m id d, s.begunBy m id = some d →
      Function.update s.begunBy name
        (Function.update (s.begunBy name) db.txMgr.clock (some c)) m id = some d := by
    intro m id d hb
    by_cases hm : m = name
    · subst hm
      by_cases hid : id = db.txMgr.clock
      · obtain ⟨db', hdb', hlt⟩ := h.begun m id d hb
        rw [hdb] at hdb'
        cases hdb'
        omega
      · simpa [hid] using hb
    · simpa [hm] using hb
  have hnew : ∀ m id d, Function.update s.begunBy name
      (Function.update (s.begunBy name) db.txMgr.clock (some c)) m id = some d →
      s.begunBy m id = some d ∨ m = name ∧ id = db.txMgr.clock ∧ d = c := by
    intro m id d hb
    by_cases hm : m = name
    · subst hm
      by_cases hid : id = db.txMgr.clock
      · simp only [hid, Function.update_self, Option.some.injEq] at hb
        exact Or.inr ⟨rfl, hid, hb.symm⟩
      · exact Or.inl (by simpa [hid] using hb)
    · exact Or.inl (by simpa [hm] using hb)
  have hmine : Function.update s.begunBy name
      (Function.update (s.begunBy name) db.txMgr.clock (some c)) name db.txMgr.clock =
        some c := by simp
  constructor
  · intro d
    by_cases hd : d = c
    · subst hd
      exact ⟨_, by simpa [hdatabase] using hafter⟩
    · simpa [hd] using hp.pointed d
  · exact hp.stores
  · intro m id d hb
    rcases hnew m id d hb with hb | ⟨rfl, rfl, -⟩
    · exact hp.begun m id d hb
    · refine ⟨_, hafter, ?_⟩
      show db.txMgr.clock < db.txMgr.clock + 1
      omega
  · intro d txn htxn
    by_cases hd : d = c
    · subst hd
      simp only [Function.update_self] at htxn ⊢
      rcases hguard with ⟨hg, -⟩ | ⟨-, hg⟩
      · rw [hg] at htxn
        cases htxn
        exact ⟨hdatabase.symm, hmine⟩
      · rw [hg] at htxn
        cases htxn
    · simp only [Function.update_of_ne hd] at htxn ⊢
      have hcur := h.current d txn htxn
      exact ⟨hcur.1, hold _ _ _ hcur.2⟩
  · intro d txn htxn
    by_cases hd : d = c
    · subst hd
      simp only [Function.update_self] at htxn ⊢
      rcases hguard with ⟨-, hg⟩ | ⟨hg, -⟩
      · rw [hg] at htxn
        cases htxn
      · rw [hg] at htxn
        cases htxn
        exact ⟨hdatabase.symm, hmine⟩
    · simp only [Function.update_of_ne hd] at htxn ⊢
      have hst := h.statement d txn htxn
      exact ⟨hst.1, hold _ _ _ hst.2⟩
  · intro d m id hb hactive
    rcases hnew m id d hb with hb | ⟨rfl, rfl, rfl⟩
    · have hleft := hp.left d m id hb hactive
      by_cases hd : d = c
      · subst hd
        rw [hcurrent, hstatement] at hleft
        rcases hleft with hl | hl <;> cases hl
      · simpa [hd] using hleft
    · simp only [Function.update_self]
      rcases hguard with ⟨hg, -⟩ | ⟨hg, -⟩
      · exact Or.inl hg
      · exact Or.inr hg

/-- The transaction of a guard ends, and the guard is gone. -/
theorem ended (h : Inv s) {txn : Guard N} {a : Action κ δ}
    (hends : ∀ db : Db κ δ, Db.Ended (db.step a).txMgr txn.id)
    (hsink : txn.sink = (s.conns c).database) (hdatabase : conn.database = (s.conns c).database)
    (hcurrent : ∀ g, conn.currentTxn = some g → (s.conns c).currentTxn = some g)
    (hstatement : ∀ g, conn.statementTxn = some g → (s.conns c).statementTxn = some g)
    (hguards : ∀ g, (s.conns c).currentTxn = some g ∨ (s.conns c).statementTxn = some g →
      g = txn ∨ conn.currentTxn = some g ∨ conn.statementTxn = some g) :
    Inv { s with
      databases := s.perform (some ((s.conns c).database, a))
      conns := Function.update s.conns c conn } := by
  have hp := h.perform (some ((s.conns c).database, a))
  refine hp.setConn ?_ ?_ ?_ ?_
  · rw [hdatabase]
    exact hp.pointed c
  · intro g hg
    rw [hdatabase]
    exact h.current c g (hcurrent g hg)
  · intro g hg
    rw [hdatabase]
    exact h.statement c g (hstatement g hg)
  · intro name id hb hactive
    rcases hguards _ (hp.left c name id hb hactive) with heq | hkept
    · exfalso
      obtain ⟨db', hdb', hact⟩ := hactive
      obtain ⟨p, hp'⟩ := (TransactionManager.isTransactionActive_iff _ id).mp hact
      obtain ⟨db, hdb⟩ := h.pointed c
      have hname : name = (s.conns c).database := by
        rw [← hsink, ← heq]
      subst hname
      simp only [State.perform, Function.update_self, hdb, Option.map_some,
        Option.some.injEq] at hdb'
      rw [← hdb'] at hp'
      have hid : txn.id = id := by rw [← heq]
      exact hends db p (hid ▸ hp')
    · exact hkept

/-- An event of a connection that calls no store, and changes its record alone. -/
theorem quiet (h : Inv s) {e : Event N C κ δ} (hconn : e.connection = some c)
    (hdbs : s.databasesAfter e = s.databases) (hcall : s.call e = none)
    (hpointed : ∃ db, s.databases (s.connAfter c e).database = some db)
    (hcurrent : (s.connAfter c e).currentTxn = (s.conns c).currentTxn)
    (hstatement : (s.connAfter c e).statementTxn = (s.conns c).statementTxn)
    (hdatabase : (s.conns c).currentTxn = none ∧ (s.conns c).statementTxn = none ∨
      (s.connAfter c e).database = (s.conns c).database) : Inv (s.step e) := by
  have hstep : s.step e = { s with conns := Function.update s.conns c (s.connAfter c e) } := by
    simp [State.step, hdbs, State.begunAfter, hconn, hcall]
  rw [hstep]
  refine h.setConn hpointed ?_ ?_ ?_
  · intro txn htxn
    rw [hcurrent] at htxn
    rcases hdatabase with ⟨hnone, -⟩ | hsame
    · rw [hnone] at htxn
      cases htxn
    · rw [hsame]
      exact h.current c txn htxn
  · intro txn htxn
    rw [hstatement] at htxn
    rcases hdatabase with ⟨-, hnone⟩ | hsame
    · rw [hnone] at htxn
      cases htxn
    · rw [hsame]
      exact h.statement c txn htxn
  · intro name id hb hactive
    rw [hcurrent, hstatement]
    exact h.left c name id hb hactive

/-- An event that calls no store and leaves its connection as it was. -/
theorem idle (h : Inv s) {e : Event N C κ δ} (hconn : e.connection = some c)
    (hdbs : s.databasesAfter e = s.databases) (hcall : s.call e = none)
    (hsame : s.connAfter c e = s.conns c) : Inv (s.step e) := by
  refine h.quiet hconn hdbs hcall ?_ ?_ ?_ (Or.inr ?_)
  · rw [hsame]
    exact h.pointed c
  · rw [hsame]
  · rw [hsame]
  · rw [hsame]

/-- A connection without an open transaction begins one, its own or a statement's; one that has
one does nothing. -/
theorem begins (h : Inv s) {e : Event N C κ δ} (hconn : e.connection = some c)
    (hdbs : s.databasesAfter e = s.perform (s.call e))
    (hcall : s.call e =
      if (s.conns c).currentTxn = none ∧ (s.conns c).statementTxn = none then
        some ((s.conns c).database, .begin .continueOnConflict)
      else none)
    (hafter : s.connAfter c e =
        (if (s.conns c).currentTxn = none ∧ (s.conns c).statementTxn = none then
          { s.conns c with currentTxn := s.nextGuard c }
        else s.conns c) ∨
      s.connAfter c e =
        if (s.conns c).currentTxn = none ∧ (s.conns c).statementTxn = none then
          { s.conns c with statementTxn := s.nextGuard c }
        else s.conns c) : Inv (s.step e) := by
  by_cases hidle : (s.conns c).currentTxn = none ∧ (s.conns c).statementTxn = none
  · obtain ⟨db, hdb⟩ := h.pointed c
    have hguard : s.nextGuard c = some ⟨(s.conns c).database, db.txMgr.clock⟩ := by
      simp [State.nextGuard, hdb]
    rw [if_pos hidle] at hcall hafter hafter
    rw [hguard] at hafter
    have hstep : s.step e =
        { databases := s.perform (some ((s.conns c).database, .begin .continueOnConflict))
          conns := Function.update s.conns c (s.connAfter c e)
          begunBy := Function.update s.begunBy (s.conns c).database
            (Function.update (s.begunBy (s.conns c).database) db.txMgr.clock (some c)) } := by
      simp [State.step, hdbs, State.begunAfter, hconn, hcall, hdb]
    rw [hstep]
    rcases hafter with hafter | hafter
    · rw [hafter]
      exact h.opened hidle.1 hidle.2 hdb rfl (Or.inl ⟨rfl, hidle.2⟩)
    · rw [hafter]
      exact h.opened hidle.1 hidle.2 hdb rfl (Or.inr ⟨rfl, hidle.1⟩)
  · rw [if_neg hidle] at hcall hafter hafter
    exact h.idle hconn (by rw [hdbs, hcall]; rfl) hcall (hafter.elim id id)

theorem write (h : Inv s) (c : C) (w : Write κ δ) : Inv (s.step (.write c w)) := by
  have hstep : s.step (.write c w) =
      { s with databases := s.perform (s.call (.write c w)) } := by
    cases hguard : (s.conns c).statementTxn.or (s.conns c).currentTxn with
    | none =>
      simp [State.step, State.databasesAfter, State.call, State.begunAfter, Event.connection,
        State.connAfter, hguard]
    | some txn =>
      cases w with
      | insert tuple =>
        simp [State.step, State.databasesAfter, State.call, State.begunAfter,
          Event.connection, State.connAfter, hguard, Write.action]
      | update tuple =>
        simp [State.step, State.databasesAfter, State.call, State.begunAfter,
          Event.connection, State.connAfter, hguard, Write.action]
      | remove key =>
        simp [State.step, State.databasesAfter, State.call, State.begunAfter,
          Event.connection, State.connAfter, hguard, Write.action]
  rw [hstep]
  exact h.perform _

/-- The transaction of a guard, if there is one, ends by a call of its store, and the guard is
gone. -/
theorem endGuard (h : Inv s) {e : Event N C κ δ} (a : Nat → Action κ δ)
    {guard : Option (Guard N)} (hends : ∀ (db : Db κ δ) id, Db.Ended (db.step (a id)).txMgr id)
    (hnew : ∀ id policy, a id ≠ .begin policy) (hconn : e.connection = some c)
    (hdbs : s.databasesAfter e = s.perform (s.call e))
    (hcall : s.call e = guard.map fun txn => ((s.conns c).database, a txn.id))
    (hguard : (s.conns c).statementTxn = guard ∧
        s.connAfter c e = { s.conns c with statementTxn := none } ∨
      (s.conns c).currentTxn = guard ∧
        s.connAfter c e = { s.conns c with currentTxn := none }) : Inv (s.step e) := by
  cases guard with
  | none =>
    refine h.idle hconn (by rw [hdbs, hcall]; rfl) hcall ?_
    rcases hguard with ⟨hst, hafter⟩ | ⟨hcur, hafter⟩
    · rw [hafter, ← hst]
    · rw [hafter, ← hcur]
  | some txn =>
    rw [Option.map_some] at hcall
    have hbegun : s.begunAfter e = s.begunBy := by
      simp only [State.begunAfter, hconn, hcall]
      cases ha : a txn.id with
      | begin policy => exact absurd ha (hnew _ policy)
      | _ => rfl
    have hstep : s.step e =
        { s with
          databases := s.perform (some ((s.conns c).database, a txn.id))
          conns := Function.update s.conns c (s.connAfter c e) } := by
      simp only [State.step, hdbs, hcall, hbegun, hconn]
    rw [hstep]
    rcases hguard with ⟨hst, hafter⟩ | ⟨hcur, hafter⟩
    · rw [hafter]
      refine h.ended (hends · txn.id) (h.statement c txn hst).1 rfl (fun g hg => hg)
        (fun g hg => by cases hg) ?_
      rintro g (hg | hg)
      · exact Or.inr (Or.inl hg)
      · exact Or.inl (Option.some.inj (hg.symm.trans hst))
    · rw [hafter]
      refine h.ended (hends · txn.id) (h.current c txn hcur).1 rfl (fun g hg => by cases hg)
        (fun g hg => hg) ?_
      rintro g (hg | hg)
      · exact Or.inl (Option.some.inj (hg.symm.trans hcur))
      · exact Or.inr (Or.inr hg)

theorem endStatement (h : Inv s) (c : C) (fate : Fate)
    (hok : (s.conns c).statementTxn = none ∨ fate = .queued) :
    Inv (s.step (.endStatement c fate)) := by
  cases fate with
  | queued =>
    exact h.endGuard .commit Db.commit_ends (fun _ _ => nofun) rfl rfl rfl (Or.inl ⟨rfl, rfl⟩)
  | refused | unqueued =>
    have hst : (s.conns c).statementTxn = none := hok.resolve_right nofun
    exact h.idle rfl (by simp [State.databasesAfter, State.call, State.perform, hst]) rfl
      (by simp [State.connAfter, ← hst])

theorem failStatement (h : Inv s) (c : C) (failsAfter : Option Nat) :
    Inv (s.step (.failStatement c failsAfter)) :=
  h.endGuard (.abort · failsAfter) (Db.abort_ends · · failsAfter) (fun _ _ => nofun) rfl rfl rfl
    (Or.inl ⟨rfl, rfl⟩)

theorem commit (h : Inv s) (c : C) (fate : Fate)
    (hok : (s.conns c).currentTxn = none ∨ fate = .queued) : Inv (s.step (.commit c fate)) := by
  by_cases hst : (s.conns c).statementTxn = none
  · cases fate with
    | queued =>
      exact h.endGuard .commit Db.commit_ends (fun _ _ => nofun) rfl rfl (if_pos ⟨hst, rfl⟩)
        (Or.inr ⟨rfl, if_pos hst⟩)
    | refused | unqueued =>
      have hcur : (s.conns c).currentTxn = none := hok.resolve_right nofun
      exact h.idle rfl (by simp [State.databasesAfter, State.call, State.perform, hcur])
        (by simp [State.call]) (by simp [State.connAfter, ← hcur])
  · have hcall : s.call (.commit c fate) = none := by simp [State.call, hst]
    refine h.idle rfl ?_ hcall (if_neg hst)
    cases fate with
    | queued | refused => simp [State.databasesAfter, hcall, State.perform]
    | unqueued => simp [State.databasesAfter, hst]

theorem rollback (h : Inv s) (c : C) (failsAfter : Option Nat) :
    Inv (s.step (.rollback c failsAfter)) := by
  by_cases hst : (s.conns c).statementTxn = none
  · exact h.endGuard (.abort · failsAfter) (Db.abort_ends · · failsAfter) (fun _ _ => nofun) rfl rfl
      (if_pos hst) (Or.inr ⟨rfl, if_pos hst⟩)
  · have hcall : s.call (.rollback c failsAfter) = none := if_neg hst
    exact h.idle rfl (by simp [State.databasesAfter, hcall, State.perform]) hcall (if_neg hst)

theorem useDatabase (h : Inv s) (c : C) (name : N)
    (hok : (s.conns c).currentTxn = none ∨ name = (s.conns c).database ∨
      s.databases name = none) : Inv (s.step (.useDatabase c name)) := by
  have hdbs : s.databasesAfter (.useDatabase c name) = s.databases := rfl
  by_cases hto : (s.conns c).statementTxn = none ∧ (s.databases name).isSome
  · have hconn : s.connAfter c (.useDatabase c name) =
        { s.conns c with database := name } := if_pos hto
    refine h.quiet rfl hdbs rfl ?_ (by rw [hconn]) (by rw [hconn]) ?_
    · rw [hconn]
      exact Option.isSome_iff_exists.mp hto.2
    · rw [hconn]
      rcases hok with hnone | hsame | hmissing
      · exact Or.inl ⟨hnone, hto.1⟩
      · exact Or.inr hsame
      · rw [hmissing] at hto
        simp at hto
  · have hconn : s.connAfter c (.useDatabase c name) = s.conns c := if_neg hto
    exact h.idle rfl hdbs rfl hconn

omit [DecidableEq C] in
/-- A database is created. -/
theorem created (h : Inv s) {name : N} (hmissing : s.databases name = none) :
    Inv { s with databases := Function.update s.databases name (some Db.new) } := by
  have hold : ∀ m db, s.databases m = some db →
      Function.update s.databases name (some Db.new) m = some db := by
    intro m db hdb
    by_cases hm : m = name
    · rw [hm, hmissing] at hdb
      cases hdb
    · simpa [hm] using hdb
  exact {
    pointed := by
      intro c
      obtain ⟨db, hdb⟩ := h.pointed c
      exact ⟨db, hold _ _ hdb⟩
    stores := by
      intro m db hdb
      by_cases hm : m = name
      · subst hm
        simp only [Function.update_self, Option.some.injEq] at hdb
        subst hdb
        exact Db.inv_new
      · exact h.stores m db (by simpa [hm] using hdb)
    begun := by
      intro m id c hb
      obtain ⟨db, hdb, hlt⟩ := h.begun m id c hb
      exact ⟨db, hold _ _ hdb, hlt⟩
    current := h.current
    statement := h.statement
    left := by
      intro c m id hb hactive
      apply h.left c m id hb
      obtain ⟨db, hdb, hact⟩ := hactive
      obtain ⟨db₀, hdb₀, -⟩ := h.begun m id c hb
      have heq : Function.update s.databases name (some Db.new) m = some db := hdb
      rw [hold m db₀ hdb₀] at heq
      cases heq
      exact ⟨db, hdb₀, hact⟩ }

theorem createDatabase (h : Inv s) (c : C) (name : N) (ifNotExists : Bool)
    (hok : (s.conns c).currentTxn = none ∨ name = (s.conns c).database ∨
      ((s.databases name).isSome ∧ ifNotExists = false)) :
    Inv (s.step (.createDatabase c name ifNotExists)) := by
  by_cases hst : (s.conns c).statementTxn = none
  · cases hdb : s.databases name with
    | none =>
      have hnone : (s.conns c).currentTxn = none := by
        rcases hok with hnone | hsame | hsome
        · exact hnone
        · obtain ⟨db, hpoint⟩ := h.pointed c
          rw [← hsame, hdb] at hpoint
          cases hpoint
        · rw [hdb] at hsome
          simp at hsome
      have hstep : s.step (.createDatabase c name ifNotExists) =
          { s with
            databases := Function.update s.databases name (some Db.new)
            conns := Function.update s.conns c { s.conns c with database := name } } := by
        simp [State.step, State.databasesAfter, State.call, State.begunAfter,
          Event.connection, State.connAfter, hst, hdb]
      rw [hstep]
      refine (h.created hdb).setConn ⟨Db.new, by simp⟩ ?_ ?_ ?_
      · intro txn htxn
        rw [show (s.conns c).currentTxn = some txn from htxn] at hnone
        cases hnone
      · intro txn htxn
        rw [show (s.conns c).statementTxn = some txn from htxn] at hst
        cases hst
      · exact fun m id hb hactive => (h.created hdb).left c m id hb hactive
    | some db =>
      have hdbs : s.databasesAfter (.createDatabase c name ifNotExists) = s.databases := by
        simp [State.databasesAfter, hdb]
      by_cases hif : ifNotExists = true
      · have hconn : s.connAfter c (.createDatabase c name ifNotExists) =
            { s.conns c with database := name } := by
          simp [State.connAfter, hst, hif]
        refine h.quiet rfl hdbs rfl ?_ (by rw [hconn]) (by rw [hconn]) ?_
        · rw [hconn]
          exact ⟨db, hdb⟩
        · rw [hconn]
          rcases hok with hnone | hsame | hsome
          · exact Or.inl ⟨hnone, hst⟩
          · exact Or.inr hsame
          · rw [hif] at hsome
            simp at hsome
      · have hconn : s.connAfter c (.createDatabase c name ifNotExists) = s.conns c := by
          simp [State.connAfter, hdb, hif]
        exact h.idle rfl hdbs rfl hconn
  · exact h.idle rfl (by simp [State.databasesAfter, hst]) rfl (by simp [State.connAfter, hst])

theorem step (h : Inv s) {e : Event N C κ δ} (hok : s.Stays e) : Inv (s.step e) := by
  cases e with
  | begin c => exact h.begins rfl rfl rfl (Or.inl rfl)
  | startStatement c => exact h.begins rfl rfl rfl (Or.inr rfl)
  | write c w => exact h.write c w
  | find c key => exact h.idle (c := c) rfl rfl rfl rfl
  | endStatement c fate => exact h.endStatement c fate hok
  | failStatement c failsAfter => exact h.failStatement c failsAfter
  | commit c fate => exact h.commit c fate hok
  | rollback c failsAfter => exact h.rollback c failsAfter
  | useDatabase c name => exact h.useDatabase c name hok
  | createDatabase c name ifNotExists => exact h.createDatabase c name ifNotExists hok
  | upkeep name job =>
    have hstep : s.step (.upkeep name job) =
        { s with databases := s.perform (some (name, job.action)) } := rfl
    rw [hstep]
    exact h.perform _
  | enforceLimits name txn failsAfter =>
    have hstep : s.step (.enforceLimits name txn failsAfter) =
        { s with databases := s.perform (some (name, .abort txn failsAfter)) } := rfl
    rw [hstep]
    exact h.perform _

end Inv

/-! ## What a run keeps -/

/-- The states that lead from one database by events that keep open transactions where they
are. -/
def Reachable (name : N) : State N C κ δ → Prop :=
  Lib.Reachable step Stays (State.new name)

/-- The transactions of each connection are its own, and end where they began. -/
structure Kept (s : State N C κ δ) : Prop where
  begins : ∀ c db, (s.conns c).currentTxn = none → (s.conns c).statementTxn = none →
    s.databases (s.conns c).database = some db →
    ((s.step (.begin c)).conns c).currentTxn = some ⟨(s.conns c).database, db.txMgr.clock⟩ ∧
      (s.step (.begin c)).begunBy (s.conns c).database db.txMgr.clock = some c ∧
      (s.step (.begin c)).Active (s.conns c).database db.txMgr.clock
  holds : ∀ c txn e, (s.conns c).currentTxn = some txn → (∀ fate, e ≠ .commit c fate) →
    (∀ failsAfter, e ≠ .rollback c failsAfter) → ((s.step e).conns c).currentTxn = some txn
  commits : ∀ c txn, (s.conns c).currentTxn = some txn → (s.conns c).statementTxn = none →
    s.call (.commit c .queued) = some (txn.sink, .commit txn.id) ∧
      ((s.step (.commit c .queued)).conns c).currentTxn = none ∧
      ¬ (s.step (.commit c .queued)).Active txn.sink txn.id
  rollsBack : ∀ c txn failsAfter, (s.conns c).currentTxn = some txn →
    (s.conns c).statementTxn = none →
    s.call (.rollback c failsAfter) = some (txn.sink, .abort txn.id failsAfter) ∧
      ((s.step (.rollback c failsAfter)).conns c).currentTxn = none ∧
      ¬ (s.step (.rollback c failsAfter)).Active txn.sink txn.id
  own : ∀ c e name a id, e.connection = some c → s.call e = some (name, a) →
    a.under = some id → s.begunBy name id = some c
  others : ∀ c e name id, e.connection = some c → s.Active name id →
    s.begunBy name id ≠ some c → (s.step e).Active name id
  left : ∀ c name id, (s.conns c).statementTxn = none → s.begunBy name id = some c →
    s.Active name id → (s.conns c).currentTxn = some ⟨name, id⟩

namespace Inv

variable {s : State N C κ δ}

variable {e : Event N C κ δ}

omit [DecidableEq N] [DecidableEq C] in
/-- What a call is made under is the connection's own. -/
theorem own (h : Inv s) {c : C} {name : N} {a : Action κ δ} {id : Nat}
    (he : e.connection = some c) (hcall : s.call e = some (name, a)) (hunder : a.under = some id) :
    s.begunBy name id = some c := by
  have hcurrent : ∀ txn, (s.conns c).currentTxn = some txn →
      s.begunBy (s.conns c).database txn.id = some c := by
    intro txn htxn
    rw [← (h.current c txn htxn).1]
    exact (h.current c txn htxn).2
  have hstatement : ∀ txn, (s.conns c).statementTxn = some txn →
      s.begunBy (s.conns c).database txn.id = some c := by
    intro txn htxn
    rw [← (h.statement c txn htxn).1]
    exact (h.statement c txn htxn).2
  cases e with
  | begin d | startStatement d =>
    simp only [State.call] at hcall
    split at hcall
    · cases hcall
      cases hunder
    · cases hcall
  | write d w =>
    cases he
    simp only [State.call, Option.map_eq_some_iff] at hcall
    obtain ⟨txn, htxn, heq⟩ := hcall
    cases heq
    have hid : txn.id = id := by
      cases w with
      | insert tuple | update tuple | remove key =>
        simpa [Write.action, Action.under] using hunder
    subst hid
    cases hst : (s.conns c).statementTxn with
    | none =>
      rw [hst, Option.none_or] at htxn
      exact hcurrent txn htxn
    | some g =>
      rw [hst, Option.some_or] at htxn
      cases htxn
      exact hstatement _ hst
  | endStatement d fate =>
    cases he
    simp only [State.call] at hcall
    split at hcall
    · obtain ⟨txn, htxn, heq⟩ := Option.map_eq_some_iff.mp hcall
      cases heq
      cases hunder
      exact hstatement txn htxn
    · cases hcall
  | failStatement d failsAfter =>
    cases he
    obtain ⟨txn, htxn, heq⟩ := Option.map_eq_some_iff.mp hcall
    cases heq
    cases hunder
    exact hstatement txn htxn
  | commit d fate | rollback d failsAfter =>
    cases he
    simp only [State.call] at hcall
    split at hcall
    · obtain ⟨txn, htxn, heq⟩ := Option.map_eq_some_iff.mp hcall
      cases heq
      cases hunder
      exact hcurrent txn htxn
    · cases hcall
  | find d key | useDatabase d name | createDatabase d name ifNotExists => cases hcall
  | upkeep name job | enforceLimits name txn failsAfter => cases he

/-- A transaction stays active through an event that does not act under it. -/
theorem stays_active (h : Inv s) {name : N} {id : Nat} (hactive : s.Active name id)
    (hother : ∀ a, s.call e = some (name, a) → a.under ≠ some id) :
    (s.step e).Active name id := by
  obtain ⟨db, hdb, hact⟩ := hactive
  obtain ⟨p, hp⟩ := (TransactionManager.isTransactionActive_iff _ id).mp hact
  have hsame : s.databasesAfter e = s.databases → (s.step e).Active name id := by
    intro heq
    exact ⟨db, by rw [State.step]; simpa [heq] using hdb, hact⟩
  have hspent : ∀ m, s.databasesAfter e = s.spendLsn m → (s.step e).Active name id := by
    intro m heq
    by_cases hm : name = m
    · subst hm
      exact ⟨db.nextLsn.1, by simp [State.step, heq, State.spendLsn, hdb], hact⟩
    · exact ⟨db, by simp [State.step, heq, State.spendLsn, hm, hdb], hact⟩
  have hperform : s.databasesAfter e = s.perform (s.call e) → (s.step e).Active name id := by
    intro heq
    cases hcall : s.call e with
    | none => exact hsame (by rw [heq, hcall]; rfl)
    | some r =>
      cases r with
      | mk m a =>
        by_cases hm : name = m
        · subst hm
          refine ⟨db.step a, by simp [State.step, heq, hcall, State.perform, hdb], ?_⟩
          exact (TransactionManager.isTransactionActive_iff _ id).mpr
            ⟨p, Db.step_keepsOthers (h.stores name db hdb) a hp (hother a hcall)⟩
        · exact ⟨db, by simp [State.step, heq, hcall, State.perform, hm, hdb], hact⟩
  have hfate : ∀ (P : Prop) [Decidable P] m,
      s.databasesAfter e = (if P then s.spendLsn m else s.databases) →
      (s.step e).Active name id := by
    intro P _ m heq
    by_cases hP : P
    · exact hspent m (by rw [heq, if_pos hP])
    · exact hsame (by rw [heq, if_neg hP])
  cases e with
  | createDatabase c m ifNotExists =>
    by_cases hmade : (s.conns c).statementTxn = none ∧ (s.databases m).isNone
    · have heq : s.databasesAfter (.createDatabase c m ifNotExists) =
          Function.update s.databases m (some Db.new) := if_pos hmade
      have hne : name ≠ m := by
        rintro rfl
        simp [hdb] at hmade
      exact ⟨db, by simp [State.step, heq, hne, hdb], hact⟩
    · exact hsame (if_neg hmade)
  | commit c fate | endStatement c fate =>
    cases fate with
    | unqueued => exact hfate _ _ rfl
    | queued | refused => exact hperform rfl
  | _ => exact hperform rfl

/-- A call that ends the transaction of a guard leaves it ended. -/
theorem not_active (h : Inv s) {c : C} {txn : Guard N} {a : Action κ δ}
    (hcurrent : (s.conns c).currentTxn = some txn)
    (hends : ∀ db : Db κ δ, Db.Ended (db.step a).txMgr txn.id)
    (hdbs : s.databasesAfter e = s.perform (some (txn.sink, a))) :
    ¬ (s.step e).Active txn.sink txn.id := by
  rintro ⟨db', hdb', hact⟩
  obtain ⟨db, hdb⟩ := h.pointed c
  rw [← (h.current c txn hcurrent).1] at hdb
  have hafter : db' = db.step a := by
    have heq : s.databasesAfter e txn.sink = some db' := hdb'
    rw [hdbs] at heq
    simpa [State.perform, hdb] using heq.symm
  obtain ⟨p, hp⟩ := (TransactionManager.isTransactionActive_iff _ txn.id).mp hact
  rw [hafter] at hp
  exact hends db p hp

theorem kept (h : Inv s) : Kept s where
  begins := by
    intro c db hcur hst hdb
    refine ⟨?_, ?_, ?_⟩
    · simp [State.step, Event.connection, State.connAfter, State.nextGuard, hcur, hst, hdb]
    · simp [State.step, State.begunAfter, Event.connection, State.call, hcur, hst, hdb]
    · refine ⟨db.step (.begin .continueOnConflict), ?_, ?_⟩
      · simp [State.step, State.databasesAfter, State.call, State.perform, hcur, hst, hdb]
      · apply (TransactionManager.isTransactionActive_iff _ _).mpr
        refine ⟨.continueOnConflict, ?_⟩
        show (db.txMgr.createTransaction .continueOnConflict).1.states db.txMgr.clock = _
        simp [TransactionManager.createTransaction]
  holds := by
    intro c txn e hcur hcommit hrollback
    cases he : e.connection with
    | none => simpa [State.step, he] using hcur
    | some d =>
      by_cases hd : c = d
      · subst hd
        have hconn : (s.connAfter c e).currentTxn = (s.conns c).currentTxn := by
          cases e with
          | commit d fate =>
            cases he
            exact absurd rfl (hcommit fate)
          | rollback d failsAfter =>
            cases he
            exact absurd rfl (hrollback failsAfter)
          | begin d | startStatement d | useDatabase d name | createDatabase d name b =>
            cases he
            simp only [State.connAfter]
            split
            · simp_all
            · rfl
          | endStatement d fate | failStatement d failsAfter | write d w | find d key =>
            cases he
            rfl
          | upkeep name job | enforceLimits name txn failsAfter => cases he
        simpa [State.step, he, hconn] using hcur
      · simpa [State.step, he, hd] using hcur
  commits := by
    intro c txn hcur hst
    have hsink := (h.current c txn hcur).1
    have hcall : s.call (.commit c .queued) = some (txn.sink, .commit txn.id) := by
      simp [State.call, hcur, hst, hsink]
    refine ⟨hcall, ?_, ?_⟩
    · simp [State.step, Event.connection, State.connAfter, hst]
    · exact h.not_active (a := .commit txn.id) hcur (fun db => Db.commit_ends db txn.id)
        (congrArg s.perform hcall)
  rollsBack := by
    intro c txn failsAfter hcur hst
    have hsink := (h.current c txn hcur).1
    have hcall : s.call (.rollback c failsAfter) =
        some (txn.sink, .abort txn.id failsAfter) := by
      simp [State.call, hcur, hst, hsink]
    refine ⟨hcall, ?_, ?_⟩
    · simp [State.step, Event.connection, State.connAfter, hst]
    · exact h.not_active (a := .abort txn.id failsAfter) hcur
        (fun db => Db.abort_ends db txn.id failsAfter)
        (congrArg s.perform hcall)
  own := fun c e name a id he hcall hunder => h.own he hcall hunder
  others := by
    intro c e name id he hactive hnot
    apply h.stays_active hactive
    intro a hcall hunder
    exact hnot (h.own he hcall hunder)
  left := by
    intro c name id hst hb hactive
    rcases h.left c name id hb hactive with hcur | hstatement
    · exact hcur
    · rw [hst] at hstatement
      cases hstatement

end Inv

/-- While no connection with an open transaction changes its database, and no store refuses a
commit, each connection's transactions are its own, and end where they began. -/
theorem transactions_end_where_they_began (name : N) {s : State N C κ δ}
    (h : Reachable name s) : Kept s :=
  (Lib.Reachable.invariant (Inv.new name) (fun _ _ hs hok => hs.step hok) h).kept

/-- A run of two connections: each has a transaction open, in a database of its own. -/
def sideBySide : List (Event Nat Nat Nat Nat) :=
  [.begin 0, .createDatabase 1 1 false, .begin 1]

theorem transactions_end_where_they_began_side_by_side :
    Kept (Lib.run step (State.new 0) sideBySide : State Nat Nat Nat Nat) := by
  refine transactions_end_where_they_began 0 (Lib.reachable_run sideBySide ?_)
  refine ⟨trivial, Or.inl rfl, trivial, trivial⟩

/-- The first connection then points at the second's database, and commits. -/
def switched : List (Event Nat Nat Nat Nat) := sideBySide ++ [.useDatabase 0 1]

/-- `COMMIT` after `USE DATABASE` commits the transaction of another connection that has the
same id, and leaves its own active with no guard. -/
theorem commit_in_another_database :
    let s : State Nat Nat Nat Nat := Lib.run step (State.new 0) switched
    (s.conns 0).currentTxn = some ⟨0, 1⟩ ∧ s.begunBy 0 1 = some 0 ∧ s.begunBy 1 1 = some 1 ∧
      s.Active 1 1 ∧ s.call (.commit 0 .queued) = some (1, .commit 1) ∧
      ¬ (s.step (.commit 0 .queued)).Active 1 1 ∧ (s.step (.commit 0 .queued)).Active 0 1 ∧
      ((s.step (.commit 0 .queued)).conns 0).currentTxn = none := by
  refine ⟨by decide, by decide, by decide, ⟨_, rfl, by decide⟩, rfl, ?_,
    ⟨_, rfl, by decide⟩, by decide⟩
  rintro ⟨db, hdb, hact⟩
  cases hdb
  revert hact
  decide

end State

end SquealDb.Conn.Transactions
