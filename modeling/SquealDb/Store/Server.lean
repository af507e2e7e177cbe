import SquealDb.Lib.Run
import SquealDb.Lib.Script
import SquealDb.Store.Calls

/-!
# Statements of many connections

`with_active_txn` and `insert_rows` over the store: a statement runs in its connection's open
transaction, which goes on after it whether it failed or not, or in one of its own, which is
committed or rolled back with it. A connection's calls of the store come one by one, between
those of the others and the maintenance thread's.

The ledger beside the server is what the rows would be if a failed statement did nothing: each
transaction's rows are those committed as it began, with the writes of its statements that
succeeded, and a commit puts just these over what is committed.
-/

namespace SquealDb.Store

open Lib

/-- A transaction with a connection: whether it was begun by the connection or for one
statement, and the rest of the statement under way. Of a statement that failed after it had
written, it remembers that. -/
structure Session (κ δ ν ε : Type) where
  explicit : Bool
  running : Option (Script κ δ ν ε PUnit)
  wrote : Bool
  spoiled : Bool

/-- The store with its sequences and the transactions that connections have open. -/
structure Server (κ δ ν ε : Type) where
  db : Db κ δ
  sequences : ν → Option UInt64
  sessions : Nat → Option (Session κ δ ν ε)

/-- What the maintenance thread does. -/
inductive Upkeep where
  | retryAbort (txn : Nat) (failsAfter : Option Nat)
  | pruneCommitted
  | vacuum
  | purge
  deriving DecidableEq, Repr

/-- As an action of the store. -/
def Upkeep.action {κ δ : Type} : Upkeep → Action κ δ
  | retryAbort txn failsAfter => .retryAbort txn failsAfter
  | pruneCommitted => .pruneCommitted
  | vacuum => .vacuum
  | purge => .purge

/-- What a connection or the maintenance thread does next. A statement's next call is given the
rows it selects, if it selects any; a rollback may fail on its way. -/
inductive Event (κ δ σ : Type) where
  | begin
  | start (txn : Nat) (statement : σ)
  | autocommit (statement : σ)
  | call (txn : Nat) (rows : List (κ × δ)) (failsAfter : Option Nat)
  | commit (txn : Nat)
  | rollback (txn : Nat) (failsAfter : Option Nat)
  | maintain (upkeep : Upkeep)

/-- What statements call, and what a failed call fails them with. -/
structure Language (κ δ ν ε σ : Type) where
  calls : σ → Script κ δ ν ε PUnit
  ofStore : StoreError κ → ε
  missingKey : ν → ε

/-- A statement's call: the store after it, the rest of the statement, and what it wrote. -/
structure Called (κ δ ν ε : Type) where
  db : Db κ δ
  sequences : ν → Option UInt64
  rest : Script κ δ ν ε PUnit
  write : Option (κ × Option δ)

namespace Server

variable {κ δ ν ε σ : Type} [DecidableEq κ] [DecidableEq ν]

/-- The first call of a script. -/
def call (lang : Language κ δ ν ε σ) (s : Server κ δ ν ε) (txn : Nat) (rows : List (κ × δ)) :
    Script κ δ ν ε PUnit → Called κ δ ν ε
  | .done r => ⟨s.db, s.sequences, .done r, none⟩
  | .find key next =>
    match s.db.find txn key with
    | .ok row => ⟨s.db, s.sequences, next row.isSome, none⟩
    | .error e => ⟨s.db, s.sequences, .done (.error (lang.ofStore e)), none⟩
  | .insert key data next =>
    match s.db.insert txn ⟨key, data, none, none, false⟩ with
    | (db, .ok _) => ⟨db, s.sequences, next, some (key, some data)⟩
    | (db, .error e) => ⟨db, s.sequences, .done (.error (lang.ofStore e)), none⟩
  | .update key data next =>
    match s.db.update txn ⟨key, data, none, none, false⟩ with
    | (db, .ok _) => ⟨db, s.sequences, next, some (key, some data)⟩
    | (db, .error e) => ⟨db, s.sequences, .done (.error (lang.ofStore e)), none⟩
  | .remove key next =>
    match s.db.remove txn key with
    | (db, .ok _) => ⟨db, s.sequences, next, some (key, none)⟩
    | (db, .error e) => ⟨db, s.sequences, .done (.error (lang.ofStore e)), none⟩
  | .genKey name next =>
    match s.sequences name with
    | some n => ⟨s.db, Function.update s.sequences name (some (n + 1)), next n, none⟩
    | none => ⟨s.db, s.sequences, .done (.error (lang.missingKey name)), none⟩
  | .select _ next => ⟨s.db, s.sequences, next rows, none⟩

/-- A statement's end: a transaction of its own ends with it. -/
def finish (s : Server κ δ ν ε) (txn : Nat) (session : Session κ δ ν ε) (r : Except ε PUnit)
    (failsAfter : Option Nat) : Server κ δ ν ε :=
  match session.explicit, r with
  | true, .ok _ =>
    { s with sessions := Function.update s.sessions txn (some { session with running := none }) }
  | true, .error _ =>
    { s with
      sessions := Function.update s.sessions txn
        (some { session with running := none, spoiled := session.spoiled || session.wrote }) }
  | false, .ok _ =>
    { s with db := (s.db.commit txn).1, sessions := Function.update s.sessions txn none }
  | false, .error _ =>
    { s with db := s.db.abort txn failsAfter, sessions := Function.update s.sessions txn none }

/-- A transaction for a connection. -/
def opened (s : Server κ δ ν ε) (session : Session κ δ ν ε) : Server κ δ ν ε :=
  { s with
    db := (s.db.begin .continueOnConflict).1
    sessions := Function.update s.sessions (s.db.begin .continueOnConflict).2 (some session) }

/-- The open transaction of a connection that runs no statement. -/
def idle (s : Server κ δ ν ε) (txn : Nat) : Option (Session κ δ ν ε) :=
  (s.sessions txn).filter fun session => session.explicit && session.running.isNone

def step (lang : Language κ δ ν ε σ) (s : Server κ δ ν ε) : Event κ δ σ → Server κ δ ν ε
  | .begin => s.opened ⟨true, none, false, false⟩
  | .autocommit statement => s.opened ⟨false, some (lang.calls statement), false, false⟩
  | .start txn statement =>
    match s.idle txn with
    | none => s
    | some session =>
      { s with
        sessions := Function.update s.sessions txn
          (some { session with running := some (lang.calls statement), wrote := false }) }
  | .call txn rows failsAfter =>
    match s.sessions txn with
    | none => s
    | some session =>
      match session.running with
      | none => s
      | some (.done r) => s.finish txn session r failsAfter
      | some script =>
        let called := s.call lang txn rows script
        { db := called.db
          sequences := called.sequences
          sessions := Function.update s.sessions txn (some
            { session with
              running := some called.rest
              wrote := session.wrote || called.write.isSome }) }
  | .commit txn =>
    match s.idle txn with
    | none => s
    | some _ =>
      { s with db := (s.db.commit txn).1, sessions := Function.update s.sessions txn none }
  | .rollback txn failsAfter =>
    match s.idle txn with
    | none => s
    | some _ =>
      { s with db := s.db.abort txn failsAfter, sessions := Function.update s.sessions txn none }
  | .maintain upkeep => { s with db := s.db.step upkeep.action }

end Server

/-! ## What others' steps leave -/

section Frame

variable {κ δ : Type} [DecidableEq κ]

/-- A transaction goes on as it was. -/
structure Untouched (db db' : Db κ δ) (t : Nat) : Prop where
  active : db'.txMgr.states t = some (.active .continueOnConflict)
  own : db'.ownWrite t = db.ownWrite t
  seen : db'.seenRow t = db.seenRow t

variable {db : Db κ δ}

theorem Untouched.view {db' : Db κ δ} {t : Nat} (h : Untouched db db' t) :
    db'.view t = db.view t := by
  unfold Db.view
  rw [h.own, h.seen]

/-- A step that neither writes for a transaction nor ends it. -/
theorem untouched_step (h : DbInv db) (a : Action κ δ) {t : Nat}
    (ht : db.txMgr.states t = some (.active .continueOnConflict)) (hw : a.writer ≠ some t)
    (he : a.ends ≠ some t) : Untouched db (db.step a) t where
  active := Db.step_active h a ht he
  own := funext fun key => Db.ownWrite_step h a hw key
  seen := by
    have hlt : t < db.txMgr.clock := by
      apply h.txn.idLt
      rw [ht]
      exact Option.some_ne_none _
    exact funext fun key => Db.seenRow_step h a hlt key

theorem untouched_refl {t : Nat} (ht : db.txMgr.states t = some (.active .continueOnConflict)) :
    Untouched db db t :=
  ⟨ht, rfl, rfl⟩

end Frame

/-! ## A call -/

section Call

variable {κ δ ν ε σ : Type} [DecidableEq κ] [DecidableEq ν]

/-- What a transaction has written after a call. -/
def writtenBy (own : κ → Option (Option δ)) : Option (κ × Option δ) → κ → Option (Option δ)
  | none => own
  | some (key, v) => Function.update own key (some v)

/-- What a call of `txn` leaves: only what it wrote changes what it sees. -/
structure CallSpec (db : Db κ δ) (txn : Nat) (called : Called κ δ ν ε) : Prop where
  inv : DbInv called.db
  committed : called.db.committedRow = db.committedRow
  active : called.db.txMgr.states txn = some (.active .continueOnConflict)
  seen : called.db.seenRow txn = db.seenRow txn
  own : called.db.ownWrite txn = writtenBy (db.ownWrite txn) called.write
  others : ∀ t, t ≠ txn → db.txMgr.states t = some (.active .continueOnConflict) →
    Untouched db called.db t

omit [DecidableEq ν] in
/-- A call that reads. -/
theorem CallSpec.read {db : Db κ δ} (h : DbInv db) {txn : Nat}
    (ht : db.txMgr.states txn = some (.active .continueOnConflict)) (sequences : ν → Option UInt64)
    (rest : Script κ δ ν ε PUnit) : CallSpec db txn ⟨db, sequences, rest, none⟩ where
  inv := h
  committed := rfl
  active := ht
  seen := rfl
  own := rfl
  others _ _ hu := untouched_refl hu

omit [DecidableEq ν] in
/-- A call that writes. -/
theorem CallSpec.write {db : Db κ δ} (h : DbInv db) {txn : Nat}
    (ht : db.txMgr.states txn = some (.active .continueOnConflict)) {a : Action κ δ}
    (hw : a.writer = some txn) (he : a.ends = none) {called : Called κ δ ν ε}
    (hdb : called.db = db.step a)
    (hown : called.db.ownWrite txn = writtenBy (db.ownWrite txn) called.write) :
    CallSpec db txn called where
  inv := by
    rw [hdb]
    exact Db.inv_step db a h
  committed := by
    rw [hdb]
    refine funext fun key => Db.committedRow_step h a ?_ key
    rintro t rfl
    cases he
  active := by
    rw [hdb]
    exact Db.step_active h a ht (by rw [he]; exact nofun)
  seen := by
    have hlt : txn < db.txMgr.clock := by
      apply h.txn.idLt
      rw [ht]
      exact Option.some_ne_none _
    rw [hdb]
    exact funext fun key => Db.seenRow_step h a hlt key
  own := hown
  others t hne hu := by
    rw [hdb]
    refine untouched_step h a hu ?_ ?_
    · rw [hw]
      exact fun heq => hne (Option.some.inj heq).symm
    · rw [he]
      exact nofun

theorem Server.call_spec (lang : Language κ δ ν ε σ) {s : Server κ δ ν ε} (h : DbInv s.db)
    {txn : Nat} (ht : s.db.txMgr.states txn = some (.active .continueOnConflict))
    (rows : List (κ × δ)) (script : Script κ δ ν ε PUnit) :
    CallSpec s.db txn (s.call lang txn rows script) := by
  cases script with
  | done r => exact .read h ht _ _
  | find key next =>
    simp only [Server.call]
    split
    · exact .read h ht _ _
    · exact .read h ht _ _
  | insert key data next =>
    have hview := Db.insert_view h ht ⟨key, data, none, none, false⟩
    simp only [Server.call]
    split
    · next db' u heq =>
        rw [heq] at hview
        rcases hview with ⟨e, he, -⟩ | ⟨-, -, hown⟩
        · cases he
        · exact .write h ht (a := .insert txn ⟨key, data, none, none, false⟩) rfl rfl
            (by rw [Db.step, heq]) hown
    · next db' e heq =>
        rw [heq] at hview
        rcases hview with ⟨e, -, hown⟩ | ⟨hok, -, -⟩
        · exact .write h ht (a := .insert txn ⟨key, data, none, none, false⟩) rfl rfl
            (by rw [Db.step, heq]) hown
        · cases hok
  | update key data next =>
    have hview := Db.update_view h ht ⟨key, data, none, none, false⟩
    simp only [Server.call]
    split
    · next db' u heq =>
        rw [heq] at hview
        rcases hview with ⟨e, he, -⟩ | ⟨-, -, hown⟩
        · cases he
        · exact .write h ht (a := .update txn ⟨key, data, none, none, false⟩) rfl rfl
            (by rw [Db.step, heq]) hown
    · next db' e heq =>
        rw [heq] at hview
        rcases hview with ⟨e, -, hown⟩ | ⟨hok, -, -⟩
        · exact .write h ht (a := .update txn ⟨key, data, none, none, false⟩) rfl rfl
            (by rw [Db.step, heq]) hown
        · cases hok
  | remove key next =>
    have hview := Db.remove_view h ht key
    simp only [Server.call]
    split
    · next db' u heq =>
        rw [heq] at hview
        rcases hview with ⟨e, he, -⟩ | ⟨-, -, hown⟩
        · cases he
        · exact .write h ht (a := .remove txn key) rfl rfl (by rw [Db.step, heq]) hown
    · next db' e heq =>
        rw [heq] at hview
        rcases hview with ⟨e, -, hown⟩ | ⟨⟨old, hok⟩, -, -⟩
        · exact .write h ht (a := .remove txn key) rfl rfl (by rw [Db.step, heq]) hown
        · cases hok
  | genKey name next =>
    simp only [Server.call]
    split
    · exact .read h ht _ _
    · exact .read h ht _ _
  | select on next => exact .read h ht _ _

end Call

/-! ## The ledger -/

/-- What a transaction is to see: the rows committed as it began, the writes of its statements
that succeeded, and those of the one under way on top. -/
structure Account (κ δ : Type) where
  begun : κ → Option δ
  kept : κ → Option (Option δ)
  pending : κ → Option (Option δ)

/-- The rows that are to be committed, and each transaction's. -/
structure Ledger (κ δ : Type) where
  committed : κ → Option δ
  accounts : Nat → Account κ δ

namespace Ledger

variable {κ δ ν ε σ : Type} [DecidableEq κ] [DecidableEq ν]

/-- A transaction begins. -/
def opened (l : Ledger κ δ) (txn : Nat) : Ledger κ δ :=
  { l with accounts := Function.update l.accounts txn ⟨l.committed, fun _ => none, fun _ => none⟩ }

/-- A transaction's account is changed. -/
def change (l : Ledger κ δ) (txn : Nat) (f : Account κ δ → Account κ δ) : Ledger κ δ :=
  { l with accounts := Function.update l.accounts txn (f (l.accounts txn)) }

/-- A statement has ended: its writes are kept if it succeeded, and with a transaction of its
own committed. -/
def finish (l : Ledger κ δ) (txn : Nat) (explicit : Bool) : Except ε PUnit → Ledger κ δ
  | .error _ => l.change txn fun a => { a with pending := a.kept }
  | .ok ⟨⟩ =>
    if explicit then l.change txn fun a => { a with kept := a.pending }
    else { l with committed := overlay (l.accounts txn).pending l.committed }

/-- The ledger after an event. -/
def step (lang : Language κ δ ν ε σ) (s : Server κ δ ν ε) (l : Ledger κ δ) :
    Event κ δ σ → Ledger κ δ
  | .begin | .autocommit _ => l.opened (s.db.begin .continueOnConflict).2
  | .start _ _ | .rollback _ _ | .maintain _ => l
  | .call txn rows _ =>
    match s.sessions txn with
    | none => l
    | some session =>
      match session.running with
      | none => l
      | some (.done r) => l.finish txn session.explicit r
      | some script =>
        match (s.call lang txn rows script).write with
        | none => l
        | some (key, v) =>
          l.change txn fun a => { a with pending := Function.update a.pending key (some v) }
  | .commit txn =>
    match s.idle txn with
    | none => l
    | some _ => { l with committed := overlay (l.accounts txn).kept l.committed }

end Ledger

/-- The server with its ledger. -/
structure Tracked (κ δ ν ε : Type) where
  server : Server κ δ ν ε
  ledger : Ledger κ δ

namespace Tracked

variable {κ δ ν ε σ : Type} [DecidableEq κ] [DecidableEq ν]

def step (lang : Language κ δ ν ε σ) (s : Tracked κ δ ν ε) (e : Event κ δ σ) : Tracked κ δ ν ε :=
  ⟨s.server.step lang e, s.ledger.step lang s.server e⟩

/-- No transaction goes on, or commits, that a statement failed in once it had written. -/
def GoesOn (s : Tracked κ δ ν ε) : Event κ δ σ → Prop
  | .start txn _ | .commit txn =>
    (s.server.sessions txn).all (fun session => !session.spoiled) = true
  | _ => True

instance (s : Tracked κ δ ν ε) : DecidablePred (s.GoesOn : Event κ δ σ → Prop) := fun e => by
  cases e with
  | start txn statement => exact instDecidableEqBool _ _
  | commit txn => exact instDecidableEqBool _ _
  | begin => exact .isTrue trivial
  | autocommit statement => exact .isTrue trivial
  | call txn rows failsAfter => exact .isTrue trivial
  | rollback txn failsAfter => exact .isTrue trivial
  | maintain upkeep => exact .isTrue trivial

/-- A transaction's account tells what it wrote. -/
structure Follows (db : Db κ δ) (t : Nat) (session : Session κ δ ν ε) (a : Account κ δ) : Prop where
  active : db.txMgr.states t = some (.active .continueOnConflict)
  begun : db.seenRow t = a.begun
  pending : session.spoiled = false → db.ownWrite t = a.pending
  kept : session.spoiled = false → session.running = none ∨ session.wrote = false →
    db.ownWrite t = a.kept
  own : session.explicit = false → session.spoiled = false

/-- The ledger tells what the store has. -/
structure Inv (s : Tracked κ δ ν ε) : Prop where
  db : DbInv s.server.db
  committed : s.server.db.committedRow = s.ledger.committed
  sessions : ∀ t session, s.server.sessions t = some session →
    Follows s.server.db t session (s.ledger.accounts t)

variable {db : Db κ δ} {session : Session κ δ ν ε} {s : Tracked κ δ ν ε} {txn : Nat}
  {lang : Language κ δ ν ε σ}

omit [DecidableEq ν] in
theorem Follows.frame {db' : Db κ δ} {t : Nat} {a : Account κ δ} (h : Follows db t session a)
    (hu : Untouched db db' t) : Follows db' t session a where
  active := hu.active
  begun := hu.seen.trans h.begun
  pending hs := hu.own.trans (h.pending hs)
  kept hs hr := hu.own.trans (h.kept hs hr)
  own := h.own

section

omit [DecidableEq ν]

/-- A transaction opens. -/
theorem Inv.opened (h : Inv s) (hspoiled : session.spoiled = false) :
    Inv (⟨s.server.opened session,
      s.ledger.opened (s.server.db.begin .continueOnConflict).2⟩ : Tracked κ δ ν ε) where
  db := Db.inv_step s.server.db (.begin .continueOnConflict) h.db
  committed := by
    have hsame : (s.server.db.step (.begin .continueOnConflict)).committedRow =
        s.server.db.committedRow :=
      funext fun key => Db.committedRow_step h.db (.begin .continueOnConflict) (by simp) key
    exact hsame.trans h.committed
  sessions := by
    intro t session' ht
    simp only [Server.opened, Ledger.opened] at ht ⊢
    by_cases hnew : t = (s.server.db.begin .continueOnConflict).2
    · subst hnew
      obtain ⟨hseen, hown⟩ := Db.begin_view h.db .continueOnConflict
      rw [Function.update_self] at ht ⊢
      obtain rfl := Option.some.inj ht
      exact ⟨by simp [Db.begin, TransactionManager.createTransaction], hseen.trans h.committed,
        fun _ => hown, fun _ _ => hown, fun _ => hspoiled⟩
    · rw [Function.update_of_ne hnew] at ht ⊢
      have hold := h.sessions t session' ht
      exact hold.frame
        (untouched_step h.db (.begin .continueOnConflict) hold.active (by rintro ⟨⟩) (by rintro ⟨⟩))

/-- One transaction's session and account change, and the store as far as others go on. -/
theorem Inv.update (h : Inv s) {sequences : ν → Option UInt64}
    {session : Option (Session κ δ ν ε)} {accounts : Nat → Account κ δ} {committed : κ → Option δ}
    (hdb : DbInv db) (hcommitted : db.committedRow = committed)
    (haccounts : ∀ t, t ≠ txn → accounts t = s.ledger.accounts t)
    (hothers : ∀ t, t ≠ txn → s.server.db.txMgr.states t = some (.active .continueOnConflict) →
      Untouched s.server.db db t)
    (hsession : ∀ ss, session = some ss → Follows db txn ss (accounts txn)) :
    Inv (⟨⟨db, sequences, Function.update s.server.sessions txn session⟩,
      ⟨committed, accounts⟩⟩ : Tracked κ δ ν ε) where
  db := hdb
  committed := hcommitted
  sessions := by
    intro t ss ht
    by_cases htxn : t = txn
    · subst htxn
      have hnew : Function.update s.server.sessions t session t = some ss := ht
      rw [Function.update_self] at hnew
      exact hsession ss hnew
    · have hkept : Function.update s.server.sessions txn session t = some ss := ht
      rw [Function.update_of_ne htxn] at hkept
      have hold := h.sessions t ss hkept
      show Follows db t ss (accounts t)
      rw [haccounts t htxn]
      exact hold.frame (hothers t htxn hold.active)

/-- A transaction ends: committed with its writes, or undone. -/
theorem Inv.ended (h : Inv s) {a : Action κ δ} {accounts : Nat → Account κ δ}
    {committed : κ → Option δ} (hw : a.writer = none) (he : a.ends = some txn)
    (hcommitted : (s.server.db.step a).committedRow = committed)
    (haccounts : ∀ t, t ≠ txn → accounts t = s.ledger.accounts t) :
    Inv (⟨⟨s.server.db.step a, s.server.sequences, Function.update s.server.sessions txn none⟩,
      ⟨committed, accounts⟩⟩ : Tracked κ δ ν ε) := by
  refine h.update (Db.inv_step _ a h.db) hcommitted haccounts ?_ nofun
  intro t hne ht
  refine untouched_step h.db a ht ?_ ?_
  · rw [hw]
    exact nofun
  · rw [he]
    exact fun heq => hne (Option.some.inj heq).symm

theorem aborted_committedRow (h : DbInv db) (txn : Nat) (failsAfter : Option Nat) :
    (db.step (.abort txn failsAfter)).committedRow = db.committedRow :=
  funext fun key => Db.committedRow_step h (.abort txn failsAfter) (fun _ => nofun) key

/-- A statement ends. -/
theorem Inv.finish (h : Inv s) (hs : s.server.sessions txn = some session)
    (r : Except ε PUnit) (failsAfter : Option Nat) :
    Inv (⟨s.server.finish txn session r failsAfter,
      s.ledger.finish txn session.explicit r⟩ : Tracked κ δ ν ε) := by
  have hfollows := h.sessions txn session hs
  have hsame : ∀ t, t ≠ txn → s.server.db.txMgr.states t = some (.active .continueOnConflict) →
      Untouched s.server.db s.server.db t := fun _ _ ht => untouched_refl ht
  cases hexplicit : session.explicit with
  | true =>
    cases r with
    | ok u =>
      simp only [Server.finish, hexplicit, Ledger.finish, Ledger.change, if_true]
      refine h.update h.db h.committed (fun t ht => Function.update_of_ne ht _ _) hsame ?_
      intro ss hss
      obtain rfl := Option.some.inj hss
      rw [Function.update_self]
      exact ⟨hfollows.active, hfollows.begun, hfollows.pending,
        fun hno _ => hfollows.pending hno, fun hauto => (nomatch hauto)⟩
    | error e =>
      simp only [Server.finish, hexplicit, Ledger.finish, Ledger.change]
      refine h.update h.db h.committed (fun t ht => Function.update_of_ne ht _ _) hsame ?_
      intro ss hss
      obtain rfl := Option.some.inj hss
      rw [Function.update_self]
      have hkept : (session.spoiled || session.wrote) = false →
          s.server.db.ownWrite txn = (s.ledger.accounts txn).kept := by
        intro hno
        obtain ⟨hspoiled, hwrote⟩ := Bool.or_eq_false_iff.mp hno
        exact hfollows.kept hspoiled (Or.inr hwrote)
      exact ⟨hfollows.active, hfollows.begun, hkept, fun hno _ => hkept hno,
        fun hauto => (nomatch hauto)⟩
  | false =>
    have hspoiled := hfollows.own hexplicit
    cases r with
    | ok u =>
      simp only [Server.finish, hexplicit, Ledger.finish, Bool.false_eq_true, if_false]
      refine h.ended (a := .commit txn) rfl rfl ?_ fun _ _ => rfl
      have hcommit := Db.commit_committedRow h.db hfollows.active
      rw [hfollows.pending hspoiled, h.committed] at hcommit
      exact hcommit
    | error e =>
      simp only [Server.finish, hexplicit, Ledger.finish, Ledger.change]
      exact h.ended (a := .abort txn failsAfter) rfl rfl
        ((aborted_committedRow h.db txn failsAfter).trans h.committed)
        fun t ht => Function.update_of_ne ht _ _

end

/-- A statement's call. -/
theorem Inv.call (h : Inv s) (hs : s.server.sessions txn = some session)
    (rows : List (κ × δ)) (script : Script κ δ ν ε PUnit) :
    let called := s.server.call lang txn rows script
    Inv (⟨⟨called.db, called.sequences, Function.update s.server.sessions txn (some
        { session with
          running := some called.rest
          wrote := session.wrote || called.write.isSome })⟩,
      match called.write with
      | none => s.ledger
      | some (key, v) =>
          s.ledger.change txn fun a =>
            { a with pending := Function.update a.pending key (some v) }⟩ :
        Tracked κ δ ν ε) := by
  intro called
  have hfollows := h.sessions txn session hs
  have hspec := Server.call_spec lang h.db hfollows.active rows script
  change CallSpec s.server.db txn called at hspec
  cases hwrite : called.write with
  | none =>
    have hown := hspec.own
    rw [hwrite] at hown
    refine h.update hspec.inv (hspec.committed.trans h.committed) (fun _ _ => rfl)
      hspec.others ?_
    intro ss hss
    obtain rfl := Option.some.inj hss
    refine ⟨hspec.active, hspec.seen.trans hfollows.begun,
      fun hno => hown.trans (hfollows.pending hno), ?_, hfollows.own⟩
    rintro hno (hidle | hwrote)
    · cases hidle
    · rw [Option.isSome_none, Bool.or_false] at hwrote
      exact hown.trans (hfollows.kept hno (Or.inr hwrote))
  | some write =>
    obtain ⟨key, v⟩ := write
    have hown := hspec.own
    rw [hwrite] at hown
    refine h.update hspec.inv (hspec.committed.trans h.committed)
      (fun t ht => Function.update_of_ne ht _ _) hspec.others ?_
    intro ss hss
    obtain rfl := Option.some.inj hss
    rw [Function.update_self]
    refine ⟨hspec.active, hspec.seen.trans hfollows.begun, ?_, ?_, hfollows.own⟩
    · intro hno
      rw [hown, hfollows.pending hno]
      rfl
    · rintro hno (hidle | hwrote)
      · cases hidle
      · rw [Option.isSome_some, Bool.or_true] at hwrote
        cases hwrote

omit [DecidableEq ν] in
/-- A statement begins in an open transaction. -/
theorem Inv.start (h : Inv s) (hs : s.server.sessions txn = some session)
    (hidle : session.running = none) (script : Script κ δ ν ε PUnit) :
    Inv (⟨⟨s.server.db, s.server.sequences, Function.update s.server.sessions txn
      (some { session with running := some script, wrote := false })⟩, s.ledger⟩ :
        Tracked κ δ ν ε) := by
  have hfollows := h.sessions txn session hs
  refine h.update h.db h.committed (fun _ _ => rfl) (fun _ _ ht => untouched_refl ht) ?_
  intro ss hss
  obtain rfl := Option.some.inj hss
  exact ⟨hfollows.active, hfollows.begun, hfollows.pending,
    fun hno _ => hfollows.kept hno (Or.inl hidle), hfollows.own⟩

omit [DecidableEq κ] [DecidableEq ν] in
theorem idle_eq_some {s : Server κ δ ν ε} (h : s.idle txn = some session) :
    s.sessions txn = some session ∧ session.explicit = true ∧ session.running = none := by
  obtain ⟨hs, hopen⟩ := Option.filter_eq_some_iff.mp h
  rw [Bool.and_eq_true, Option.isNone_iff_eq_none] at hopen
  exact ⟨hs, hopen.1, hopen.2⟩

theorem inv_step (s : Tracked κ δ ν ε) (e : Event κ δ σ) (h : Inv s) (hok : s.GoesOn e) :
    Inv (s.step lang e) := by
  cases e with
  | begin => exact h.opened rfl
  | autocommit statement => exact h.opened rfl
  | start txn statement =>
    simp only [step, Server.step, Ledger.step]
    split
    · exact h
    · next session hs =>
        obtain ⟨hs, -, hidle⟩ := idle_eq_some hs
        exact h.start hs hidle _
  | call txn rows failsAfter =>
    simp only [step, Server.step, Ledger.step]
    cases hs : s.server.sessions txn with
    | none => exact h
    | some session =>
      dsimp only
      cases hrunning : session.running with
      | none => exact h
      | some script =>
        cases script with
        | done r => exact h.finish hs r failsAfter
        | find | insert | update | remove | genKey | select => exact h.call hs rows _
  | commit txn =>
    simp only [step, Server.step, Ledger.step]
    cases hs : s.server.idle txn with
    | none => exact h
    | some session =>
      obtain ⟨hs, -, hidle⟩ := idle_eq_some hs
      have hfollows := h.sessions txn session hs
      refine h.ended (a := .commit txn) rfl rfl ?_ fun _ _ => rfl
      have hcommit := Db.commit_committedRow h.db hfollows.active
      have hgood : session.spoiled = false := by
        have hall : (s.server.sessions txn).all (fun ss => !ss.spoiled) = true := hok
        rw [hs] at hall
        simpa using hall
      rw [hfollows.kept hgood (Or.inl hidle), h.committed] at hcommit
      exact hcommit
  | rollback txn failsAfter =>
    simp only [step, Server.step, Ledger.step]
    cases hs : s.server.idle txn with
    | none => exact h
    | some session =>
      exact h.ended (a := .abort txn failsAfter) rfl rfl
        ((aborted_committedRow h.db txn failsAfter).trans h.committed) fun _ _ => rfl
  | maintain upkeep =>
    have hends : (upkeep.action : Action κ δ).ends = none := by cases upkeep <;> rfl
    have hwriter : (upkeep.action : Action κ δ).writer = none := by cases upkeep <;> rfl
    constructor
    · exact Db.inv_step _ _ h.db
    · refine (funext fun key => Db.committedRow_step h.db upkeep.action ?_ key).trans h.committed
      rintro t heq
      rw [heq] at hends
      cases hends
    · intro t session ht
      have hold := h.sessions t session ht
      refine hold.frame (untouched_step h.db upkeep.action hold.active ?_ ?_)
      · rw [hwriter]
        exact nofun
      · rw [hends]
        exact nofun

/-- The server with no transaction open, and a ledger of what is committed. -/
def opening (db : Db κ δ) (sequences : ν → Option UInt64) : Tracked κ δ ν ε :=
  ⟨⟨db, sequences, fun _ => none⟩,
    ⟨db.committedRow, fun _ => ⟨fun _ => none, fun _ => none, fun _ => none⟩⟩⟩

omit [DecidableEq ν] in
theorem inv_opening (h : DbInv db) (sequences : ν → Option UInt64) :
    Inv (opening db sequences : Tracked κ δ ν ε) := ⟨h, rfl, nofun⟩

/-- While no transaction goes on after a statement that failed once it had written, the ledger
tells what is committed and what every transaction finds. -/
theorem inv_of_reachable (hdb : Db.Reachable db) {sequences : ν → Option UInt64}
    (h : Reachable (step lang) GoesOn (opening db sequences) s) : Inv s :=
  h.invariant (inv_opening (Db.inv_of_reachable hdb) sequences) fun s e hs hok =>
    inv_step s e hs hok

end Tracked

end SquealDb.Store
