import Mathlib.Data.List.Dedup
import Mathlib.Data.List.Sort
import Mathlib.Logic.Function.Basic

/-!
# Table locks

`conn/tablelock.rs` and `StatementLocks` of `stmt.rs`: any number of connections run
statements, one at a time each, and a statement takes the locks of the tables it names
before it runs.  A step here is what a connection does under one lock's mutex, or between
two of these, so that the steps of all connections come in any order.

Whether a request that waits is refused is decided by a search for a cycle of waits, which
reads the locks one by one while they change, or by the clock: it may be refused at any
time.

## Main definitions

* `State.blockers` — who a request has to wait for.
* `Statement.requests` — the locks `StatementLocks::take` asks for.
* `step` — one step of one connection.
-/

namespace SquealDb.Conn.TableLock

variable {Owner Lock : Type*}

/-! ## One lock -/

/-- `State` of a `TableLock`.  An owner is in `shared` once for every time it holds it. -/
structure State (Owner : Type*) where
  shared : List Owner
  exclusive : Option Owner
  /-- Owners waiting for it exclusively: new shared requests queue behind them. -/
  waiting : List Owner

namespace State

/-- `State::default`. -/
def new : State Owner where
  shared := []
  exclusive := none
  waiting := []

variable [DecidableEq Owner]

/-- Who `owner` must wait for to get the lock. -/
def blockers (s : State Owner) (owner : Owner) (exclusive : Bool) : List Owner :=
  ((s.exclusive.toList ++ if exclusive then s.shared else s.waiting).filter
    (fun o => o ≠ owner)).dedup

/-- Others who hold the lock exclusively; for an exclusive request also those who hold it
shared, and for a shared one those who are queued for it exclusively. -/
theorem mem_blockers {s : State Owner} {owner b : Owner} {exclusive : Bool} :
    b ∈ s.blockers owner exclusive ↔ b ≠ owner ∧ (s.exclusive = some b ∨
      if exclusive = true then b ∈ s.shared else b ∈ s.waiting) := by
  unfold blockers
  rw [List.mem_dedup, List.mem_filter, List.mem_append, Option.mem_toList, decide_eq_true_iff,
    and_comm]
  cases exclusive with
  | false => rfl
  | true => rfl

/-- What `acquire` does before it looks at the lock. -/
def queue (s : State Owner) (owner : Owner) (exclusive : Bool) : State Owner :=
  if exclusive then { s with waiting := s.waiting ++ [owner] } else s

/-- `acquire` takes its request out of the queue again. -/
def leave (s : State Owner) (owner : Owner) (exclusive : Bool) : State Owner :=
  if exclusive then { s with waiting := s.waiting.erase owner } else s

/-- `acquire` succeeds. -/
def grant (s : State Owner) (owner : Owner) (exclusive : Bool) : State Owner :=
  if exclusive then { s.leave owner exclusive with exclusive := some owner }
  else { s with shared := owner :: s.shared }

/-- `SharedGuard::drop`. -/
def dropShared (s : State Owner) (owner : Owner) : State Owner :=
  { s with shared := s.shared.erase owner }

/-- `ExclusiveGuard::drop`. -/
def dropExclusive (s : State Owner) : State Owner :=
  { s with exclusive := none }

end State

/-! ## Statements -/

/-- A statement, as far as `StatementLocks::take` looks at it.  A table it names stands as
`lock_of` resolves it: the lock of a real table, or none. -/
inductive Statement (Lock : Type*) where
  | alterTable (name : Option Lock)
  | createIndex (table : Option Lock)
  | dropTable (names : List (Option Lock))
  | insert (relations : List (Option Lock))
  | update (relations : List (Option Lock))
  | delete (relations : List (Option Lock))
  | copyInto (relations : List (Option Lock))
  | truncate (relations : List (Option Lock))
  | select (relations : List (Option Lock))
  | startTransaction
  | commit
  | rollback
  /-- Any other, such as `EXPLAIN`, `DESCRIBE TABLE` or `ANALYZE TABLE`: it takes no lock. -/
  | other (relations : List (Option Lock))

namespace Statement

/-- The tables whose definition the statement changes. -/
def targets : Statement Lock → List Lock
  | alterTable name => name.toList
  | createIndex table => table.toList
  | dropTable names => names.filterMap id
  | _ => []

/-- The statement depends on the tables it names staying as they are. -/
def depends (inTxn : Bool) : Statement Lock → Bool
  | insert _ | update _ | delete _ | copyInto _ | truncate _ => true
  | select _ => inTxn
  | _ => false

/-- The tables the statement names. -/
def relations : Statement Lock → List Lock
  | alterTable name => name.toList
  | createIndex table => table.toList
  | dropTable names => names.filterMap id
  | insert relations | update relations | delete relations | copyInto relations
  | truncate relations | select relations | other relations => relations.filterMap id
  | startTransaction | commit | rollback => []

end Statement

/-- A lock `StatementLocks::take` asks for: exclusively, for the transaction, or for the
statement. -/
inductive Request (Lock : Type*) where
  | exclusive (lock : Lock)
  | hold (lock : Lock)
  | shared (lock : Lock)
  deriving DecidableEq

/-- The locks `StatementLocks::take` asks for, in this order. -/
def Statement.requests [LinearOrder Lock] (stmt : Statement Lock) (inTxn : Bool) :
    List (Request Lock) :=
  let wanted := (stmt.relations.insertionSort (· ≤ ·)).dedup
  stmt.targets.map .exclusive ++
    if stmt.depends inTxn then wanted.map (if inTxn then .hold else .shared) else []

/-! ## Connections -/

structure StatementLocks (Lock : Type*) where
  shared : List Lock
  exclusive : List Lock
  /-- Locks the transaction gave up for the statement's exclusive one. -/
  resume : List Lock

/-- How far a connection is with its statement. -/
inductive Phase (Lock : Type*) where
  | idle
  /-- `StatementLocks::take`, with these requests still to make. -/
  | taking (stmt : Statement Lock) (todo : List (Request Lock))
  | running (stmt : Statement Lock)
  /-- `HeldLocks::release_all`. -/
  | ending
  /-- `StatementLocks::drop`: the exclusive locks go. -/
  | clearing
  /-- `StatementLocks::drop`: the locks that were given up are taken back. -/
  | resuming
  /-- The shared locks of the statement go. -/
  | releasing

/-- A connection, as far as its locks go. -/
structure Connection (Lock : Type*) where
  /-- `current_txn` is some. -/
  inTxn : Bool
  /-- `txn_locks`. -/
  held : List Lock
  locks : StatementLocks Lock
  phase : Phase Lock
  /-- The request that waits in `acquire`. -/
  asked : Option (Lock × Bool)
  /-- The tables that the transaction's statements have used.  No step reads this. -/
  used : List Lock

namespace Connection

def new : Connection Lock where
  inTxn := false
  held := []
  locks := ⟨[], [], []⟩
  phase := .idle
  asked := none
  used := []

variable [DecidableEq Lock]

/-- The lock the connection asks for next, and whether exclusively.  A lock the transaction
holds is not asked for again, and is given up before it is asked for exclusively. -/
def wants (c : Connection Lock) : Option (Lock × Bool) :=
  match c.phase with
  | .taking _ (.exclusive l :: _) => if l ∈ c.held then none else some (l, true)
  | .taking _ (.hold l :: _) => if l ∈ c.held then none else some (l, false)
  | .taking _ (.shared l :: _) => some (l, false)
  | .resuming =>
    match c.locks.resume with
    | [] => none
    | l :: _ => if l ∈ c.held then none else some (l, false)
  | _ => none

/-- What becomes of the connection when it gets the lock it wants. -/
def granted (c : Connection Lock) : Connection Lock :=
  match c.phase with
  | .taking stmt (.exclusive l :: todo) =>
    { c with
      phase := .taking stmt todo
      locks := { c.locks with exclusive := c.locks.exclusive ++ [l] } }
  | .taking stmt (.hold l :: todo) =>
    { c with phase := .taking stmt todo, held := l :: c.held }
  | .taking stmt (.shared l :: todo) =>
    { c with
      phase := .taking stmt todo
      locks := { c.locks with shared := c.locks.shared ++ [l] } }
  | .resuming =>
    match c.locks.resume with
    | [] => c
    | l :: rest => { c with held := l :: c.held, locks := { c.locks with resume := rest } }
  | _ => c

/-- What becomes of the connection when it is refused the lock it wants: the statement
fails, but a lock that was given up is let go. -/
def refused (c : Connection Lock) : Connection Lock :=
  match c.phase with
  | .resuming => { c with locks := { c.locks with resume := c.locks.resume.tail } }
  | _ => { c with phase := .clearing }

end Connection

/-! ## The steps -/

/-- The locks of a schema's tables, the requests that wait (`WAITS`) and the
connections. -/
structure World (Owner Lock : Type*) where
  locks : Lock → State Owner
  waits : Owner → Option (Lock × Bool)
  conns : Owner → Connection Lock

/-- No connection has run a statement. -/
def World.new : World Owner Lock where
  locks := fun _ => State.new
  waits := fun _ => none
  conns := fun _ => Connection.new

namespace World

variable [DecidableEq Owner] [DecidableEq Lock]

/-- Connection `o` and lock `l` change. -/
def set (w : World Owner Lock) (o : Owner) (c : Connection Lock) (l : Lock)
    (s : State Owner) : World Owner Lock where
  locks := Function.update w.locks l s
  waits := Function.update w.waits o c.asked
  conns := Function.update w.conns o c

/-- Connection `o` alone changes. -/
def setConn (w : World Owner Lock) (o : Owner) (c : Connection Lock) : World Owner Lock :=
  { w with conns := Function.update w.conns o c }

/-- A turn of `acquire`'s loop: the request is queued when it begins, and is granted where
nobody blocks it. -/
def acquire (w : World Owner Lock) (o : Owner) (l : Lock) (exclusive : Bool) :
    World Owner Lock :=
  let c := w.conns o
  let s := if c.asked = none then (w.locks l).queue o exclusive else w.locks l
  if s.blockers o exclusive = [] then
    w.set o { c.granted with asked := none } l (s.grant o exclusive)
  else
    w.set o { c with asked := some (l, exclusive) } l s

/-- `acquire` gives up: it found a deadlock, or has waited too long. -/
def refuse (w : World Owner Lock) (o : Owner) : World Owner Lock :=
  match (w.conns o).asked with
  | none => w
  | some (l, exclusive) =>
    w.set o { (w.conns o).refused with asked := none } l ((w.locks l).leave o exclusive)

/-- A step of `o`'s statement that asks for no lock. -/
def advance (w : World Owner Lock) (o : Owner) : World Owner Lock :=
  let c := w.conns o
  match c.phase with
  | .idle => w
  | .taking _ (.exclusive l :: _) =>
    -- the transaction gives its own lock up: `HeldLocks::release`
    w.set o { c with
        held := c.held.erase l
        locks := { c.locks with resume := c.locks.resume ++ [l] } } l
      ((w.locks l).dropShared o)
  | .taking stmt (_ :: todo) => w.setConn o { c with phase := .taking stmt todo }
  | .taking stmt [] =>
    w.setConn o { c with
      phase := .running stmt
      used := if c.inTxn then stmt.relations ++ c.used else c.used }
  | .running .startTransaction => w.setConn o { c with inTxn := true, phase := .clearing }
  | .running .commit | .running .rollback =>
    if c.inTxn then w.setConn o { c with inTxn := false, used := [], phase := .ending }
    else w.setConn o { c with phase := .clearing }
  | .running _ => w.setConn o { c with phase := .clearing }
  | .ending => if c.held = [] then w.setConn o { c with phase := .clearing } else w
  | .clearing =>
    match c.locks.exclusive with
    | [] => w.setConn o { c with phase := .resuming }
    | l :: rest =>
      w.set o { c with locks := { c.locks with exclusive := rest } } l
        (w.locks l).dropExclusive
  | .resuming =>
    match c.locks.resume with
    | [] => w.setConn o { c with phase := .releasing }
    | _ :: rest => w.setConn o { c with locks := { c.locks with resume := rest } }
  | .releasing =>
    match c.locks.shared with
    | [] => w.setConn o { c with phase := .idle }
    | l :: rest =>
      w.set o { c with locks := { c.locks with shared := rest } } l
        ((w.locks l).dropShared o)

/-- `o`'s statement goes on. -/
def proceed (w : World Owner Lock) (o : Owner) : World Owner Lock :=
  match (w.conns o).wants with
  | some (l, exclusive) => w.acquire o l exclusive
  | none => w.advance o

/-- `release_all` drops one of the transaction's locks; the map's order is not specified. -/
def release (w : World Owner Lock) (o : Owner) (l : Lock) : World Owner Lock :=
  let c := w.conns o
  match c.phase with
  | .ending =>
    if l ∈ c.held then
      w.set o { c with held := c.held.erase l } l ((w.locks l).dropShared o)
    else w
  | _ => w

end World

/-- What a connection does next. -/
inductive Action (Owner Lock : Type*) where
  /-- `Statement::execute` comes to its next statement. -/
  | start (o : Owner) (stmt : Statement Lock)
  | proceed (o : Owner)
  | refuse (o : Owner)
  | release (o : Owner) (l : Lock)

/-- One step of one connection; a step that it cannot take changes nothing. -/
def step [DecidableEq Owner] [LinearOrder Lock] (w : World Owner Lock) :
    Action Owner Lock → World Owner Lock
  | .start o stmt =>
    let c := w.conns o
    match c.phase with
    | .idle => w.setConn o { c with phase := .taking stmt (stmt.requests c.inTxn) }
    | _ => w
  | .proceed o => w.proceed o
  | .refuse o => w.refuse o
  | .release o l => w.release o l

end SquealDb.Conn.TableLock
