import SquealDb.Tree.Splits

/-!
# The descents of lookups and writes

Any number of threads over one tree.  A lookup runs `route_to_leaf_id`: it reads one page
after another and holds no lock.  A write runs `leaf_for_write`: it is routed to its leaf
by unlocked reads and locks only that, or goes down from the root with a lock on the page
and on the child, and splits full pages on the way.  A split publishes the new sibling,
then the page, and then the parent, which stays locked throughout; the root's publishes
the left half, the right half, and the root.  Which pages are full, and where they are
cut, is left open.

The keys of the tree are below its sentinel `Int(u64::MAX)`.
-/

namespace SquealDb.Tree

section Model

variable {κ ρ : Type*} [LinearOrder κ] [BoundedOrder κ]

omit [BoundedOrder κ] in
/-- The row that a leaf's rows have for a key. -/
def rowAt (rows : List (κ × ρ)) (id : κ) : Option ρ :=
  (rows.find? fun e => decide (e.1 = id)).map Prod.snd

/-- The rows with another row for the key, or without one. -/
def putRow (rows : List (κ × ρ)) (id : κ) : Option ρ → List (κ × ρ)
  | some row =>
    if id ∈ rows.map Prod.fst then replaceEntry id row rows else addEntry (id, row) rows
  | none => rows.filter fun e => decide (e.1 ≠ id)

/-- Where a thread is. -/
inductive Thread (κ ρ : Type*) where
  | idle
  /-- `route_to_leaf_id`, about to read a page. -/
  | looking (id : κ) (current : PageId)
  /-- The page that a lookup ended at, as it was read. -/
  | found (id : κ) (leaf : Page κ ρ)
  /-- The unlocked descent of `leaf_for_write`. -/
  | routing (id : κ) (current : PageId)
  | locking (id : κ) (leaf : PageId)
  | holding (id : κ) (leaf : PageId)
  /-- About to lock the root, for the root's own check. -/
  | slow (id : κ)
  | rooted (id : κ)
  /-- `split_root_page`: the left half is published. -/
  | growing (id : κ) (mid : Nat) (left right : PageId)
  /-- And the right half. -/
  | grown (id : κ) (mid : Nat) (left right : PageId)
  /-- About to lock the root, for `descend_for_write`. -/
  | reentering (id : κ)
  /-- `descend_for_write`, with the page locked. -/
  | descending (id : κ) (page : PageId)
  /-- About to lock the child that the page routes to. -/
  | entering (id : κ) (parent child : PageId)
  /-- `split_if_needed`, with both locked. -/
  | checking (id : κ) (parent child : PageId)
  /-- `split_non_root_page`: the new sibling is published. -/
  | splitting (id : κ) (parent child sibling : PageId) (mid : Nat)
  /-- And the page; about to lock the one of the two that covers the key. -/
  | adopting (id : κ) (parent child sibling : PageId) (separator : κ)
  /-- About to publish the parent. -/
  | moving (id : κ) (parent child sibling : PageId) (separator : κ) (target : PageId)
  deriving DecidableEq

/-- What a thread finds at a check that depends on sizes: room, a full page, or (in
`write_in_leaf`) that it must ask for more room and begin again. -/
inductive Check where
  | room
  | full
  | again

structure State (κ ρ : Type*) where
  store : PageId → Page κ ρ
  root : PageId
  /-- The pages from here on have not been allocated. -/
  alloc : PageId
  lock : PageId → Option Nat
  thread : Nat → Thread κ ρ

inductive Action (κ ρ : Type*) where
  | lookup (t : Nat) (id : κ)
  | write (t : Nat) (id : κ)
  | finish (t : Nat)
  /-- One step of a thread: what it finds at a check, where it would cut, and what it
  decides for the row under its key, given the row that is there. -/
  | advance (t : Nat) (check : Check) (mid : Nat) (decide : Option ρ → Option ρ)

/-- The separator of a cut that leaves entries on both sides. -/
def Page.cut (page : Page κ ρ) (mid : Nat) : Option κ :=
  if 0 < mid ∧ mid < page.content.keys.length then page.separator mid else none

namespace State

variable (s : State κ ρ)

def goto (t : Nat) (th : Thread κ ρ) : State κ ρ :=
  { s with thread := Function.update s.thread t th }

def acquire (t : Nat) (p : PageId) :
    State κ ρ := { s with lock := Function.update s.lock p (some t) }

def release (p : PageId) : State κ ρ := { s with lock := Function.update s.lock p none }

def publish (p : PageId) (page : Page κ ρ) : State κ ρ :=
  { s with store := Function.update s.store p page }

/-- A lock is waited for. -/
def lockThen (t : Nat) (p : PageId) (th : Thread κ ρ) : State κ ρ :=
  if s.lock p = none then (s.acquire t p).goto t th else s

/-- The write itself, on its leaf. -/
def writeLeaf (t : Nat) (id : κ) (decide : Option ρ → Option ρ) (p : PageId)
    (rows : List (κ × ρ)) : State κ ρ :=
  ((s.publish p ((s.store p).withRows (putRow rows id (decide (rowAt rows id))))).release p).goto t
    .idle

/-- A thread goes on by one page read, one lock or one publication. -/
def advance (t : Nat) (check : Check) (mid : Nat) (decide : Option ρ → Option ρ) : State κ ρ :=
  match s.thread t with
  | .idle => s
  | .found _ _ => s
  | .looking id p =>
    match (s.store p).hop id with
    | some q => s.goto t (.looking id q)
    | none => s.goto t (.found id (s.store p))
  | .routing id p =>
    match (s.store p).hop id with
    | some q => s.goto t (.routing id q)
    | none => s.goto t (.locking id p)
  | .locking id p => s.lockThen t p (.holding id p)
  | .holding id p =>
    match (s.store p).content, (s.store p).beyond id, check with
    -- the root was split meanwhile
    | .inner _, _, .full => (s.release p).goto t (.slow id)
    | .inner _, _, _ => (s.release p).goto t (.routing id s.root)
    | .leaf _, some q, _ => (s.release p).goto t (.locking id q)
    | .leaf _, none, .full => (s.release p).goto t (.slow id)
    | .leaf _, none, .again => (s.release p).goto t (.routing id s.root)
    | .leaf rows, none, .room => s.writeLeaf t id decide p rows
  | .slow id => s.lockThen t s.root (.rooted id)
  | .rooted id =>
    match check, (s.store s.root).cut mid with
    | .full, some sep =>
      ({ s with alloc := s.alloc + 2 }.publish s.alloc
        ((s.store s.root).kept mid sep (s.alloc + 1))).goto t
        (.growing id mid s.alloc (s.alloc + 1))
    | .full, none => (s.release s.root).goto t .idle
    | _, _ => (s.release s.root).goto t (.reentering id)
  | .growing id mid left right =>
    (s.publish right ((s.store s.root).moved mid)).goto t (.grown id mid left right)
  | .grown id mid left right =>
    match (s.store s.root).separator mid with
    | some sep =>
      ((s.publish s.root ((s.store s.root).promoted sep left right)).release s.root).goto t
        (.reentering id)
    | none => s
  | .reentering id => s.lockThen t s.root (.descending id s.root)
  | .descending id p =>
    match (s.store p).content, check with
    | .leaf _, .full =>
      if p = s.root then s.goto t (.rooted id) else (s.release p).goto t (.slow id)
    | .leaf _, .again => (s.release p).goto t (.routing id s.root)
    | .leaf rows, .room => s.writeLeaf t id decide p rows
    | .inner _, .full => (s.release p).goto t (.slow id)
    | .inner children, _ =>
      match successorOrLast children id with
      | some (_, c) => s.goto t (.entering id p c)
      | none => (s.release p).goto t .idle
  | .entering id p c => s.lockThen t c (.checking id p c)
  | .checking id p c =>
    match check, (s.store c).cut mid with
    | .full, some _ =>
      ({ s with alloc := s.alloc + 1 }.publish s.alloc ((s.store c).moved mid)).goto t
        (.splitting id p c s.alloc mid)
    | .full, none => ((s.release c).release p).goto t .idle
    | _, _ => (s.release p).goto t (.descending id c)
  | .splitting id p c q mid =>
    match (s.store c).separator mid with
    | some sep =>
      ((s.publish c ((s.store c).kept mid sep q)).release c).goto t (.adopting id p c q sep)
    | none => s
  | .adopting id p c q sep =>
    s.lockThen t (if id < sep then c else q)
      (.moving id p c q sep (if id < sep then c else q))
  | .moving id p c q sep target =>
    match (s.store p).content with
    | .inner children =>
      match successorOrLast children id with
      | some (k, _) =>
        ((s.publish p ((s.store p).withChildren (adopt children k sep c q))).release p).goto t
          (.descending id target)
      | none => s
    | .leaf _ => s

def step : Action κ ρ → State κ ρ
  | .lookup t id =>
    match s.thread t with
    | .idle => s.goto t (.looking id s.root)
    | _ => s
  | .write t id =>
    match s.thread t with
    | .idle => if id < ⊤ then s.goto t (.routing id s.root) else s
    | _ => s
  | .finish t =>
    match s.thread t with
    | .found _ _ => s.goto t .idle
    | _ => s
  | .advance t check mid decide => s.advance t check mid decide

/-- `BPlusTree::new`: the root is an empty leaf. -/
def new (root : PageId) : State κ ρ where
  store _ := ⟨.leaf [], none, none⟩
  root := root
  alloc := root + 1
  lock _ := none
  thread _ := .idle

end State

/-- The pages of a tree, found from its root along children and links. -/
inductive Reaches (store : PageId → Page κ ρ) (root : PageId) : PageId → Prop
  | root : Reaches store root root
  | child {p c : PageId} {children : List (κ × PageId)} {k : κ} : Reaches store root p →
      (store p).content = .inner children → (k, c) ∈ children → Reaches store root c
  | next {p q : PageId} : Reaches store root p → (store p).nextPage = some q →
      Reaches store root q

/-- A leaf of the tree has the key. -/
def State.Contains (s : State κ ρ) (id : κ) : Prop :=
  ∃ p rows, Reaches s.store s.root p ∧ (s.store p).content = .leaf rows ∧ id ∈ rows.map Prod.fst

end Model

end SquealDb.Tree
