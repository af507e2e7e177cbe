import Mathlib.Data.Fintype.Basic
import Mathlib.Logic.Function.Basic
import SquealDb.Lib.Run

/-!
# The page cache

The cache of `PageBuffer` of `buffer.rs`: a page's entry is `Strong` while the cache
holds the page, and `Weak` once it was evicted.  Any number of threads read pages and
write them under the page's lock; one checkpoint at a time copies the dirty pages and
writes the copies; a sweep evicts.

A page is shared by reference, so that what a thread holds and what the cache holds may
be the same page or not.  Of a page's contents only their age is kept: `ver` grows with
every change, and the file keeps the age of what was written.  `published` and `latest`
say which version, and which page, a writer installed last; no step reads them.

Every critical section of a shard is one step, and so is every access to the file.  In
what order the sweep takes up pages, and when it does, is left open, as is how many
pages fit.  The counters of `u64`s do not wrap.  A writer that leaves the page as it was
gives its handle back; one that changed it installs it.  Left out are the pages written
at once (`write_page`) and those newly allocated.
-/

namespace SquealDb.Cache

abbrev PageId := UInt64

def bufferShardCount : Nat := 16

def shardIndex (page : PageId) : Nat :=
  ((page * 0xD6E8FEB86659FD93) >>> 32).toNat % bufferShardCount

/-- A `Page`, as far as the cache sees it. -/
structure CachedPage where
  page : PageId
  ver : Nat
  dirtyVersion : Nat
  flushedVersion : Nat
  referenced : Bool
  deriving DecidableEq, Repr

def CachedPage.isDirty (a : CachedPage) : Bool := a.dirtyVersion != a.flushedVersion

/-- `PageEntry`, by the number of the page it refers to. -/
inductive PageEntry where
  | strong (arc : Nat)
  | weak (arc : Nat)
  deriving DecidableEq, Repr

/-- A call of `get_page`: by `get_page_mut`, under the page's lock, or by a reader; and
the version that was the last published one when it was made. -/
structure Call where
  page : PageId
  forWrite : Bool
  since : Nat
  deriving DecidableEq, Repr

/-- Where a thread is.  What it saw of the entry comes with the shard's write epoch at
that moment, and with the version that was the last published one. -/
inductive Thread where
  | idle
  | looking (c : Call)
  | sawWeak (c : Call) (arc epoch seen : Nat)
  | upgraded (c : Call) (arc seen : Nat)
  | pruning (c : Call) (epoch : Nat)
  | reading (c : Call) (epoch : Nat)
  | loaded (c : Call) (ver epoch : Nat)
  | returned (c : Call) (arc : Nat)
  | holding (page : PageId) (arc : Nat)
  deriving DecidableEq, Repr

namespace Thread

/-- A thread keeps the page alive. -/
def holds (arc : Nat) : Thread → Bool
  | upgraded _ a _ | returned _ a | holding _ a => a == arc
  | _ => false

/-- A thread has the writer's permit, with the page's lock. -/
def writing : Thread → Bool
  | looking c | sawWeak c _ _ _ | upgraded c _ _ | pruning c _ | reading c _ | loaded c _ _ =>
    c.forWrite
  | holding _ _ => true
  | _ => false

end Thread

structure CapturedPage where
  page : PageId
  copy : Nat
  live : Nat
  version : Nat
  deriving DecidableEq, Repr

/-- The cache, the page locks, the pages by their numbers, the data file, the checkpoint
under way and the threads. -/
structure PageCache (τ : Type) where
  entries : PageId → Option PageEntry
  writeEpochs : Nat → Nat
  locks : PageId → Option τ
  arcs : Nat → CachedPage
  nextArc : Nat
  file : PageId → Nat
  toWrite : List CapturedPage
  toMark : List CapturedPage
  threads : τ → Thread
  published : PageId → Nat
  latest : PageId → Option Nat

/-- One step. -/
inductive CacheAction (τ : Type) where
  | getPage (t : τ) (page : PageId)
  | getPageMut (t : τ) (page : PageId)
  | advance (t : τ)
  | mutate (t : τ)
  | makeMut (t : τ)
  | publish (t : τ)
  | giveBack (t : τ)
  | release (t : τ)
  | evictOne (page : PageId)
  | captureDirtyPages (pages : List PageId)
  | writeCaptured
  | markFlushed
  | checkpointFails

namespace PageCache

variable {τ : Type}

/-- Nothing cached, and no thread at work. -/
def init : PageCache τ :=
  ⟨fun _ => none, fun _ => 0, fun _ => none, fun _ => ⟨0, 0, 0, 0, false⟩, 0, fun _ => 0, [], [],
    fun _ => .idle, fun _ => 0, fun _ => none⟩

section Pages

variable (s : PageCache τ)

def writeEpoch (page : PageId) : Nat := s.writeEpochs (shardIndex page)

def setArc (arc : Nat) (a : CachedPage) : PageCache τ :=
  { s with arcs := Function.update s.arcs arc a }

def markReferenced (arc : Nat) : PageCache τ :=
  s.setArc arc { s.arcs arc with referenced := true }

def setEntry (page : PageId) (e : Option PageEntry) : PageCache τ :=
  { s with entries := Function.update s.entries page e }

/-- `Arc::new`; the page's number is `nextArc`. -/
def alloc (a : CachedPage) : PageCache τ :=
  { s with arcs := Function.update s.arcs s.nextArc a, nextArc := s.nextArc + 1 }

/-- `install` with `ReuseIfPresent`: the page that is cached now. -/
def installed (page : PageId) (arc : Nat) : Nat :=
  match s.entries page with
  | some (.strong b) => b
  | _ => arc

/-- `install` with `ReuseIfPresent`. -/
def install (page : PageId) (arc : Nat) : PageCache τ :=
  match s.entries page with
  | some (.strong b) => s.markReferenced b
  | _ => (s.markReferenced arc).setEntry page (some (.strong arc))

/-- `evict_one`, at this victim. -/
def evictOne (page : PageId) : PageCache τ :=
  match s.entries page with
  | some (.strong a) =>
    if (s.arcs a).referenced then s.setArc a { s.arcs a with referenced := false }
    else if (s.arcs a).isDirty then s
    else s.setEntry page (some (.weak a))
  | _ => s

/-- What a checkpoint keeps of a page, if it is dirty. -/
def capturedPage (page : PageId) : Option CapturedPage :=
  match s.entries page with
  | some (.strong a) =>
    if (s.arcs a).isDirty then some ⟨page, (s.arcs a).ver, a, (s.arcs a).dirtyVersion⟩ else none
  | _ => none

/-- `write_captured` writes the next copy. -/
def writeCaptured : PageCache τ :=
  match s.toWrite with
  | [] => s
  | c :: rest =>
    { s with
      file := Function.update s.file c.page c.copy
      toWrite := rest
      toMark := s.toMark ++ [c] }

/-- With all copies synced, the next page is marked clean as of its copy:
`mark_flushed_up_to`. -/
def markFlushed : PageCache τ :=
  match s.toWrite, s.toMark with
  | [], c :: rest =>
    { s.setArc c.live { s.arcs c.live with
        flushedVersion := max (s.arcs c.live).flushedVersion c.version } with toMark := rest }
  | _, _ => s

/-- A page is changed where it is. -/
def mutate (t : τ) : PageCache τ :=
  match s.threads t with
  | .holding _ a =>
    s.setArc a { s.arcs a with
      ver := (s.arcs a).ver + 1
      dirtyVersion := (s.arcs a).dirtyVersion + 1 }
  | _ => s

end Pages

section Threads

variable [DecidableEq τ] (s : PageCache τ)

def setThread (t : τ) (th : Thread) : PageCache τ :=
  { s with threads := Function.update s.threads t th }

/-- `get_page` returns. -/
def answer (t : τ) (c : Call) (arc : Nat) : PageCache τ :=
  s.setThread t (if c.forWrite then .holding c.page arc else .returned c arc)

/-- `Arc::make_mut` of a page that others hold. -/
def makeMut (t : τ) : PageCache τ :=
  match s.threads t with
  | .holding p a => (s.alloc (s.arcs a)).setThread t (.holding p s.nextArc)
  | _ => s

/-- `install` with `Overwrite`, and the page's lock is given up. -/
def overwrite (t : τ) (page : PageId) (arc : Nat) : PageCache τ :=
  { (s.markReferenced arc).setEntry page (some (.strong arc)) with
    writeEpochs := Function.update s.writeEpochs (shardIndex page) (s.writeEpoch page + 1)
    locks := Function.update s.locks page none
    threads := Function.update s.threads t .idle
    published := Function.update s.published page (s.arcs arc).ver
    latest := Function.update s.latest page (some arc) }

/-- `write_locked_page`. -/
def publish (t : τ) : PageCache τ :=
  match s.threads t with
  | .holding p a => s.overwrite t p a
  | _ => s

/-- A handle is dropped with the page as it was. -/
def giveBack (t : τ) : PageCache τ :=
  match s.threads t with
  | .holding p a =>
    if (s.arcs a).ver = s.published p then
      { s with
        locks := Function.update s.locks p none
        threads := Function.update s.threads t .idle }
    else s
  | _ => s

end Threads

section Steps

variable [DecidableEq τ] [Fintype τ] (s : PageCache τ)

/-- `strong_count() > 0`. -/
def alive (arc : Nat) : Bool :=
  decide (s.entries (s.arcs arc).page = some (.strong arc)) ||
    (s.toWrite ++ s.toMark).any (fun c => c.live == arc) ||
    decide (∃ t, (s.threads t).holds arc = true)

/-- The tombstone is pruned, if it is still that. -/
def prune (page : PageId) : PageCache τ :=
  match s.entries page with
  | some (.weak a) => if s.alive a then s else s.setEntry page none
  | _ => s

/-- The next step of a thread's `get_page`. -/
def advance (t : τ) : PageCache τ :=
  match s.threads t with
  | .looking c =>
    match s.entries c.page with
    | some (.strong a) => (s.markReferenced a).answer t c a
    | some (.weak a) =>
      s.setThread t (.sawWeak c a (s.writeEpoch c.page) (s.published c.page))
    | none => s.setThread t (.reading c (s.writeEpoch c.page))
  | .sawWeak c a epoch seen =>
    s.setThread t (if s.alive a then .upgraded c a seen else .pruning c epoch)
  | .upgraded c a _ => (s.install c.page a).answer t c (s.installed c.page a)
  | .pruning c epoch => (s.prune c.page).setThread t (.reading c epoch)
  | .reading c epoch => s.setThread t (.loaded c (s.file c.page) epoch)
  | .loaded c ver epoch =>
    if s.writeEpoch c.page ≠ epoch then s.setThread t (.looking c)
    else
      let s' := s.alloc ⟨c.page, ver, 0, 0, false⟩
      (s'.install c.page s.nextArc).answer t c (s'.installed c.page s.nextArc)
  | _ => s

/-- `capture_dirty_pages`, of the pages the shards have, with no writer at work and no
other checkpoint under way. -/
def captureDirtyPages (pages : List PageId) : PageCache τ :=
  if (∀ t, (s.threads t).writing = false) ∧ s.toWrite = [] ∧ s.toMark = [] then
    { s with toWrite := pages.filterMap s.capturedPage }
  else s

def step : CacheAction τ → PageCache τ
  | .getPage t p =>
    if s.threads t = .idle then s.setThread t (.looking ⟨p, false, s.published p⟩) else s
  | .getPageMut t p =>
    if s.threads t = .idle ∧ s.locks p = none then
      { s.setThread t (.looking ⟨p, true, s.published p⟩) with
        locks := Function.update s.locks p (some t) }
    else s
  | .advance t => s.advance t
  | .mutate t => s.mutate t
  | .makeMut t => s.makeMut t
  | .publish t => s.publish t
  | .giveBack t => s.giveBack t
  | .release t =>
    match s.threads t with
    | .returned _ _ => s.setThread t .idle
    | _ => s
  | .evictOne p => s.evictOne p
  | .captureDirtyPages pages => s.captureDirtyPages pages
  | .writeCaptured => s.writeCaptured
  | .markFlushed => s.markFlushed
  | .checkpointFails => { s with toWrite := [], toMark := [] }

end Steps

end PageCache

end SquealDb.Cache
