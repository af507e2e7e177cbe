import Mathlib.Algebra.GroupWithZero.Nat
import Mathlib.Data.List.Basic
import SquealDb.Store.Threads

/-!
# The write path of a tree, in bytes

`write_version_sized`, `write_in_leaf`, `apply_in_leaf`, `relocate`,
`write_data` and `check_fits` of `bplustree.rs`, over `can_store`, `add_tuple`
and `replace_tuple` of `page.rs` and the room that `pages/slotted.rs` finds in a
page's buffer.

In `Db` a write that is decided may be refused, for no reason given.  Here it has
to fit: in its leaf's budget, in a page, and, where its row moves, in the entry
that names the new page.  The decision is made, registered and logged before any of that is asked.

A write works on the one leaf its descent ends at.  The descent itself routes,
and splits full pages, before anything is decided; it either ends at a leaf that
is not full for what is asked or gives up with `PageCapacityError`.  A tree here
is that leaf with the table's data pages.
-/

namespace SquealDb.Store

/-! ## Sizes -/

/-- `varint_len`: seven bits a byte, and at most the ten bytes of a `u64`. -/
def varintLen (v : Nat) : Nat := min 10 ((Nat.log2 (v ||| 1) + 7) / 7)

def preLsnGrowth : Nat := 10

def fullSlack : Nat := 16

def usableDataMargin : Nat := 16

/-- `SLOT_ENTRY_BYTES`: what a page takes per tuple beyond the tuple
(`entry_overhead`). -/
def slotEntryBytes : Nat := 8

/-- `HEADER_BYTES` of a slotted page. -/
def slottedHeaderBytes : Nat := 8

def maxOverflowPages : Nat := 1024

/-- How the tuples of a page are measured: the bytes a page has for them
(`page_data_size`), and the encoded lengths of a key and of a row's data. -/
structure Sizing (κ β : Type*) where
  pageDataSize : Nat
  keyLen : κ → Nat
  dataLen : β → Nat

/-- The length of a field that may be absent. -/
def optionLen : Option Nat → Nat
  | none => 1
  | some v => 1 + varintLen v

namespace Sizing

variable {κ β : Type*}

/-- `usable_data_size`. -/
def usable (z : Sizing κ β) : Nat := z.pageDataSize - usableDataMargin

def size (z : Sizing κ β) (t : Tuple κ β) : Nat :=
  z.keyLen t.id + optionLen t.txnId + optionLen t.preLsn + varintLen (z.dataLen t.data) +
    z.dataLen t.data + 1

/-- `stored_size`. -/
def stored (z : Sizing κ β) (t : Tuple κ β) : Nat := z.size t + slotEntryBytes

/-- The bytes that tuples take in the heap of their page. -/
def live (z : Sizing κ β) (tuples : List (Tuple κ β)) : Nat := (tuples.map z.size).sum

/-- The same pages, holding index entries: an entry's data is `Node::Leaf` of a
page id, a tag and a varint. -/
def index (z : Sizing κ β) : Sizing κ Nat where
  pageDataSize := z.pageDataSize
  keyLen := z.keyLen
  dataLen := fun page => 1 + varintLen page

end Sizing

/-- An index entry: `Tuple::new_with(id, Node::Leaf(page), None, None)`. -/
def leafEntry {κ : Type*} (id : κ) (page : Nat) : Tuple κ Nat := ⟨id, page, none, none, false⟩

/-! ## Pages -/

/-- `dir_offset`: where the directory of so many slots ends. -/
def dirOffset (n : Nat) : Nat := slottedHeaderBytes + n * slotEntryBytes

/-- A slotted page, as the tuples of its slots and the bytes that these leave:
the buffer's length, the frontier of its heap and the count of dead bytes.  A
fresh buffer has `page_data_size` bytes, the declared capacity; a page that was
found empty may have more, or fewer.  The order of the slots is left out. -/
structure SlottedTuples {κ β : Type*} (z : Sizing κ β) where
  tuples : List (Tuple κ β)
  bufLen : Nat
  heapStart : Nat
  deadHeapBytes : Nat
  /-- From its start on, the heap is live tuples and dead bytes. -/
  balanced : heapStart + z.live tuples + deadHeapBytes = bufLen
  /-- The directory ends before the heap starts. -/
  below : dirOffset tuples.length ≤ heapStart

namespace SlottedTuples

variable {κ β : Type*} {z : Sizing κ β}

/-- A page over a `blank_buffer`. -/
def blank (z : Sizing κ β) (len : Nat) : SlottedTuples z where
  tuples := []
  bufLen := max len slottedHeaderBytes
  heapStart := max len slottedHeaderBytes
  deadHeapBytes := 0
  balanced := by simp [Sizing.live]
  below := by
    simp only [dirOffset, List.length_nil, Nat.zero_mul, Nat.add_zero]
    exact Nat.le_max_right ..

def new (z : Sizing κ β) : SlottedTuples z := blank z z.pageDataSize

def slotCount (p : SlottedTuples z) : Nat := p.tuples.length

def contiguousFree (p : SlottedTuples z) : Nat := p.heapStart - dirOffset p.slotCount

/-- `fits_without_compaction`. -/
abbrev FitsWithoutCompaction (p : SlottedTuples z) (len : Nat) : Prop :=
  slotEntryBytes + len ≤ p.contiguousFree

def compact (p : SlottedTuples z) : SlottedTuples z where
  tuples := p.tuples
  bufLen := p.bufLen
  heapStart := p.bufLen - z.live p.tuples
  deadHeapBytes := 0
  balanced := by
    have hbalanced := p.balanced
    omega
  below := by
    have hbalanced := p.balanced
    have hbelow := p.below
    omega

/-- `grow_to_fit`, of an empty page: the new buffer has just the bytes of the
tuple, be it longer than the one before or shorter. -/
def growToFit (z : Sizing κ β) (len : Nat) : SlottedTuples z :=
  blank z (slottedHeaderBytes + slotEntryBytes + len)

/-- `shrink_to_normal`, of an empty page: a buffer that has its declared
capacity stays, with its heap's frontier where it was. -/
def shrinkToNormal (p : SlottedTuples z) : SlottedTuples z :=
  if p.bufLen = z.pageDataSize then p else new z

/-- The page that `ensure_room` leaves.  It fails, with `PageCapacityError`,
where this does not have the room. -/
def ensureRoom (p : SlottedTuples z) (len : Nat) : SlottedTuples z :=
  if p.FitsWithoutCompaction len then p
  else if 0 < p.slotCount then p.compact
  else growToFit z len

def insertAt (p : SlottedTuples z) (t : Tuple κ β) (h : p.FitsWithoutCompaction (z.size t)) :
    SlottedTuples z where
  tuples := p.tuples ++ [t]
  bufLen := p.bufLen
  heapStart := p.heapStart - z.size t
  deadHeapBytes := p.deadHeapBytes
  balanced := by
    have hbalanced := p.balanced
    have hfree : slotEntryBytes + z.size t ≤ p.heapStart - dirOffset p.slotCount := h
    simp only [Sizing.live, List.map_append, List.map_cons, List.map_nil, List.sum_append,
      List.sum_cons, List.sum_nil] at hbalanced ⊢
    omega
  below := by
    have hfree : slotEntryBytes + z.size t ≤ p.heapStart - dirOffset p.tuples.length := h
    simp only [dirOffset, slotEntryBytes, List.length_append, List.length_singleton] at hfree ⊢
    omega

/-- `page_used_size`. -/
def used (p : SlottedTuples z) : Nat := (p.tuples.map z.stored).sum

variable [DecidableEq κ]

def get (p : SlottedTuples z) (id : κ) : Option (Tuple κ β) := p.tuples.find? fun t => t.id = id

theorem live_eraseP {id : κ} {tuples : List (Tuple κ β)} {old : Tuple κ β}
    (h : tuples.find? (fun t => t.id = id) = some old) :
    z.live (tuples.eraseP fun t => t.id = id) + z.size old = z.live tuples ∧
      (tuples.eraseP fun t => t.id = id).length + 1 = tuples.length := by
  induction tuples with
  | nil => nomatch h
  | cons t tuples ih =>
    by_cases ht : t.id = id
    · obtain rfl : t = old := by simpa [ht] using h
      simp only [Sizing.live, ht, decide_true, List.eraseP_cons_of_pos, List.map_cons,
        List.sum_cons, List.length_cons]
      exact ⟨Nat.add_comm .., trivial⟩
    · have hrest := ih (by simpa [ht] using h)
      simp only [Sizing.live, ht, decide_false, Bool.false_eq_true, not_false_eq_true,
        List.eraseP_cons_of_neg, List.map_cons, List.sum_cons, List.length_cons] at hrest ⊢
      omega

/-- `delete_slot`, of a tuple that is there. -/
def deleteSlot (p : SlottedTuples z) {id : κ} {old : Tuple κ β} (h : p.get id = some old) :
    SlottedTuples z where
  tuples := p.tuples.eraseP fun t => t.id = id
  bufLen := p.bufLen
  heapStart := p.heapStart
  deadHeapBytes := p.deadHeapBytes + z.size old
  balanced := by
    have hbalanced := p.balanced
    have hlive := (live_eraseP (z := z) h).1
    omega
  below := by
    have hbelow := p.below
    have hlength := (live_eraseP (z := z) h).2
    simp only [dirOffset, slotEntryBytes] at hbelow ⊢
    omega

/-- The branch of `replace` for a tuple that its slot can hold. -/
def overwriteSlot (p : SlottedTuples z) {id : κ} {old t : Tuple κ β} (h : p.get id = some old)
    (hle : z.size t ≤ z.size old) : SlottedTuples z where
  tuples := (p.tuples.eraseP fun t => t.id = id) ++ [t]
  bufLen := p.bufLen
  heapStart := p.heapStart
  deadHeapBytes := p.deadHeapBytes + (z.size old - z.size t)
  balanced := by
    have hbalanced := p.balanced
    have hlive := (live_eraseP (z := z) h).1
    simp only [Sizing.live, List.map_append, List.map_cons, List.map_nil, List.sum_append,
      List.sum_cons, List.sum_nil] at hbalanced hlive ⊢
    omega
  below := by
    have hbelow := p.below
    have hlength := (live_eraseP (z := z) h).2
    rw [List.length_append, List.length_singleton, hlength]
    exact hbelow

/-- `ensure_room`, and the tuple is put into the room. -/
def insertInto (p : SlottedTuples z) (t : Tuple κ β) :
    SlottedTuples z × Except (StoreError κ) Unit :=
  if h : (p.ensureRoom (z.size t)).FitsWithoutCompaction (z.size t) then
    ((p.ensureRoom (z.size t)).insertAt t h, .ok ())
  else (p.ensureRoom (z.size t), .error .pageCapacityError)

def add (p : SlottedTuples z) (t : Tuple κ β) : SlottedTuples z × Except (StoreError κ) Unit :=
  if (p.get t.id).isSome then (p, .error (.duplicateKey t.id)) else p.insertInto t

def replace (p : SlottedTuples z) (id : κ) (t : Tuple κ β) :
    SlottedTuples z × Except (StoreError κ) Unit :=
  match hget : p.get id with
  | none => (p, .error (.keyNotFound id))
  | some old =>
    if hle : z.size t ≤ z.size old then (p.overwriteSlot hget hle, .ok ())
    else if 1 < p.slotCount ∧
        p.contiguousFree + p.deadHeapBytes + z.size old < z.size t then
      (p, .error .pageCapacityError)
    else (p.deleteSlot hget).insertInto t

/-- `remove`, of a tuple that is there. -/
def remove (p : SlottedTuples z) (id : κ) : SlottedTuples z :=
  match hget : p.get id with
  | none => p
  | some _ =>
    if (p.deleteSlot hget).slotCount = 0 then (p.deleteSlot hget).shrinkToNormal
    else p.deleteSlot hget

/-- `can_store`: an empty page always accepts. -/
def canStore (p : SlottedTuples z) (t : Tuple κ β) : Bool :=
  p.used == 0 || decide (p.used + z.stored t ≤ z.usable)

/-- Whether a tuple is over the page's per-entry budget (`record_size`). -/
def tooLarge (recordSize : Option Nat) (size : Nat) : Bool := recordSize.any fun max => max < size

def addTuple (recordSize : Option Nat) (p : SlottedTuples z) (t : Tuple κ β) :
    SlottedTuples z × Except (StoreError κ) Unit :=
  if tooLarge recordSize (z.size t) then
    (p, .error (.tupleTooLarge (z.size t) (recordSize.getD 0)))
  else if ¬ p.canStore t then (p, .error .pageCapacityError)
  else p.add t

def replaceTuple (recordSize : Option Nat) (p : SlottedTuples z) (id : κ) (t : Tuple κ β) :
    SlottedTuples z × Except (StoreError κ) Unit :=
  if tooLarge recordSize (z.size t) then
    (p, .error (.tupleTooLarge (z.size t) (recordSize.getD 0)))
  else p.replace id t

/-- What `handle_large_page_size` refuses of a page that is being written: one
tuple may overflow, by so many pages, and several may not. -/
def overflowRefused (z : Sizing κ β) (count used : Nat) : Bool :=
  decide (z.usable < used) &&
    (decide (1 < count) || decide (maxOverflowPages < (used - 1) / z.usable))

/-- `write_locked_page`: whether the page can be published. -/
def publish (p : SlottedTuples z) : Except (StoreError κ) Unit :=
  if overflowRefused z p.slotCount p.used then .error .unknownError else .ok ()

end SlottedTuples

/-! ## Data pages -/

/-- The data pages of a table, and where pages come from.  Every page id is
below `page_count`. -/
structure DataPages {κ δ : Type*} (z : Sizing κ δ) where
  page : Nat → SlottedTuples z
  /-- The ids of the chain, from `first_data_page` on. -/
  chain : List Nat
  /-- How far into the chain `last_data_page` is. -/
  hint : Nat
  pageCount : Nat
  freePages : List Nat
  bounded : ∀ id ∈ chain ++ freePages, id < pageCount

namespace DataPages

variable {κ δ : Type*} {z : Sizing κ δ}

/-- A page is changed. -/
def setPage (d : DataPages z) (id : Nat) (p : SlottedTuples z) : DataPages z :=
  { d with page := Function.update d.page id p }

def allocPage (d : DataPages z) : Nat × DataPages z :=
  match hfree : d.freePages with
  | id :: rest =>
    (id, { d with
      freePages := rest
      bounded := fun id hid => d.bounded id (by
        rw [hfree]
        exact List.append_subset.mpr ⟨List.subset_append_left _ _,
          List.subset_append_of_subset_right _ (List.subset_cons_self _ _)⟩ hid) })
  | [] =>
    (d.pageCount, { d with
      pageCount := d.pageCount + 1
      bounded := fun id hid => Nat.lt_succ_of_lt (d.bounded id hid) })

theorem allocPage_lt (d : DataPages z) : d.allocPage.1 < d.allocPage.2.pageCount := by
  unfold allocPage
  split
  · next id rest hfree =>
      exact d.bounded id (List.mem_append_right _ (hfree ▸ List.mem_cons_self ..))
  · exact Nat.lt_succ_self _

/-- The end of `write_data`'s walk: a new page is linked to the tail. -/
def extend (d : DataPages z) : Nat × DataPages z :=
  (d.allocPage.1, { d.allocPage.2.setPage d.allocPage.1 (SlottedTuples.new z) with
    chain := d.allocPage.2.chain ++ [d.allocPage.1]
    hint := d.allocPage.2.chain.length
    bounded := by
      intro id hid
      rw [List.append_assoc] at hid
      rcases List.mem_append.mp hid with hid | hid
      · exact d.allocPage.2.bounded id (List.mem_append_left _ hid)
      · rcases List.mem_append.mp hid with hid | hid
        · rw [List.mem_singleton.mp hid]
          exact d.allocPage_lt
        · exact d.allocPage.2.bounded id (List.mem_append_right _ hid) })

variable [DecidableEq κ]

/-- Where `write_data` ends its walk: the first page from the hint on that can
store the tuple. -/
def landing (d : DataPages z) (t : Tuple κ δ) : Option Nat :=
  (d.chain.drop d.hint).find? fun id => (d.page id).canStore t

/-- `write_page`: `add_tuple`, and the page is published. -/
def writePage (d : DataPages z) (id : Nat) (t : Tuple κ δ) :
    DataPages z × Except (StoreError κ) Nat :=
  match (d.page id).addTuple none t with
  | (p, .error e) => (d.setPage id p, .error e)
  | (p, .ok ()) => (d.setPage id p, p.publish.map fun () => id)

/-- `write_data`: puts a tuple on a data page, and says which. -/
def writeData (d : DataPages z) (t : Tuple κ δ) : DataPages z × Except (StoreError κ) Nat :=
  match d.landing t with
  | some id => d.writePage id t
  | none => d.extend.2.writePage d.extend.1 t

/-- `remove_tuple` on a data page, and the page is published. -/
def removeRow (d : DataPages z) (id : Nat) (key : κ) : DataPages z :=
  d.setPage id ((d.page id).remove key)

end DataPages

/-! ## Trees with data pages -/

/-- A tree with data pages, as a write finds it: the leaf its descent ended at,
and the data pages. -/
structure DataTree {κ δ : Type*} (z : Sizing κ δ) where
  /-- `record_size` of an index page, `none` on pages from before it. -/
  recordSize : Option Nat
  countCap : Option Nat
  nodesPerPage : Nat
  leaf : SlottedTuples z.index
  pages : DataPages z

namespace DataTree

variable {κ δ : Type*} [DecidableEq κ] {z : Sizing κ δ}

def isFull (t : DataTree z) : Bool :=
  t.countCap.any (fun cap => decide (cap - 1 ≤ t.leaf.slotCount)) ||
    decide (z.usable < t.leaf.used +
      t.recordSize.getD (z.usable / max t.nodesPerPage 1) + slotEntryBytes + fullSlack)

/-- The row under a key: its entry's page, if it is there. -/
def row (t : DataTree z) (id : κ) : Option (Tuple κ δ) :=
  match t.leaf.get id with
  | none => none
  | some e => (t.pages.page e.data).get id

/-- The stand-in for the entry that an insert may add: its page id is the next
one that could be allocated. -/
def probe (t : DataTree z) (id : κ) : Tuple κ Nat := leafEntry id t.pages.pageCount

/-- `Decision::Insert`. -/
def applyInsert (t : DataTree z) (id : κ) (new : Tuple κ δ) :
    DataTree z × Except (StoreError κ) Unit :=
  if (t.leaf.get id).isSome then (t, .error (.duplicateKey id))
  else if SlottedTuples.tooLarge t.recordSize (z.index.size (t.probe id)) then
    (t, .error (.tupleTooLarge (z.index.size (t.probe id)) (t.recordSize.getD 0)))
  else if ¬ t.leaf.canStore (t.probe id) then (t, .error .pageCapacityError)
  else
    match t.pages.writeData new with
    | (pages, .error e) => ({ t with pages := pages }, .error e)
    | (pages, .ok dp) =>
      match t.leaf.addTuple t.recordSize (leafEntry id dp) with
      | (leaf, .ok ()) => ({ t with leaf := leaf, pages := pages }, leaf.publish)
      | (leaf, .error e) =>
        ({ t with leaf := leaf, pages := pages.removeRow dp id }, .error e)

/-- Whether a row can be replaced on its page: a page of several tuples must
not exceed its capacity. -/
def fitsInPlace (page : SlottedTuples z) (cur new : Tuple κ δ) : Bool :=
  decide (page.slotCount ≤ 1) || decide (page.used - z.size cur + z.size new ≤ z.usable)

/-- The entry of `id` is made to name the page `dp`. -/
def repoint (t : DataTree z) (id : κ) (dp : Nat) :
    SlottedTuples z.index × Except (StoreError κ) Unit :=
  t.leaf.replaceTuple t.recordSize id (leafEntry id dp)

/-- `relocate`: the new copy, the entry, and then the old copy is removed.  If
the new copy lands on the page of the old one, that is removed first. -/
def relocate (t : DataTree z) (oldDp : Nat) (id : κ) (new : Tuple κ δ) :
    DataTree z × Except (StoreError κ) Unit :=
  match t.pages.writeData new with
  | (pages, .ok newDp) =>
    match t.repoint id newDp with
    | (leaf, .error e) => ({ t with leaf := leaf, pages := pages }, .error e)
    | (leaf, .ok ()) =>
      ({ t with leaf := leaf, pages := pages.removeRow oldDp id }, leaf.publish)
  | (pages, .error (.duplicateKey d)) =>
    if d = id then
      match (pages.removeRow oldDp id).writeData new with
      | (pages, .error e) => ({ t with pages := pages }, .error e)
      | (pages, .ok p) =>
        if p = oldDp then ({ t with pages := pages }, t.leaf.publish)
        else
          match t.repoint id p with
          | (leaf, .error e) => ({ t with leaf := leaf, pages := pages }, .error e)
          | (leaf, .ok ()) => ({ t with leaf := leaf, pages := pages }, leaf.publish)
    else ({ t with pages := pages }, .error (.duplicateKey d))
  | (pages, .error e) => ({ t with pages := pages }, .error e)

/-- `Decision::Replace`. -/
def applyReplace (t : DataTree z) (id : κ) (new : Tuple κ δ) :
    DataTree z × Except (StoreError κ) Unit :=
  match t.leaf.get id, t.row id with
  | some e, some cur =>
    if fitsInPlace (t.pages.page e.data) cur new then
      match (t.pages.page e.data).replaceTuple none id new with
      | (page, .error err) => ({ t with pages := t.pages.setPage e.data page }, .error err)
      | (page, .ok ()) => ({ t with pages := t.pages.setPage e.data page }, page.publish)
    else t.relocate e.data id new
  | _, _ => (t, .error (.keyNotFound id))

/-- `Decision::Delete`. -/
def applyDelete (t : DataTree z) (id : κ) : DataTree z × Except (StoreError κ) Unit :=
  match t.leaf.get id with
  | none => (t, .ok ())
  | some e =>
    ({ t with
       leaf := t.leaf.remove id
       pages := t.pages.removeRow e.data id }, .ok ())

/-- What `write_version_sized` does with a decision. -/
def apply (t : DataTree z) (id : κ) : Decision κ δ → DataTree z × Except (StoreError κ) Unit
  | .skip => (t, .ok ())
  | .insert new => t.applyInsert id new
  | .replace new => t.applyReplace id new
  | .delete => t.applyDelete id

end DataTree

/-! ## Trees with their rows in their leaves -/

/-- A tree with its rows in its leaves, as a write finds it. -/
structure LeafTree {κ δ : Type*} (z : Sizing κ δ) where
  /-- `leaf_budget`, the `record_size` of every leaf. -/
  leafBudget : Nat
  leaf : SlottedTuples z

namespace LeafTree

variable {κ δ : Type*} [DecidableEq κ] {z : Sizing κ δ}

def isFullFor (t : LeafTree z) (room : Nat) : Bool :=
  decide (z.usable < t.leaf.used + room + slotEntryBytes + fullSlack)

def checkFits (t : LeafTree z) (tuple : Tuple κ δ) : Except (StoreError κ) Unit :=
  if t.leafBudget < z.size tuple + preLsnGrowth then
    .error (.tupleTooLarge (z.size tuple + preLsnGrowth) t.leafBudget)
  else .ok ()

/-- Whether the descent of `write_in_leaf` can end at this leaf: it has the room
asked for, or what the next version of the tuple that is there may need. -/
def hasRoom (t : LeafTree z) (id : κ) (room : Option Nat) : Bool :=
  !t.isFullFor (room.getD 0) &&
    match room, t.leaf.get id with
    | none, some cur => !t.isFullFor (z.size cur + preLsnGrowth + 4)
    | _, _ => true

/-- `apply_in_leaf`. -/
def apply (t : LeafTree z) (id : κ) : Decision κ δ → LeafTree z × Except (StoreError κ) Unit
  | .skip => (t, .ok ())
  | .insert new =>
    if (t.leaf.get id).isSome then (t, .error (.duplicateKey id))
    else
      match t.leaf.addTuple (some t.leafBudget) new with
      | (leaf, .error e) => ({ t with leaf := leaf }, .error e)
      | (leaf, .ok ()) => ({ t with leaf := leaf }, leaf.publish)
  | .replace new =>
    if (t.leaf.get id).isSome then
      match t.leaf.replaceTuple (some t.leafBudget) id new with
      | (leaf, .error e) => ({ t with leaf := leaf }, .error e)
      | (leaf, .ok ()) => ({ t with leaf := leaf }, leaf.publish)
    else (t, .error (.keyNotFound id))
  | .delete => ({ t with leaf := t.leaf.remove id }, .ok ())

end LeafTree

/-! ## Calls -/

/-- A tree of either form. -/
inductive Tree {κ δ : Type*} (z : Sizing κ δ) where
  | data (t : DataTree z)
  | leaves (t : LeafTree z)

namespace Tree

variable {κ δ : Type*} [DecidableEq κ] {z : Sizing κ δ}

/-- The row under a key. -/
def row : Tree z → κ → Option (Tuple κ δ)
  | .data t, id => t.row id
  | .leaves t, id => t.leaf.get id

def apply (t : Tree z) (id : κ) (d : Decision κ δ) : Tree z × Except (StoreError κ) Unit :=
  match t with
  | .data t => (.data (t.apply id d).1, (t.apply id d).2)
  | .leaves t => (.leaves (t.apply id d).1, (t.apply id d).2)

/-- What a call checks of its tuple before it mints its LSN: a tree with its
rows in its leaves takes tuples up to its leaf budget, as they will be
written. -/
def checkFits : Tree z → WriteCall κ δ → Except (StoreError κ) Unit
  | .leaves t, .insert txn tuple => t.checkFits (Db.stamped tuple txn)
  | .leaves t, .update txn tuple => t.checkFits { tuple with txnId := some txn }
  | _, _ => .ok ()

/-- The room a call asks its leaf for. -/
def room (z : Sizing κ δ) : WriteCall κ δ → Option Nat
  | .insert txn tuple => some (z.size (Db.stamped tuple txn) + preLsnGrowth)
  | .update txn tuple => some (z.size { tuple with txnId := some txn } + preLsnGrowth)
  | .remove _ _ => none

/-- Whether the descent can end at this leaf. -/
def hasRoom : Tree z → WriteCall κ δ → Bool
  | .data t, _ => !t.isFull
  | .leaves t, call => t.hasRoom call.key (room z call)

end Tree

/-- What the call decides of the row it finds. -/
def WriteCall.decideOn {κ δ : Type*} (call : WriteCall κ δ) (db : Db κ δ) (lsn : Nat)
    (current : Option (Tuple κ δ)) : Except (StoreError κ) (Db κ δ × Decision κ δ) :=
  match call with
  | .insert txn tuple => db.insertDecision (Db.stamped tuple txn) txn lsn current
  | .update txn tuple => db.updateDecision tuple txn lsn current
  | .remove txn key => db.removeDecision key txn lsn current

/-- The store and the tree that a write works on.  The rows are the tree's. -/
structure TreeStore {κ δ : Type*} (z : Sizing κ δ) where
  db : Db κ δ
  tree : Tree z

namespace TreeStore

variable {κ δ : Type*} [DecidableEq κ] {z : Sizing κ δ}

/-- `write_version_sized` and `write_in_leaf`. -/
def writeVersionSized (s : TreeStore z) (call : WriteCall κ δ) (lsn : Nat) :
    TreeStore z × Except (StoreError κ) Unit :=
  if s.tree.hasRoom call then
    match call.decideOn s.db lsn (s.tree.row call.key) with
    | .error e => (s, .error e)
    | .ok (db, decision) =>
      (⟨db, (s.tree.apply call.key decision).1⟩, (s.tree.apply call.key decision).2)
  else (s, .error .pageCapacityError)

/-- The error `after_write` returns.  Where it is
`WriteConflictTransactionAborted`, the transaction's abort begins here. -/
def afterWrite (db : Db κ δ) (txn : Nat) : StoreError κ → StoreError κ
  | .writeConflict key =>
    if db.txMgr.conflictPolicy txn = .abortOnConflict then .writeConflictTransactionAborted key
    else .writeConflict key
  | e => e

/-- `insert`, `update` and `remove`. -/
def write (s : TreeStore z) (call : WriteCall κ δ) : TreeStore z × Except (StoreError κ) Unit :=
  match s.db.requireActive call.txn with
  | .error e => (s, .error e)
  | .ok () =>
    match s.tree.checkFits call with
    | .error e => (s, .error e)
    | .ok () =>
      match { s with db := s.db.nextLsn.1 }.writeVersionSized call s.db.nextLsn.2 with
      | (s, .ok ()) => (s, .ok ())
      | (s, .error e) => (s, .error (afterWrite s.db call.txn e))

end TreeStore

end SquealDb.Store
