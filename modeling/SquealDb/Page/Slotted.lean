import SquealDb.Codec.TupleDecode
import SquealDb.Codec.KeyPrefix
import SquealDb.Lib.Attempt
import SquealDb.Lib.Bisect
import SquealDb.Lib.Buffer

/-!
# Slotted pages

`SlottedPage` of `pages/slotted.rs`: one buffer with a header of two `u32`s (the slot
count and the declared capacity), the slot directory behind it, and the tuples'
bytes packed from the end; beside the buffer the frontier of the heap, the count of
dead bytes, and each slot's prefix and where its id ends.

An index outside of a slice, and a subtraction below zero, halts with a `panic`; an
operation that fails leaves the page as it had changed it.  The buffer pool and
`mem_bytes` are left out, as is the `debug_assert` of `grow_to_fit`.
-/

namespace SquealDb.Page

open Lib Codec KeyCode

/-- How an operation stops short of its value. -/
inductive Halt where
  | error (e : StoreError)
  | panic
  deriving DecidableEq, Repr

/-- A result whose error is passed on. -/
def passOn {α : Type} : Except StoreError α → Except Halt α
  | .ok a => .ok a
  | .error e => .error (.error e)

/-! ## Slices and vectors -/

section Slices

variable {α : Type}

/-- `v[i]`. -/
def index (v : List α) (i : Nat) : Except Halt α :=
  match v[i]? with
  | some a => .ok a
  | none => .error .panic

/-- `v.insert(i, a)`. -/
def vecInsert (v : List α) (i : Nat) (a : α) : Except Halt (List α) :=
  if i ≤ v.length then .ok (v.insertIdx i a) else .error .panic

/-- `v.remove(i)`. -/
def vecRemove (v : List α) (i : Nat) : Except Halt (List α) :=
  if i < v.length then .ok (v.eraseIdx i) else .error .panic

/-- `&buf[start..start + len]`. -/
def range (buf : List UInt8) (start len : Nat) : Except Halt (List UInt8) :=
  if start + len ≤ buf.length then .ok (slice buf start len) else .error .panic

/-- `buf[start..start + bytes.len()].copy_from_slice(bytes)`. -/
def copyFromSlice (buf : List UInt8) (start : Nat) (bytes : List UInt8) :
    Except Halt (List UInt8) :=
  if start + bytes.length ≤ buf.length then .ok (overwrite buf start bytes) else .error .panic

/-- `buf.copy_within(src..src + len, dest)`. -/
def copyWithin (buf : List UInt8) (src len dest : Nat) : Except Halt (List UInt8) := do
  let bytes ← range buf src len
  copyFromSlice buf dest bytes

/-- `if len > 0 { buf.copy_within(src..src + len, dest) }`. -/
def moveWithin (buf : List UInt8) (src len dest : Nat) : Except Halt (List UInt8) :=
  if len > 0 then copyWithin buf src len dest else .ok buf

/-- `a - b` of two `usize`s. -/
def minus (a b : Nat) : Except Halt Nat := if b ≤ a then .ok (a - b) else .error .panic

end Slices

/-- The `u32` at a place in the buffer. -/
def u32At (buf : List UInt8) (at_ : Nat) : UInt32 := UInt32.ofNat (ofLe (slice buf at_ 4))

def readU32 (buf : List UInt8) (at_ : Nat) : Except Halt UInt32 := do
  let bytes ← range buf at_ 4
  return UInt32.ofNat (ofLe bytes)

def writeU32 (buf : List UInt8) (at_ : Nat) (v : UInt32) : Except Halt (List UInt8) :=
  copyFromSlice buf at_ (leBytes 4 v.toNat)

def slotCountBytes : Nat := 4
def declaredCapacityBytes : Nat := 4
def headerBytes : Nat := slotCountBytes + declaredCapacityBytes
def slotEntryBytes : Nat := 8

structure SlotEntry where
  offset : UInt32
  len : UInt32
  deriving DecidableEq, Repr

def dirOffset (idx : Nat) : Nat := headerBytes + idx * slotEntryBytes

def slotEntryAt (buf : List UInt8) (idx : Nat) : Except Halt SlotEntry := do
  let offset ← readU32 buf (dirOffset idx)
  let len ← readU32 buf (dirOffset idx + 4)
  return ⟨offset, len⟩

def writeSlotEntryAt (buf : List UInt8) (idx : Nat) (e : SlotEntry) : Except Halt (List UInt8) := do
  let buf ← writeU32 buf (dirOffset idx) e.offset
  writeU32 buf (dirOffset idx + 4) e.len

def blankBuffer (len declaredCapacity : Nat) : List UInt8 :=
  let buf := List.replicate (max len headerBytes) 0
  let buf := overwrite buf 0 (leBytes 4 0)
  overwrite buf slotCountBytes (leBytes 4 (UInt32.ofNat declaredCapacity).toNat)

structure SlottedPage where
  buf : List UInt8
  heapStart : Nat
  deadHeapBytes : Nat
  prefixes : List Nat
  idEnds : List UInt32
  deriving DecidableEq, Repr

namespace SlottedPage

def new (capacity : Nat) : SlottedPage :=
  let buf := blankBuffer capacity capacity
  ⟨buf, buf.length, 0, [], []⟩

/-! ## Reading a page in -/

/-- What `from_bytes` has gathered of the slots so far. -/
structure Scan where
  heapStart : Nat
  liveBytes : Nat
  prefixes : List Nat
  idEnds : List UInt32

/-- The check of a key's strings. -/
def checkId : WireId → Except StoreError Unit
  | .record k => k.check
  | .stored k => k.check
  | .int _ => .ok ()

/-- The body of the loop of `from_bytes`. -/
def scanSlot (buf : List UInt8) (dirEnd : Nat) (scan : Scan) (idx : Nat) : Except Halt Scan := do
  let e ← slotEntryAt buf idx
  let off := e.offset.toNat
  let len := e.len.toNat
  let size := buf.length
  if off < dirEnd ∨ off + len > size then
    throw (.error (.unknownError
      (s!"SlottedPage::from_bytes: slot {idx} out of bounds (offset={off}, len={len}, " ++
        s!"buffer={size} bytes, dir_end={dirEnd})")))
  let record ← range buf off len
  let stop ← passOn (idEnd record)
  let id ← passOn (tupleIdEnding record stop)
  passOn (checkId id)
  return ⟨min scan.heapStart off, scan.liveBytes + len,
    scan.prefixes ++ [orderPrefixOf (.wire id)], scan.idEnds ++ [UInt32.ofNat stop]⟩

def fromBytes (bytes : List UInt8) : Except Halt SlottedPage := do
  let size := bytes.length
  if size < headerBytes then
    throw (.error (.unknownError
      s!"SlottedPage::from_bytes: buffer too small ({size} bytes, need at least {headerBytes})"))
  let slotCount ← readU32 bytes 0
  let count := slotCount.toNat
  let dirEnd := dirOffset count
  if dirEnd > size then
    throw (.error (.unknownError
      (s!"SlottedPage::from_bytes: slot directory ({count} entries, {dirEnd} bytes) exceeds " ++
        s!"buffer ({size} bytes)")))
  let scan ← (List.range count).foldlM (scanSlot bytes dirEnd) ⟨size, 0, [], []⟩
  return ⟨bytes, scan.heapStart, size - scan.heapStart - scan.liveBytes, scan.prefixes, scan.idEnds⟩

/-! ## The header and the directory -/

variable (p : SlottedPage)

def slotCount : Except Halt Nat := do
  let n ← readU32 p.buf 0
  return n.toNat

def declaredCapacity : Except Halt Nat := do
  let n ← readU32 p.buf slotCountBytes
  return n.toNat

def dirEnd : Except Halt Nat := do
  let n ← p.slotCount
  return dirOffset n

def slot (idx : Nat) : Except Halt SlotEntry := slotEntryAt p.buf idx

def record (idx : Nat) : Except Halt (List UInt8) := do
  let e ← p.slot idx
  range p.buf e.offset.toNat e.len.toNat

def decodeAt (idx : Nat) : Except Halt Tuple := do
  let record ← p.record idx
  passOn (Codec.fromBytes record)

def idAt (idx : Nat) : Except Halt IdRef := do
  let record ← p.record idx
  let idEnd ← index p.idEnds idx
  let id ← passOn (tupleIdEnding record idEnd.toNat)
  return .wire id

/-! ## Searching -/

/-- How the slot's id compares with the probe's: by the prefixes, if these say. -/
def compareSlot (id : IdRef) (idx : Nat) : Except Halt Ordering := do
  let slotPrefix ← index p.prefixes idx
  match prefixOrder slotPrefix (orderPrefixOf id) with
  | some ord => return ord
  | none =>
    let cand ← p.idAt idx
    return (Probe.mk id).cmpSlot cand

/-- The turn a search takes at a slot. -/
def searchTurn (id : IdRef) (past : Ordering → Bool) (mid : Nat) : Except Halt Turn := do
  let ord ← p.compareSlot id mid
  return if past ord then .left else .right

def search (id : IdRef) (past : Ordering → Bool) : Except Halt Nat := do
  match ← bisect (p.searchTurn id past) p.prefixes.length 0 p.prefixes.length with
  | .found i => return i
  | .gap i => return i

def lowerBound (id : DBIdType) : Except Halt Nat := p.search (.owned id) (·.isGE)

def upperBound (id : DBIdType) : Except Halt Nat := p.search (.owned id) (·.isGT)

def afterLast (id : DBIdType) : Except Halt Bool :=
  match p.prefixes.length with
  | 0 => return true
  | last + 1 => do
    let ord ← p.compareSlot (.owned id) last
    return ord.isLT

/-- The loop of `find_exact_in`. -/
def findExactFrom (id : DBIdType) : Nat → Nat → Except Halt (Option Nat)
  | 0, _ => return none
  | left + 1, idx => do
    let cand ← p.idAt idx
    if cand.eqOwned id then return some idx else findExactFrom id left (idx + 1)

def findExactIn (id : DBIdType) (lo hi : Nat) : Except Halt (Option Nat) :=
  p.findExactFrom id (hi - lo) lo

/-- The turn `find_exact_ref` takes at a slot. -/
def exactTurn (id : IdRef) (mid : Nat) : Except Halt Turn := do
  let slotPrefix ← index p.prefixes mid
  match prefixOrder slotPrefix (orderPrefixOf id) with
  | some .eq => return .found
  | some ord => return if ord.isGE then .left else .right
  | none =>
    let cand ← p.idAt mid
    if (Probe.mk id).isSlot cand then return .found
    else return if ((Probe.mk id).cmpSlot cand).isGE then .left else .right

/-- The walk along the slots that compare equal to `id` without being it. -/
def walkTied (id : IdRef) : Nat → Nat → Except Halt (Option Nat)
  | 0, _ => return none
  | left + 1, idx => do
    let slotPrefix ← index p.prefixes idx
    if (prefixOrder slotPrefix (orderPrefixOf id)).isSome then return none
    else
      let cand ← p.idAt idx
      if (Probe.mk id).isSlot cand then return some idx
      else if ((Probe.mk id).cmpSlot cand).isNe then return none
      else walkTied id left (idx + 1)

def findExactRef (id : IdRef) : Except Halt (Option Nat) := do
  match ← bisect (p.exactTurn id) p.prefixes.length 0 p.prefixes.length with
  | .found i => return some i
  | .gap i => p.walkTied id (p.prefixes.length - i) i

def findExact (id : DBIdType) : Except Halt (Option Nat) := p.findExactRef (.owned id)

/-! ## Room -/

def contiguousFree : Except Halt Nat := do
  let dirEnd ← p.dirEnd
  return p.heapStart - dirEnd

def fitsWithoutCompaction (tupleLen : Nat) : Except Halt Bool := do
  let free ← p.contiguousFree
  return free ≥ slotEntryBytes + tupleLen

/-- The second loop of `compact`, over the buffer and the cursor. -/
def packEntries : List (Nat × List UInt8) → List UInt8 → Nat → Except Halt (List UInt8 × Nat)
  | [], buf, cursor => return (buf, cursor)
  | (idx, bytes) :: entries, buf, cursor => do
    let cursor ← minus cursor bytes.length
    let buf ← copyFromSlice buf cursor bytes
    let buf ← writeSlotEntryAt buf idx ⟨UInt32.ofNat cursor, UInt32.ofNat bytes.length⟩
    packEntries entries buf cursor

def compact : Except Halt SlottedPage := do
  let n ← p.slotCount
  let entries ← (List.range n).mapM fun idx => do
    let bytes ← p.record idx
    return (idx, bytes)
  let (buf, cursor) ← packEntries entries p.buf p.buf.length
  return { p with buf := buf, heapStart := cursor, deadHeapBytes := 0 }

def growToFit (tupleLen : Nat) : Except Halt SlottedPage := do
  let declaredCapacity ← p.declaredCapacity
  let newLen := headerBytes + slotEntryBytes + tupleLen
  let buf := blankBuffer newLen declaredCapacity
  return { p with buf := buf, heapStart := buf.length, deadHeapBytes := 0 }

def shrinkToNormal : Except Halt SlottedPage := do
  let declaredCapacity ← p.declaredCapacity
  if p.buf.length = declaredCapacity then return p
  else
    let buf := blankBuffer declaredCapacity declaredCapacity
    return { p with buf := buf, heapStart := buf.length, deadHeapBytes := 0 }

def insertAt (idx : Nat) (encoded : List UInt8) (slotPrefix idEnd : Nat) :
    Except Halt SlottedPage := do
  let n ← p.slotCount
  let len := encoded.length
  let shiftStart := dirOffset idx
  let after ← minus n idx
  let shiftLen := after * slotEntryBytes
  let buf ← moveWithin p.buf shiftStart shiftLen (shiftStart + slotEntryBytes)
  let newOffset ← minus p.heapStart len
  let buf ← copyFromSlice buf newOffset encoded
  let buf ← writeSlotEntryAt buf idx ⟨UInt32.ofNat newOffset, UInt32.ofNat len⟩
  let buf ← writeU32 buf 0 (UInt32.ofNat (n + 1))
  let prefixes ← vecInsert p.prefixes idx slotPrefix
  let idEnds ← vecInsert p.idEnds idx (UInt32.ofNat idEnd)
  return { p with buf := buf, heapStart := newOffset, prefixes := prefixes, idEnds := idEnds }

/-- What `delete_slot` does once the tuple is decoded. -/
def dropSlot (idx : Nat) : Except Halt SlottedPage := do
  let e ← p.slot idx
  let n ← p.slotCount
  let dst := dirOffset idx
  let src := dirOffset (idx + 1)
  let after ← minus n (idx + 1)
  let len := after * slotEntryBytes
  let buf ← moveWithin p.buf src len dst
  let buf ← writeU32 buf 0 (UInt32.ofNat (n - 1))
  let prefixes ← vecRemove p.prefixes idx
  let idEnds ← vecRemove p.idEnds idx
  return { p with
    buf := buf
    deadHeapBytes := p.deadHeapBytes + e.len.toNat
    prefixes := prefixes
    idEnds := idEnds }

/-- The in-place branch of `replace`. -/
def overwriteSlot (idx : Nat) (oldSlot : SlotEntry) (encoded : List UInt8) :
    Except Halt SlottedPage := do
  let buf ← copyFromSlice p.buf oldSlot.offset.toNat encoded
  let dead ← minus oldSlot.len.toNat encoded.length
  let buf ← writeSlotEntryAt buf idx ⟨oldSlot.offset, UInt32.ofNat encoded.length⟩
  return { p with buf := buf, deadHeapBytes := p.deadHeapBytes + dead }

/-- The check `replace` makes before it takes anything away. -/
def checkReclaimable (oldSlot : SlotEntry) (tupleLen : Nat) : Except Halt Unit := do
  let n ← p.slotCount
  if n > 1 then
    let free ← p.contiguousFree
    if free + p.deadHeapBytes + oldSlot.len.toNat < tupleLen then
      throw (.error .pageCapacityError)

/-- `truncate`, once it is known that slots fall away. -/
def dropFrom (n count : Nat) : Except Halt SlottedPage := do
  let lens ← ((List.range count).drop n).mapM fun i => do
    let e ← p.slot i
    return e.len.toNat
  let buf ← writeU32 p.buf 0 (UInt32.ofNat n)
  return { p with
    buf := buf
    deadHeapBytes := p.deadHeapBytes + lens.sum
    prefixes := p.prefixes.take n
    idEnds := p.idEnds.take n }

/-- Where `add` puts a tuple. -/
def addPlace (id : DBIdType) : Except Halt Nat := do
  if ← p.afterLast id then p.slotCount
  else
    let lo ← p.lowerBound id
    let hi ← p.upperBound id
    match ← p.findExactIn id lo hi with
    | some _ => throw (.error (.duplicateKey id))
    | none => return lo

/-! ## `PageTuple`: reading -/

def values : Except Halt (List Tuple) := do
  let n ← p.slotCount
  (List.range n).mapM p.decodeAt

def get (id : DBIdType) : Except Halt (Option Tuple) := do
  match ← p.findExact id with
  | some idx =>
    let t ← p.decodeAt idx
    return some t
  | none => return none

def contains (id : DBIdType) : Except Halt Bool := do
  let found ← p.findExact id
  return found.isSome

def findHintedRef (id : IdRef) (hint : Nat) : Except Halt (Option Nat) := do
  let n ← p.slotCount
  if hint < n then
    let cand ← p.idAt hint
    if cand.eq id then return some hint else p.findExactRef id
  else p.findExactRef id

def findHinted (id : DBIdType) (hint : Nat) : Except Halt (Option Nat) :=
  p.findHintedRef (.owned id) hint

inductive Bound where
  | included (id : DBIdType)
  | excluded (id : DBIdType)
  | unbounded

def seek : Bound → Except Halt Nat
  | .included k => p.lowerBound k
  | .excluded k => p.upperBound k
  | .unbounded => return 0

def successor (id : DBIdType) : Except Halt (Option Tuple) := do
  let idx ← p.upperBound id
  let n ← p.slotCount
  if idx < n then
    let t ← p.decodeAt idx
    return some t
  else return none

def first : Except Halt (Option Tuple) := do
  let n ← p.slotCount
  if n = 0 then return none
  else
    let t ← p.decodeAt 0
    return some t

def last : Except Halt (Option Tuple) := do
  let n ← p.slotCount
  if n = 0 then return none
  else
    let t ← p.decodeAt (n - 1)
    return some t

def atRef (i : Nat) : Except Halt (Option WireTuple) :=
  match p.idEnds[i]? with
  | some idEnd => do
    let record ← p.record i
    return WireTuple.readFields record idEnd.toNat
  | none => return none

def toBytes : List UInt8 := p.buf

/-! ## `PageTuple`: writing -/

/-- What is done to a page. -/
abbrev Change := Attempt SlottedPage Halt

def ensureRoom (tupleLen : Nat) : Change Unit := do
  if ← Attempt.read (·.fitsWithoutCompaction tupleLen) then return ()
  else if (← Attempt.read slotCount) > 0 then
    Attempt.update compact
    if ← Attempt.read (·.fitsWithoutCompaction tupleLen) then return ()
    else throw (.error .pageCapacityError)
  else Attempt.update (·.growToFit tupleLen)

def deleteSlot (idx : Nat) : Change Tuple := do
  let removed ← Attempt.read (·.decodeAt idx)
  Attempt.update (·.dropSlot idx)
  return removed

def add (tuple : Tuple) : Change Unit := do
  let lo ← Attempt.read (·.addPlace tuple.id)
  let encoded := tuple.encodeInto []
  ensureRoom encoded.length
  let stop ← Attempt.read fun _ => passOn (idEnd encoded)
  Attempt.update (·.insertAt lo encoded (orderPrefix tuple.id) stop)

def appendEncoded (encoded : List UInt8) : Change Unit := do
  let stop ← Attempt.read fun _ => passOn (idEnd encoded)
  let id ← Attempt.read fun _ => passOn (tupleIdEnding encoded stop)
  ensureRoom encoded.length
  let n ← Attempt.read slotCount
  Attempt.update (·.insertAt n encoded (orderPrefixOf (.wire id)) stop)

def truncate (n : Nat) : Change Unit := do
  let count ← Attempt.read slotCount
  if n ≥ count then return () else Attempt.update (·.dropFrom n count)

/-- The branch of `replace` that takes the slot away and adds the tuple anew. -/
def reinsert (id : DBIdType) (idx : Nat) (oldSlot : SlotEntry) (encoded : List UInt8) :
    Change Tuple := do
  Attempt.read (·.checkReclaimable oldSlot encoded.length)
  let old ← deleteSlot idx
  ensureRoom encoded.length
  let insertIdx ← Attempt.read (·.lowerBound id)
  let stop ← Attempt.read fun _ => passOn (idEnd encoded)
  Attempt.update (·.insertAt insertIdx encoded (orderPrefix id) stop)
  return old

def replace (id : DBIdType) (tuple : Tuple) : Change Tuple := do
  match ← Attempt.read (·.findExact id) with
  | none => throw (.error (.keyNotFound id))
  | some idx =>
    let oldSlot ← Attempt.read (·.slot idx)
    let encoded := tuple.encodeInto []
    if encoded.length ≤ oldSlot.len.toNat then
      let old ← Attempt.read (·.decodeAt idx)
      Attempt.update (·.overwriteSlot idx oldSlot encoded)
      return old
    else reinsert id idx oldSlot encoded

def remove (id : DBIdType) : Change Tuple := do
  match ← Attempt.read (·.findExact id) with
  | none => throw (.error (.keyNotFound id))
  | some idx =>
    let removed ← deleteSlot idx
    let n ← Attempt.read slotCount
    if n = 0 then
      Attempt.update shrinkToNormal
      return removed
    else return removed

def clear : Change Unit := Attempt.update fun p => do
  let declaredCapacity ← p.declaredCapacity
  let buf := blankBuffer declaredCapacity declaredCapacity
  return ⟨buf, buf.length, 0, [], []⟩

end SlottedPage

end SquealDb.Page
