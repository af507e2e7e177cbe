import SquealDb.Lib.Spans
import SquealDb.Page.Slotted

/-!
# How a slotted page lies in its buffer

`Laid p slots` says that the directory of `p` is `slots` and lies below the heap, that
the slots' spans lie in the heap apart from each other, and that the bytes of the heap
that no slot has are the dead ones.  `Shows p rs` leaves the slots out: `rs` are the
bytes each slot holds.  Every step of an operation is stated for `Shows`, so that
what follows needs no offsets.
-/

namespace SquealDb.Page

open Lib Codec

/-! ## Entries as bytes -/

theorem passOn_ok {α : Type} {r : Except StoreError α} {a : α} (h : r = .ok a) :
    passOn r = .ok a := by
  rw [h]
  rfl

variable {buf : List UInt8} {at_ idx : Nat}

theorem range_eq {start len : Nat} (h : start + len ≤ buf.length) :
    range buf start len = .ok (slice buf start len) := if_pos h

theorem copyFromSlice_eq {bytes : List UInt8} {start : Nat}
    (h : start + bytes.length ≤ buf.length) :
    copyFromSlice buf start bytes = .ok (overwrite buf start bytes) := if_pos h

theorem minus_eq {a b : Nat} (h : b ≤ a) : minus a b = .ok (a - b) := if_pos h

theorem readU32_eq (h : at_ + 4 ≤ buf.length) :
    readU32 buf at_ = .ok (u32At buf at_) := by
  rw [readU32, range_eq h]
  rfl

theorem writeU32_eq (h : at_ + 4 ≤ buf.length) (v : UInt32) :
    writeU32 buf at_ v = .ok (overwrite buf at_ (leBytes 4 v.toNat)) :=
  copyFromSlice_eq (by rw [length_leBytes]; exact h)

theorem ofLe_leBytes_u32 (v : UInt32) : UInt32.ofNat (ofLe (leBytes 4 v.toNat)) = v := by
  rw [ofLe_leBytes, Nat.mod_eq_of_lt (show v.toNat < 256 ^ 4 from v.toNat_lt), UInt32.ofNat_toNat]

theorem u32At_overwrite_self (h : at_ + 4 ≤ buf.length) (v : UInt32) :
    u32At (overwrite buf at_ (leBytes 4 v.toNat)) at_ = v := by
  have hroom : at_ + (leBytes 4 v.toNat).length ≤ buf.length := by
    rw [length_leBytes]
    exact h
  have hself := slice_overwrite_self hroom
  rw [length_leBytes] at hself
  rw [u32At, hself, ofLe_leBytes_u32]

/-- An entry of the directory, where the buffer has one. -/
def entryAt (buf : List UInt8) (idx : Nat) : SlotEntry :=
  ⟨u32At buf (dirOffset idx), u32At buf (dirOffset idx + 4)⟩

/-- An entry's bytes. -/
def SlotEntry.bytes (e : SlotEntry) : List UInt8 :=
  leBytes 4 e.offset.toNat ++ leBytes 4 e.len.toNat

@[simp] theorem SlotEntry.length_bytes (e : SlotEntry) : e.bytes.length = 8 := by
  rw [SlotEntry.bytes, List.length_append, length_leBytes, length_leBytes]

theorem dirOffset_succ (idx : Nat) : dirOffset (idx + 1) = dirOffset idx + 8 := by
  simp only [dirOffset, slotEntryBytes]
  omega

theorem dirOffset_eq (idx : Nat) : dirOffset idx = 8 + 8 * idx := by
  simp only [dirOffset, headerBytes, slotCountBytes, declaredCapacityBytes, slotEntryBytes]
  omega

/-- An entry is decided by its eight bytes. -/
theorem entryAt_congr {buf' : List UInt8} {i j : Nat}
    (h : slice buf' (dirOffset j) 8 = slice buf (dirOffset i) 8) :
    entryAt buf' j = entryAt buf i := by
  have hpart : ∀ k, k + 4 ≤ 8 →
      slice buf' (dirOffset j + k) 4 = slice buf (dirOffset i + k) 4 := by
    intro k hk
    rw [← slice_slice hk, ← slice_slice hk, h]
  have hoff := hpart 0 (by omega)
  have hlen := hpart 4 (by omega)
  rw [Nat.add_zero, Nat.add_zero] at hoff
  simp only [entryAt, u32At, hoff, hlen]

theorem slotEntryAt_eq (h : dirOffset (idx + 1) ≤ buf.length) :
    slotEntryAt buf idx = .ok (entryAt buf idx) := by
  rw [dirOffset_succ] at h
  rw [slotEntryAt, readU32_eq (show dirOffset idx + 4 ≤ _ by omega),
    readU32_eq (show dirOffset idx + 4 + 4 ≤ _ by omega)]
  rfl

theorem writeSlotEntryAt_eq (h : dirOffset (idx + 1) ≤ buf.length) (e : SlotEntry) :
    writeSlotEntryAt buf idx e = .ok (overwrite buf (dirOffset idx) e.bytes) := by
  rw [dirOffset_succ] at h
  have hroom : dirOffset idx + (leBytes 4 e.offset.toNat).length +
      (leBytes 4 e.len.toNat).length ≤ buf.length := by
    rw [length_leBytes, length_leBytes]
    exact h
  have hboth := overwrite_overwrite_append hroom
  rw [length_leBytes] at hboth
  rw [writeSlotEntryAt, writeU32_eq (by omega)]
  show writeU32 (overwrite buf (dirOffset idx) _) (dirOffset idx + 4) e.len = _
  rw [writeU32_eq (by rw [length_overwrite]; omega), hboth]
  rfl

theorem entryAt_overwrite_self (h : dirOffset (idx + 1) ≤ buf.length) (e : SlotEntry) :
    entryAt (overwrite buf (dirOffset idx) e.bytes) idx = e := by
  rw [dirOffset_succ] at h
  have hin : dirOffset idx + e.bytes.length ≤ buf.length := by
    rw [SlotEntry.length_bytes]
    exact h
  have hoff := slice_overwrite_inside hin (show 0 + 4 ≤ e.bytes.length by simp)
  have hlen := slice_overwrite_inside hin (show 4 + 4 ≤ e.bytes.length by simp)
  have hbytes : slice e.bytes 0 4 = leBytes 4 e.offset.toNat ∧
      slice e.bytes 4 4 = leBytes 4 e.len.toNat := by
    constructor
    · rw [SlotEntry.bytes, slice, List.drop_zero]
      exact List.take_left' (length_leBytes 4 _)
    · rw [SlotEntry.bytes, slice, List.drop_left' (length_leBytes 4 _)]
      exact List.take_of_length_le (by rw [length_leBytes])
  rw [Nat.add_zero, hbytes.1] at hoff
  rw [hbytes.2] at hlen
  simp only [entryAt, u32At, hoff, hlen, ofLe_leBytes_u32]

/-- Entries apart from a write are unchanged. -/
theorem entryAt_overwrite_of_disjoint {bytes : List UInt8} {start : Nat}
    (hapart : dirOffset (idx + 1) ≤ start ∨ start + bytes.length ≤ dirOffset idx) :
    entryAt (overwrite buf start bytes) idx = entryAt buf idx := by
  rw [dirOffset_succ] at hapart
  exact entryAt_congr (slice_overwrite_of_disjoint hapart)

theorem u32At_overwrite_of_disjoint {bytes : List UInt8} {start : Nat}
    (hapart : at_ + 4 ≤ start ∨ start + bytes.length ≤ at_) :
    u32At (overwrite buf start bytes) at_ = u32At buf at_ := by
  rw [u32At, slice_overwrite_of_disjoint hapart, u32At]

/-! ## The layout -/

/-- The span an entry points to. -/
def SlotEntry.span (e : SlotEntry) : Span := ⟨e.offset.toNat, e.len.toNat⟩

theorem SlotEntry.span_mk {start len : Nat} (hstart : start < 2 ^ 32) (hlen : len < 2 ^ 32) :
    SlotEntry.span ⟨UInt32.ofNat start, UInt32.ofNat len⟩ = ⟨start, len⟩ := by
  simp only [SlotEntry.span, UInt32.toNat_ofNat', Nat.mod_eq_of_lt hstart, Nat.mod_eq_of_lt hlen]

/-- The bytes an entry points to. -/
def recordOf (buf : List UInt8) (e : SlotEntry) : List UInt8 :=
  slice buf e.offset.toNat e.len.toNat

/-- The directory of a buffer. -/
structure Dir (buf : List UInt8) (slots : List SlotEntry) : Prop where
  count : (u32At buf 0).toNat = slots.length
  entries : ∀ i, (h : i < slots.length) → entryAt buf i = slots[i]

/-- The page's directory is `slots`, and its heap holds what they point to. -/
structure Laid (p : SlottedPage) (slots : List SlotEntry) : Prop where
  small : p.buf.length < 2 ^ 32
  dir : Dir p.buf slots
  dir_le : dirOffset slots.length ≤ p.heapStart
  packed : Packed p.buf.length p.heapStart p.deadHeapBytes (slots.map SlotEntry.span)
  prefixes_length : p.prefixes.length = slots.length
  idEnds_length : p.idEnds.length = slots.length

/-- The page is laid out, and its slots hold `rs`. -/
def Shows (p : SlottedPage) (rs : List (List UInt8)) : Prop :=
  ∃ slots, Laid p slots ∧ slots.map (recordOf p.buf) = rs

/-- The page declares `c` bytes, and its buffer has as many. -/
structure Roomy (c : Nat) (p : SlottedPage) : Prop where
  declared : (u32At p.buf 4).toNat = c
  length : c ≤ p.buf.length

/-- A page whose buffer keeps its length and the declared capacity stays roomy. -/
theorem Roomy.kept {c : Nat} {p p' : SlottedPage} (h : Roomy c p)
    (hlen : p'.buf.length = p.buf.length) (hdecl : u32At p'.buf 4 = u32At p.buf 4) :
    Roomy c p' := by
  constructor
  · rw [hdecl]
    exact h.declared
  · rw [hlen]
    exact h.length

section Blank

theorem length_blankBuffer (len declared : Nat) :
    (blankBuffer len declared).length = max len 8 := by
  simp only [blankBuffer, length_overwrite, List.length_replicate]
  rfl

theorem dir_blankBuffer (len declared : Nat) : Dir (blankBuffer len declared) [] where
  count := by
    have hfirst : 0 + 4 ≤ (List.replicate (max len 8) (0 : UInt8)).length := by
      rw [List.length_replicate]
      omega
    show (u32At (overwrite (overwrite (List.replicate (max len 8) 0) 0 (leBytes 4 0)) 4 _)
      0).toNat =
      0
    rw [u32At_overwrite_of_disjoint (Or.inl (by omega))]
    exact congrArg UInt32.toNat (u32At_overwrite_self hfirst 0)
  entries i h := nomatch h

theorem u32At_blankBuffer (len declared : Nat) :
    u32At (blankBuffer len declared) 4 = UInt32.ofNat declared := by
  have hroom :
    4 + 4 ≤ (overwrite (List.replicate (max len 8) (0 : UInt8)) 0 (leBytes 4 0)).length := by
    rw [length_overwrite, List.length_replicate]
    omega
  exact u32At_overwrite_self hroom (UInt32.ofNat declared)

/-- A blank page declared to hold what its buffer has. -/
theorem roomy_blank {len declared : Nat} (hlt : declared < 2 ^ 32) (hle : declared ≤ max len 8)
    {p : SlottedPage} (hbuf : p.buf = blankBuffer len declared) : Roomy declared p := by
  constructor
  · rw [hbuf, u32At_blankBuffer, UInt32.toNat_ofNat']
    exact Nat.mod_eq_of_lt hlt
  · rw [hbuf, length_blankBuffer]
    exact hle

/-- A blank page of any length. -/
theorem laid_blank {len : Nat} (declared : Nat) (hlen : len < 2 ^ 32) :
    Laid ⟨blankBuffer len declared, (blankBuffer len declared).length, 0, [], []⟩ [] where
  small := by
    rw [length_blankBuffer]
    omega
  dir := dir_blankBuffer len declared
  dir_le := by
    show 8 ≤ (blankBuffer len declared).length
    rw [length_blankBuffer]
    omega
  packed := Packed.empty _
  prefixes_length := rfl
  idEnds_length := rfl

end Blank

namespace Laid

variable {p : SlottedPage} {slots : List SlotEntry}

theorem header_le (h : Laid p slots) : 8 + 8 * slots.length ≤ p.buf.length := by
  have hdir := h.dir_le
  have hheap := h.packed.floor_le
  rw [dirOffset_eq] at hdir
  omega

theorem slotCount (h : Laid p slots) : p.slotCount = .ok slots.length := by
  have hlen := h.header_le
  rw [SlottedPage.slotCount, readU32_eq (by omega)]
  exact congrArg Except.ok h.dir.count

theorem declaredCapacity (h : Laid p slots) :
    p.declaredCapacity = .ok (u32At p.buf 4).toNat := by
  have hlen := h.header_le
  rw [SlottedPage.declaredCapacity, readU32_eq (show slotCountBytes + 4 ≤ _ by
    simp only [slotCountBytes]
    omega)]
  rfl

theorem slot (h : Laid p slots) {i : Nat} (hi : i < slots.length) : p.slot i = .ok slots[i] := by
  have hlen := h.header_le
  rw [SlottedPage.slot, slotEntryAt_eq (by rw [dirOffset_eq]; omega), h.dir.entries i hi]

theorem inside (h : Laid p slots) {e : SlotEntry} (he : e ∈ slots) :
    p.heapStart ≤ e.offset.toNat ∧ e.offset.toNat + e.len.toNat ≤ p.buf.length :=
  h.packed.inside e.span (List.mem_map_of_mem he)

theorem length_recordOf (h : Laid p slots) {e : SlotEntry} (he : e ∈ slots) :
    (recordOf p.buf e).length = e.len.toNat := length_slice (h.inside he).2

theorem record (h : Laid p slots) {i : Nat} (hi : i < slots.length) :
    p.record i = .ok (recordOf p.buf slots[i]) := by
  rw [SlottedPage.record, h.slot hi]
  exact range_eq (h.inside (List.getElem_mem hi)).2

end Laid

end SquealDb.Page
