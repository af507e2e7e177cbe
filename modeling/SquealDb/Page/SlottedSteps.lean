import SquealDb.Page.SlottedLayout

/-!
# The steps of a slotted page's operations

What each step does to the records a page shows, and that it indexes nothing outside
of the buffer.
-/

namespace SquealDb.Page

open Lib Codec

/-! ## Moving the directory -/

variable {buf : List UInt8} {len : Nat}

/-- Moving no bytes is left out, and changes nothing. -/
theorem moveWithin_eq {src dest : Nat} (hsrc : src + len ≤ buf.length)
    (hdest : dest + len ≤ buf.length) :
    moveWithin buf src len dest = .ok (overwrite buf dest (slice buf src len)) := by
  unfold moveWithin
  split
  · rw [copyWithin, range_eq hsrc]
    exact copyFromSlice_eq (by rw [length_slice hsrc]; exact hdest)
  · next hlen =>
      obtain rfl : len = 0 := by omega
      have hnil : slice buf src 0 = [] := List.take_zero
      rw [hnil, overwrite_nil]

/-- Entries `[from, to)` moved by some slots, seen at their new places. -/
theorem entryAt_move {i j k n : Nat} (hi : dirOffset (i + n) ≤ buf.length)
    (hj : dirOffset (j + n) ≤ buf.length) (hk : k < n) :
    entryAt (overwrite buf (dirOffset j) (slice buf (dirOffset i) (n * 8))) (j + k) =
      entryAt buf (i + k) := by
  rw [dirOffset_eq] at hi hj
  have hlen : (slice buf (dirOffset i) (n * 8)).length = n * 8 :=
    length_slice (by rw [dirOffset_eq]; omega)
  apply entryAt_congr
  have hroom : dirOffset j + (slice buf (dirOffset i) (n * 8)).length ≤ buf.length := by
    rw [hlen, dirOffset_eq]
    omega
  have hin := slice_overwrite_inside hroom (show 8 * k + 8 ≤ _ by rw [hlen]; omega)
  rw [slice_slice (by omega)] at hin
  rw [show dirOffset (j + k) = dirOffset j + 8 * k by rw [dirOffset_eq, dirOffset_eq]; omega,
    show dirOffset (i + k) = dirOffset i + 8 * k by rw [dirOffset_eq, dirOffset_eq]; omega]
  exact hin

/-- The buffer after `insert_at`. -/
def insertedBuf (buf : List UInt8) (n idx newOffset : Nat) (encoded : List UInt8) : List UInt8 :=
  let buf := overwrite buf (dirOffset idx + 8) (slice buf (dirOffset idx) ((n - idx) * 8))
  let buf := overwrite buf newOffset encoded
  let buf := overwrite buf (dirOffset idx)
    (SlotEntry.bytes ⟨UInt32.ofNat newOffset, UInt32.ofNat encoded.length⟩)
  overwrite buf 0 (leBytes 4 (UInt32.ofNat (n + 1)).toNat)

section Inserted

variable {buf encoded : List UInt8} {slots : List SlotEntry} {idx newOffset : Nat}

theorem length_insertedBuf (buf : List UInt8) (n idx newOffset : Nat) (encoded : List UInt8) :
    (insertedBuf buf n idx newOffset encoded).length = buf.length := by
  simp only [insertedBuf, length_overwrite]

/-- Slots from `idx` on are found one further; the new one stands at `idx`. -/
theorem Dir.inserted (h : Dir buf slots) (hidx : idx ≤ slots.length)
    (hsmall : buf.length < 2 ^ 32) (hdir : dirOffset (slots.length + 1) ≤ newOffset)
    (hin : newOffset + encoded.length ≤ buf.length) :
    Dir (insertedBuf buf slots.length idx newOffset encoded)
      (slots.insertIdx idx ⟨UInt32.ofNat newOffset, UInt32.ofNat encoded.length⟩) := by
  rw [dirOffset_eq] at hdir
  have hmoved : (slice buf (dirOffset idx) ((slots.length - idx) * 8)).length =
      (slots.length - idx) * 8 := length_slice (by rw [dirOffset_eq]; omega)
  have hlen := List.length_insertIdx_of_le_length hidx
    (⟨UInt32.ofNat newOffset, UInt32.ofNat encoded.length⟩ : SlotEntry)
  constructor
  · rw [insertedBuf, u32At_overwrite_self, UInt32.toNat_ofNat', hlen]
    · exact Nat.mod_eq_of_lt (by omega)
    · simp only [length_overwrite]
      omega
  · intro i hi
    rw [hlen] at hi
    -- the count is below every entry, and the tuple's bytes above
    have hcount : ∀ b : List UInt8, entryAt (overwrite b 0 (leBytes 4
        (UInt32.ofNat (slots.length + 1)).toNat)) i = entryAt b i := fun b =>
      entryAt_overwrite_of_disjoint (Or.inr (by rw [length_leBytes, dirOffset_eq]; omega))
    have hheap : ∀ b : List UInt8, entryAt (overwrite b newOffset encoded) i = entryAt b i :=
      fun b => entryAt_overwrite_of_disjoint (Or.inl (by rw [dirOffset_eq]; omega))
    rw [insertedBuf, hcount, List.getElem_insertIdx]
    split
    · next hlt =>
        rw [entryAt_overwrite_of_disjoint
            (Or.inl (by rw [dirOffset_eq, dirOffset_eq]; omega)), hheap,
          entryAt_overwrite_of_disjoint (Or.inl (by rw [dirOffset_eq, dirOffset_eq]; omega))]
        exact h.entries i (by omega)
    · split
      · next hge heq =>
          subst heq
          exact entryAt_overwrite_self (by
            rw [dirOffset_eq, length_overwrite, length_overwrite]
            omega) _
      · next hge hne =>
          have hmove := entryAt_move
            (show dirOffset (idx + (slots.length - idx)) ≤ buf.length by rw [dirOffset_eq]; omega)
            (show dirOffset (idx + 1 + (slots.length - idx)) ≤ buf.length by
              rw [dirOffset_eq]
              omega)
            (show i - 1 - idx < slots.length - idx by omega)
          rw [show idx + 1 + (i - 1 - idx) = i by omega,
            show idx + (i - 1 - idx) = i - 1 by omega, dirOffset_succ] at hmove
          rw [entryAt_overwrite_of_disjoint (Or.inr (by
            rw [SlotEntry.length_bytes, dirOffset_eq, dirOffset_eq]
            omega)), hheap, hmove]
          exact h.entries (i - 1) (by omega)

/-- What lies above the new tuple is unchanged. -/
theorem slice_insertedBuf {start n : Nat} (hidx : idx ≤ slots.length)
    (hdir : dirOffset (slots.length + 1) ≤ newOffset)
    (hin : newOffset + encoded.length ≤ buf.length) (habove : newOffset + encoded.length ≤ start) :
    slice (insertedBuf buf slots.length idx newOffset encoded) start n = slice buf start n := by
  rw [dirOffset_eq] at hdir
  have hmoved : (slice buf (dirOffset idx) ((slots.length - idx) * 8)).length =
      (slots.length - idx) * 8 := length_slice (by rw [dirOffset_eq]; omega)
  rw [insertedBuf, slice_overwrite_of_disjoint (Or.inr (by rw [length_leBytes]; omega)),
    slice_overwrite_of_disjoint (Or.inr (by rw [SlotEntry.length_bytes, dirOffset_eq]; omega)),
    slice_overwrite_of_disjoint (Or.inr habove),
    slice_overwrite_of_disjoint (Or.inr (by rw [hmoved, dirOffset_eq]; omega))]

/-- The new tuple's bytes. -/
theorem slice_insertedBuf_self (hidx : idx ≤ slots.length)
    (hdir : dirOffset (slots.length + 1) ≤ newOffset)
    (hin : newOffset + encoded.length ≤ buf.length) :
    slice (insertedBuf buf slots.length idx newOffset encoded) newOffset encoded.length =
      encoded := by
  rw [dirOffset_eq] at hdir
  rw [insertedBuf, slice_overwrite_of_disjoint (Or.inr (by rw [length_leBytes]; omega)),
    slice_overwrite_of_disjoint (Or.inr (by rw [SlotEntry.length_bytes, dirOffset_eq]; omega)),
    slice_overwrite_self (by rw [length_overwrite]; exact hin)]

/-- So is the declared capacity. -/
theorem u32At_insertedBuf (hidx : idx ≤ slots.length)
    (hdir : dirOffset (slots.length + 1) ≤ newOffset) :
    u32At (insertedBuf buf slots.length idx newOffset encoded) 4 = u32At buf 4 := by
  rw [dirOffset_eq] at hdir
  rw [insertedBuf, u32At_overwrite_of_disjoint (Or.inr (by rw [length_leBytes])),
    u32At_overwrite_of_disjoint (Or.inl (by rw [dirOffset_eq]; omega)),
    u32At_overwrite_of_disjoint (Or.inl (by omega)),
    u32At_overwrite_of_disjoint (Or.inl (by rw [dirOffset_eq]; omega))]

end Inserted

/-! ## Inserting -/

variable {p : SlottedPage} {slots : List SlotEntry} {rs : List (List UInt8)} {idx : Nat}
  {encoded : List UInt8}

theorem Laid.insertAt_eq (h : Laid p slots) (hidx : idx ≤ slots.length)
    (hroom : dirOffset (slots.length + 1) + encoded.length ≤ p.heapStart) (slotPrefix stop : Nat) :
    p.insertAt idx encoded slotPrefix stop = .ok
      { p with
        buf := insertedBuf p.buf slots.length idx (p.heapStart - encoded.length) encoded
        heapStart := p.heapStart - encoded.length
        prefixes := p.prefixes.insertIdx idx slotPrefix
        idEnds := p.idEnds.insertIdx idx (UInt32.ofNat stop) } := by
  have hheap := h.packed.floor_le
  rw [dirOffset_eq] at hroom
  have hcopy := moveWithin_eq
    (show dirOffset idx + (slots.length - idx) * slotEntryBytes ≤ p.buf.length by
      simp only [dirOffset_eq, slotEntryBytes]
      omega)
    (show dirOffset idx + slotEntryBytes + (slots.length - idx) * slotEntryBytes ≤ p.buf.length by
      simp only [dirOffset_eq, slotEntryBytes]
      omega)
  have hprefixes : vecInsert p.prefixes idx slotPrefix =
    .ok (p.prefixes.insertIdx idx slotPrefix) :=
    if_pos (by rw [h.prefixes_length]; exact hidx)
  have hends : vecInsert p.idEnds idx (UInt32.ofNat stop) =
      .ok (p.idEnds.insertIdx idx (UInt32.ofNat stop)) :=
    if_pos (by rw [h.idEnds_length]; exact hidx)
  simp only [SlottedPage.insertAt, h.slotCount, minus_eq hidx, bind, Except.bind]
  simp only [hcopy, minus_eq (show encoded.length ≤ p.heapStart by omega)]
  rw [copyFromSlice_eq (by rw [length_overwrite]; omega)]
  simp only
  rw [writeSlotEntryAt_eq (by rw [length_overwrite, length_overwrite, dirOffset_eq]; omega)]
  simp only
  rw [writeU32_eq (by simp only [length_overwrite]; omega)]
  simp only [hprefixes, hends]
  rfl

theorem Laid.inserted (h : Laid p slots) (hidx : idx ≤ slots.length)
    (hroom : dirOffset (slots.length + 1) + encoded.length ≤ p.heapStart) (slotPrefix stop : Nat) :
    Laid
      { p with
        buf := insertedBuf p.buf slots.length idx (p.heapStart - encoded.length) encoded
        heapStart := p.heapStart - encoded.length
        prefixes := p.prefixes.insertIdx idx slotPrefix
        idEnds := p.idEnds.insertIdx idx (UInt32.ofNat stop) }
      (slots.insertIdx idx
        ⟨UInt32.ofNat (p.heapStart - encoded.length), UInt32.ofNat encoded.length⟩) := by
  have hheap := h.packed.floor_le
  have hsmall := h.small
  have hlen : ∀ {α : Type} {l : List α} (a : α), l.length = slots.length →
      (l.insertIdx idx a).length = slots.length + 1 := fun a hl => by
    rw [List.length_insertIdx_of_le_length (by rw [hl]; exact hidx), hl]
  have hslots := hlen (⟨UInt32.ofNat (p.heapStart - encoded.length), UInt32.ofNat encoded.length⟩ :
    SlotEntry) rfl
  constructor
  · rw [length_insertedBuf]
    exact hsmall
  · exact h.dir.inserted hidx hsmall (by omega) (by omega)
  · rw [hslots]
    exact Nat.le_sub_of_add_le hroom
  · have hspans : ((slots.insertIdx idx ⟨UInt32.ofNat (p.heapStart - encoded.length),
        UInt32.ofNat encoded.length⟩).map SlotEntry.span).Perm
        (⟨p.heapStart - encoded.length, encoded.length⟩ :: slots.map SlotEntry.span) := by
      have hperm := (List.perm_insertIdx (⟨UInt32.ofNat (p.heapStart - encoded.length),
        UInt32.ofNat encoded.length⟩ : SlotEntry) slots hidx).map SlotEntry.span
      rw [List.map_cons, SlotEntry.span_mk (by omega) (by omega)] at hperm
      exact hperm
    dsimp only
    rw [length_insertedBuf]
    exact (h.packed.cons (show encoded.length ≤ p.heapStart by omega)).perm hspans.symm
  · rw [hslots]
    exact hlen slotPrefix h.prefixes_length
  · rw [hslots]
    exact hlen (UInt32.ofNat stop) h.idEnds_length

/-- A record is added to those shown, where there is room for it. -/
theorem Shows.insertAt (h : Shows p rs) (hidx : idx ≤ rs.length)
    (hroom : dirOffset (rs.length + 1) + encoded.length ≤ p.heapStart) (slotPrefix stop : Nat) :
    ∃ p', p.insertAt idx encoded slotPrefix stop = .ok p' ∧ Shows p' (rs.insertIdx idx encoded) ∧
      p'.prefixes = p.prefixes.insertIdx idx slotPrefix ∧
      p'.idEnds = p.idEnds.insertIdx idx (UInt32.ofNat stop) ∧
      ∀ c, Roomy c p → Roomy c p' := by
  obtain ⟨slots, hl, rfl⟩ := h
  rw [List.length_map] at hidx hroom
  have hheap := hl.packed.floor_le
  have hsmall := hl.small
  refine ⟨_, hl.insertAt_eq hidx hroom slotPrefix stop,
    ⟨_, hl.inserted hidx hroom slotPrefix stop, ?_⟩, rfl, rfl,
    fun c hc => hc.kept (length_insertedBuf _ _ _ _ _) (u32At_insertedBuf hidx (by omega))⟩
  have hnew : recordOf (insertedBuf p.buf slots.length idx (p.heapStart - encoded.length) encoded)
      ⟨UInt32.ofNat (p.heapStart - encoded.length), UInt32.ofNat encoded.length⟩ = encoded := by
    have hspan := SlotEntry.span_mk (show p.heapStart - encoded.length < 2 ^ 32 by omega)
      (show encoded.length < 2 ^ 32 by omega)
    simp only [SlotEntry.span, Span.mk.injEq] at hspan
    rw [recordOf, hspan.1, hspan.2]
    exact slice_insertedBuf_self hidx (by omega) (by omega)
  have hold : ∀ e ∈ slots,
      recordOf (insertedBuf p.buf slots.length idx (p.heapStart - encoded.length) encoded) e =
        recordOf p.buf e := by
    intro e he
    have hin := hl.inside he
    exact slice_insertedBuf hidx (by omega) (by omega) (by omega)
  dsimp only
  rw [List.map_insertIdx, hnew, List.map_congr_left hold]

/-! ## Taking slots away -/

/-- The buffer after `delete_slot`. -/
def droppedBuf (buf : List UInt8) (n idx : Nat) : List UInt8 :=
  let buf := overwrite buf (dirOffset idx) (slice buf (dirOffset (idx + 1)) ((n - (idx + 1)) * 8))
  overwrite buf 0 (leBytes 4 (UInt32.ofNat (n - 1)).toNat)

theorem Dir.dropped (h : Dir buf slots) (hidx : idx < slots.length) (hsmall : buf.length < 2 ^ 32)
    (hdir : dirOffset slots.length ≤ buf.length) :
    Dir (droppedBuf buf slots.length idx) (slots.eraseIdx idx) := by
  rw [dirOffset_eq] at hdir
  have hmoved : (slice buf (dirOffset (idx + 1)) ((slots.length - (idx + 1)) * 8)).length =
      (slots.length - (idx + 1)) * 8 := length_slice (by rw [dirOffset_eq]; omega)
  have hlen : (slots.eraseIdx idx).length = slots.length - 1 := List.length_eraseIdx_of_lt hidx
  constructor
  · rw [droppedBuf, u32At_overwrite_self, UInt32.toNat_ofNat', hlen]
    · exact Nat.mod_eq_of_lt (by omega)
    · simp only [length_overwrite]
      omega
  · intro i hi
    rw [hlen] at hi
    rw [droppedBuf, entryAt_overwrite_of_disjoint
      (Or.inr (by rw [length_leBytes, dirOffset_eq]; omega)), List.getElem_eraseIdx]
    split
    · next hlt =>
        rw [entryAt_overwrite_of_disjoint (Or.inl (by rw [dirOffset_eq, dirOffset_eq]; omega))]
        exact h.entries i (by omega)
    · next hge =>
        have hmove := entryAt_move
          (show dirOffset (idx + 1 + (slots.length - (idx + 1))) ≤ buf.length by
            rw [dirOffset_eq]
            omega)
          (show dirOffset (idx + (slots.length - (idx + 1))) ≤ buf.length by
            rw [dirOffset_eq]
            omega)
          (show i - idx < slots.length - (idx + 1) by omega)
        rw [show idx + (i - idx) = i by omega, show idx + 1 + (i - idx) = i + 1 by omega] at hmove
        rw [hmove]
        exact h.entries (i + 1) (by omega)

/-- What lies above the directory is unchanged. -/
theorem slice_droppedBuf {start n : Nat} (hidx : idx < slots.length)
    (hdir : dirOffset slots.length ≤ buf.length) (habove : dirOffset slots.length ≤ start) :
    slice (droppedBuf buf slots.length idx) start n = slice buf start n := by
  rw [dirOffset_eq] at hdir habove
  have hmoved : (slice buf (dirOffset (idx + 1)) ((slots.length - (idx + 1)) * 8)).length =
      (slots.length - (idx + 1)) * 8 := length_slice (by rw [dirOffset_eq]; omega)
  rw [droppedBuf, slice_overwrite_of_disjoint (Or.inr (by rw [length_leBytes]; omega)),
    slice_overwrite_of_disjoint (Or.inr (by rw [hmoved, dirOffset_eq]; omega))]

/-- A slot's record is no longer shown; its bytes are dead. -/
theorem Shows.dropSlot (h : Shows p rs) (hidx : idx < rs.length) :
    ∃ p', p.dropSlot idx = .ok p' ∧ Shows p' (rs.eraseIdx idx) ∧
      p'.prefixes = p.prefixes.eraseIdx idx ∧ p'.idEnds = p.idEnds.eraseIdx idx ∧
      p'.heapStart = p.heapStart ∧ p'.buf.length = p.buf.length ∧
      p'.deadHeapBytes = p.deadHeapBytes + rs[idx].length ∧ ∀ c, Roomy c p → Roomy c p' := by
  obtain ⟨slots, hl, rfl⟩ := h
  rw [List.length_map] at hidx
  have hheap := hl.packed.floor_le
  have hdir := hl.dir_le
  have hsmall := hl.small
  have hbuf : (droppedBuf p.buf slots.length idx).length = p.buf.length := by
    simp only [droppedBuf, length_overwrite]
  have herase : ∀ {α : Type} {l : List α}, l.length = slots.length →
      (l.eraseIdx idx).length = slots.length - 1 := fun hl => by
    rw [List.length_eraseIdx_of_lt (by rw [hl]; exact hidx), hl]
  have hslots := herase (l := slots) rfl
  refine ⟨{ p with
      buf := droppedBuf p.buf slots.length idx
      deadHeapBytes := p.deadHeapBytes + slots[idx].len.toNat
      prefixes := p.prefixes.eraseIdx idx
      idEnds := p.idEnds.eraseIdx idx }, ?_, ⟨slots.eraseIdx idx, ?_, ?_⟩, rfl, rfl, rfl, hbuf, ?_,
    fun c hc => hc.kept hbuf ?_⟩
  · have hmove := moveWithin_eq
      (show dirOffset (idx + 1) + (slots.length - (idx + 1)) * slotEntryBytes ≤ p.buf.length by
        simp only [dirOffset_eq, slotEntryBytes] at hdir ⊢
        omega)
      (show dirOffset idx + (slots.length - (idx + 1)) * slotEntryBytes ≤ p.buf.length by
        simp only [dirOffset_eq, slotEntryBytes] at hdir ⊢
        omega)
    have hprefixes : vecRemove p.prefixes idx = .ok (p.prefixes.eraseIdx idx) :=
      if_pos (by rw [hl.prefixes_length]; exact hidx)
    have hends : vecRemove p.idEnds idx = .ok (p.idEnds.eraseIdx idx) :=
      if_pos (by rw [hl.idEnds_length]; exact hidx)
    simp only [SlottedPage.dropSlot, hl.slot hidx, hl.slotCount, minus_eq hidx, bind, Except.bind,
      hmove]
    rw [writeU32_eq (by rw [length_overwrite]; rw [dirOffset_eq] at hdir; omega)]
    simp only [hprefixes, hends]
    rfl
  · constructor
    · rw [hbuf]
      exact hsmall
    · exact hl.dir.dropped hidx hsmall (by omega)
    · rw [hslots, dirOffset_eq]
      rw [dirOffset_eq] at hdir
      show _ ≤ p.heapStart
      omega
    · have hperm : (slots.map SlotEntry.span).Perm
          (slots[idx].span :: (slots.eraseIdx idx).map SlotEntry.span) :=
        ((List.getElem_cons_eraseIdx_perm hidx).map SlotEntry.span).symm
      dsimp only
      rw [hbuf]
      exact (hl.packed.perm hperm).tail
    · rw [hslots]
      exact herase hl.prefixes_length
    · rw [hslots]
      exact herase hl.idEnds_length
  · have hold : ∀ e ∈ slots.eraseIdx idx,
        recordOf (droppedBuf p.buf slots.length idx) e = recordOf p.buf e := by
      intro e he
      have hin := hl.inside (List.mem_of_mem_eraseIdx he)
      exact slice_droppedBuf hidx (by omega) (by omega)
    rw [List.map_congr_left hold, List.eraseIdx_map]
  · rw [List.getElem_map, hl.length_recordOf (List.getElem_mem hidx)]
  · show u32At (droppedBuf p.buf slots.length idx) 4 = _
    rw [droppedBuf, u32At_overwrite_of_disjoint (Or.inr (by rw [length_leBytes])),
      u32At_overwrite_of_disjoint (Or.inl (by rw [dirOffset_eq]; omega))]

theorem mapM_ok {ε α β : Type} {f : α → Except ε β} {g : α → β} {l : List α}
    (h : ∀ a ∈ l, f a = .ok (g a)) : l.mapM f = .ok (l.map g) := by
  induction l with
  | nil => rfl
  | cons a l ih =>
    rw [List.mapM_cons, h a List.mem_cons_self, ih fun b hb => h b (List.mem_cons_of_mem a hb)]
    rfl

/-- The records from `n` on are no longer shown. -/
theorem Shows.dropFrom (h : Shows p rs) {n : Nat} (hn : n < rs.length) :
    ∃ p', p.dropFrom n rs.length = .ok p' ∧ Shows p' (rs.take n) ∧
      p'.prefixes = p.prefixes.take n ∧ p'.idEnds = p.idEnds.take n ∧
      ∀ c, Roomy c p → Roomy c p' := by
  obtain ⟨slots, hl, rfl⟩ := h
  rw [List.length_map] at hn ⊢
  have hheap := hl.packed.floor_le
  have hdir := hl.dir_le
  have hsmall := hl.small
  rw [dirOffset_eq] at hdir
  have hroom : 0 + 4 ≤ p.buf.length := by omega
  have htake : ∀ {α : Type} {l : List α}, l.length = slots.length → (l.take n).length = n :=
    fun hl => by
      rw [List.length_take, hl]
      omega
  have hlens : ((List.range slots.length).drop n).mapM (fun i => do
      let e ← p.slot i
      return e.len.toNat) = .ok ((slots.drop n).map fun e => e.len.toNat) := by
    have hall := mapM_ok (l := (List.range slots.length).drop n) (f := fun i => do
      let e ← p.slot i
      return e.len.toNat) (g := fun i => (slots[i]?.map fun e => e.len.toNat).getD 0) (by
        intro i hi
        have hlt : i < slots.length := List.mem_range.mp (List.mem_of_mem_drop hi)
        rw [hl.slot hlt, List.getElem?_eq_getElem hlt]
        rfl)
    have hmap : (List.range slots.length).map
        (fun i => (slots[i]?.map fun e => e.len.toNat).getD 0) =
          slots.map fun e => e.len.toNat := by
      apply List.ext_getElem
      · simp
      · intro i hi hi'
        have hlt : i < slots.length := by simpa using hi'
        simp [List.getElem?_eq_getElem hlt]
    rw [hall, List.map_drop, hmap, List.map_drop]
  refine ⟨{ p with
      buf := overwrite p.buf 0 (leBytes 4 (UInt32.ofNat n).toNat)
      deadHeapBytes := p.deadHeapBytes + ((slots.drop n).map fun e => e.len.toNat).sum
      prefixes := p.prefixes.take n
      idEnds := p.idEnds.take n }, ?_, ⟨slots.take n, ?_, ?_⟩, rfl, rfl,
    fun c hc => hc.kept (length_overwrite _ _ _)
      (u32At_overwrite_of_disjoint (Or.inr (by rw [length_leBytes])))⟩
  · rw [SlottedPage.dropFrom, hlens, writeU32_eq hroom]
    rfl
  · constructor
    · rw [length_overwrite]
      exact hsmall
    · constructor
      · dsimp only
        rw [u32At_overwrite_self hroom, UInt32.toNat_ofNat', htake rfl]
        exact Nat.mod_eq_of_lt (by omega)
      · intro i hi
        rw [htake rfl] at hi
        dsimp only
        rw [entryAt_overwrite_of_disjoint (Or.inr (by rw [length_leBytes, dirOffset_eq]; omega)),
          List.getElem_take]
        exact hl.dir.entries i (by omega)
    · rw [htake rfl, dirOffset_eq]
      show _ ≤ p.heapStart
      omega
    · have hpacked := hl.packed
      rw [← List.take_append_drop n slots, List.map_append] at hpacked
      have htotal : Span.total ((slots.drop n).map SlotEntry.span) =
          ((slots.drop n).map fun e => e.len.toNat).sum := by
        rw [Span.total, List.map_map]
        rfl
      have hleft := hpacked.append_left
      rw [htotal] at hleft
      dsimp only
      rw [length_overwrite]
      exact hleft
    · rw [htake rfl]
      exact htake hl.prefixes_length
    · rw [htake rfl]
      exact htake hl.idEnds_length
  · have hold : ∀ e ∈ slots.take n,
        recordOf (overwrite p.buf 0 (leBytes 4 (UInt32.ofNat n).toNat)) e = recordOf p.buf e := by
      intro e he
      have hin := hl.inside (List.mem_of_mem_take he)
      exact slice_overwrite_of_disjoint (Or.inr (by rw [length_leBytes]; omega))
    rw [List.map_congr_left hold, List.map_take]

/-! ## Overwriting in place -/

/-- Two slots of a page share no byte. -/
theorem Laid.apart (h : Laid p slots) {i j : Nat} (hi : i < slots.length) (hj : j < slots.length)
    (hne : i ≠ j) : slots[i].span.Apart slots[j].span := by
  have hall := List.pairwise_iff_getElem.mp h.packed.apart
  have hspan : ∀ {k l : Nat} (hk : k < slots.length) (hl : l < slots.length), k < l →
      slots[k].span.Apart slots[l].span := by
    intro k l hk hl hkl
    have hkl := hall k l (by simpa using hk) (by simpa using hl) hkl
    simpa using hkl
  rcases Nat.lt_or_gt_of_ne hne with hlt | hgt
  · exact hspan hi hj hlt
  · exact (hspan hj hi hgt).symm

/-- A record that fits takes the place of one; what is left of it is dead. -/
theorem Shows.overwriteSlot (h : Shows p rs) (hidx : idx < rs.length)
    (hfits : encoded.length ≤ rs[idx].length) {e : SlotEntry} (he : p.slot idx = .ok e) :
    ∃ p', p.overwriteSlot idx e encoded = .ok p' ∧ Shows p' (rs.set idx encoded) ∧
      p'.prefixes = p.prefixes ∧ p'.idEnds = p.idEnds ∧ ∀ c, Roomy c p → Roomy c p' := by
  obtain ⟨slots, hl, rfl⟩ := h
  rw [List.length_map] at hidx
  obtain rfl : slots[idx] = e := by
    have hslot := hl.slot hidx
    rw [he] at hslot
    exact (Except.ok.inj hslot).symm
  rw [List.getElem_map, hl.length_recordOf (List.getElem_mem hidx)] at hfits
  have hin := hl.inside (List.getElem_mem hidx)
  have hheap := hl.packed.floor_le
  have hdir := hl.dir_le
  have hsmall := hl.small
  rw [dirOffset_eq] at hdir
  have hentry : dirOffset idx + 8 ≤ p.heapStart := by
    rw [dirOffset_eq]
    omega
  have hspan : SlotEntry.span ⟨slots[idx].offset, UInt32.ofNat encoded.length⟩ =
      ⟨slots[idx].offset.toNat, encoded.length⟩ := by
    simp only [SlotEntry.span, UInt32.toNat_ofNat',
      Nat.mod_eq_of_lt (show encoded.length < 2 ^ 32 by omega)]
  have hbuf : (overwrite (overwrite p.buf slots[idx].offset.toNat encoded) (dirOffset idx)
      (SlotEntry.bytes ⟨slots[idx].offset, UInt32.ofNat encoded.length⟩)).length =
        p.buf.length := by
    rw [length_overwrite, length_overwrite]
  refine ⟨{ p with
      buf := overwrite (overwrite p.buf slots[idx].offset.toNat encoded) (dirOffset idx)
        (SlotEntry.bytes ⟨slots[idx].offset, UInt32.ofNat encoded.length⟩)
      deadHeapBytes := p.deadHeapBytes + (slots[idx].len.toNat - encoded.length) }, ?_,
    ⟨slots.set idx ⟨slots[idx].offset, UInt32.ofNat encoded.length⟩, ?_, ?_⟩, rfl, rfl,
    fun c hc => hc.kept hbuf ?_⟩
  · simp only [SlottedPage.overwriteSlot, bind, Except.bind]
    rw [copyFromSlice_eq (by omega), minus_eq hfits]
    simp only
    rw [writeSlotEntryAt_eq (by rw [length_overwrite, dirOffset_eq]; omega)]
    rfl
  · constructor
    · rw [hbuf]
      exact hsmall
    · constructor
      · dsimp only
        rw [u32At_overwrite_of_disjoint (Or.inl (by rw [dirOffset_eq]; omega)),
          u32At_overwrite_of_disjoint (Or.inl (by omega)), List.length_set]
        exact hl.dir.count
      · intro i hi
        rw [List.length_set] at hi
        dsimp only
        rw [List.getElem_set]
        split
        · next heq =>
            subst heq
            exact entryAt_overwrite_self (by rw [length_overwrite, dirOffset_eq]; omega) _
        · next hne =>
            rw [entryAt_overwrite_of_disjoint (by
                rw [SlotEntry.length_bytes, dirOffset_eq, dirOffset_eq, dirOffset_eq]
                omega),
              entryAt_overwrite_of_disjoint (Or.inl (by rw [dirOffset_eq]; omega))]
            exact hl.dir.entries i hi
    · rw [List.length_set, dirOffset_eq]
      exact hdir
    · have hold : (slots.map SlotEntry.span).Perm
          (slots[idx].span :: (slots.eraseIdx idx).map SlotEntry.span) :=
        ((List.getElem_cons_eraseIdx_perm hidx).map SlotEntry.span).symm
      have hnew := ((List.set_perm_cons_eraseIdx hidx
        (⟨slots[idx].offset, UInt32.ofNat encoded.length⟩ : SlotEntry)).map SlotEntry.span).symm
      rw [List.map_cons, hspan] at hnew
      dsimp only
      rw [hbuf]
      exact ((hl.packed.perm hold).shrink
        (t := ⟨slots[idx].offset.toNat, encoded.length⟩) rfl hfits).perm hnew
    · rw [List.length_set]
      exact hl.prefixes_length
    · rw [List.length_set]
      exact hl.idEnds_length
  · apply List.ext_getElem
    · simp
    · intro i hi hi'
      have hlt : i < slots.length := by simpa using hi
      have hother := hl.inside (List.getElem_mem hlt)
      simp only [List.getElem_map, List.getElem_set]
      split
      · next heq =>
          subst heq
          have hself := slice_overwrite_self
            (show slots[idx].offset.toNat + encoded.length ≤ p.buf.length by omega)
          simp only [SlotEntry.span, Span.mk.injEq] at hspan
          show slice _ slots[idx].offset.toNat (UInt32.ofNat encoded.length).toNat = _
          rw [hspan.2, slice_overwrite_of_disjoint
            (Or.inr (by rw [SlotEntry.length_bytes]; omega))]
          exact hself
      · next hne =>
          have hapart := hl.apart hlt hidx (Ne.symm hne)
          simp only [Span.Apart, Span.stop, SlotEntry.span] at hapart
          rw [recordOf, slice_overwrite_of_disjoint
              (Or.inr (by rw [SlotEntry.length_bytes]; omega)),
            slice_overwrite_of_disjoint (by omega)]
          rfl
  · show u32At (overwrite (overwrite p.buf slots[idx].offset.toNat encoded) _ _) 4 = _
    rw [u32At_overwrite_of_disjoint (Or.inl (by rw [dirOffset_eq]; omega)),
      u32At_overwrite_of_disjoint (Or.inl (by omega))]

/-! ## Blank pages -/

theorem Shows.declaredCapacity (h : Shows p rs) :
    ∃ n < 2 ^ 32, p.declaredCapacity = .ok n ∧ ∀ c, Roomy c p → c = n := by
  obtain ⟨slots, hl, -⟩ := h
  exact ⟨_, (u32At p.buf 4).toNat_lt, hl.declaredCapacity, fun c hc => hc.declared.symm⟩

theorem shows_blank (declared : Nat) (hlen : len < 2 ^ 32) :
    Shows ⟨blankBuffer len declared, (blankBuffer len declared).length, 0, [], []⟩ [] :=
  ⟨[], laid_blank declared hlen, rfl⟩

theorem Shows.nil_arrays (h : Shows p []) : p.prefixes = [] ∧ p.idEnds = [] := by
  obtain ⟨slots, hl, hrs⟩ := h
  obtain rfl : slots = [] := List.map_eq_nil_iff.mp hrs
  exact ⟨List.length_eq_zero_iff.mp hl.prefixes_length, List.length_eq_zero_iff.mp hl.idEnds_length⟩

/-- An empty page grown for a tuple has room for it, and is roomy where the tuple takes
what the page declares. -/
theorem Shows.growToFit (h : Shows p []) (hlen : 16 + len < 2 ^ 32) :
    ∃ p', p.growToFit len = .ok p' ∧ Shows p' [] ∧ dirOffset 1 + len ≤ p'.heapStart ∧
      p'.prefixes = p.prefixes ∧ p'.idEnds = p.idEnds ∧
      ∀ c, Roomy c p → c ≤ 16 + len → Roomy c p' := by
  obtain ⟨declared, hlt, hdeclared, hroomy⟩ := h.declaredCapacity
  obtain ⟨hprefixes, hends⟩ := h.nil_arrays
  have hblank : Shows ⟨blankBuffer (headerBytes + slotEntryBytes + len) declared, _, 0, [],
    []⟩ [] :=
    shows_blank declared hlen
  rw [SlottedPage.growToFit, hdeclared]
  refine ⟨_, rfl, ?_, ?_, rfl, rfl, ?_⟩
  · rw [hprefixes, hends]
    exact hblank
  · show _ ≤ (blankBuffer _ _).length
    rw [length_blankBuffer, dirOffset_eq]
    simp only [headerBytes, slotCountBytes, declaredCapacityBytes, slotEntryBytes]
    omega
  · intro c hc hle
    obtain rfl := hroomy c hc
    apply roomy_blank hlt _ rfl
    simp only [headerBytes, slotCountBytes, declaredCapacityBytes, slotEntryBytes]
    omega

theorem Shows.shrinkToNormal (h : Shows p []) :
    ∃ p', p.shrinkToNormal = .ok p' ∧ Shows p' [] ∧ ∀ c, Roomy c p → Roomy c p' := by
  obtain ⟨declared, hlt, hdeclared, hroomy⟩ := h.declaredCapacity
  obtain ⟨hprefixes, hends⟩ := h.nil_arrays
  simp only [SlottedPage.shrinkToNormal, hdeclared, bind, Except.bind]
  split
  · exact ⟨p, rfl, h, fun c hc => hc⟩
  · refine ⟨_, rfl, ?_, fun c hc => ?_⟩
    · rw [hprefixes, hends]
      exact shows_blank declared hlt
    · obtain rfl := hroomy c hc
      exact roomy_blank hlt (Nat.le_max_left _ _) rfl

/-! ## Making room -/

/-- How many bytes the records have. -/
def sizes (rs : List (List UInt8)) : Nat := (rs.map List.length).sum

theorem Laid.total_spans (h : Laid p slots) :
    Span.total (slots.map SlotEntry.span) = sizes (slots.map (recordOf p.buf)) := by
  rw [Span.total, sizes, List.map_map, List.map_map]
  congr 1
  exact List.map_congr_left fun e he => (h.length_recordOf he).symm

theorem Shows.room (h : Shows p rs) :
    p.deadHeapBytes + sizes rs = p.buf.length - p.heapStart ∧ p.heapStart ≤ p.buf.length ∧
      dirOffset rs.length ≤ p.heapStart ∧ p.buf.length < 2 ^ 32 := by
  obtain ⟨slots, hl, rfl⟩ := h
  rw [← hl.total_spans, List.length_map]
  exact ⟨hl.packed.dead_eq, hl.packed.floor_le, hl.dir_le, hl.small⟩

/-- The second loop of `compact`: the records one below the other from `cursor` down,
and the entries from `k` on pointing to them. -/
theorem packEntries_spec {cursor k : Nat} (hdir : dirOffset (k + rs.length) + sizes rs ≤ cursor)
    (hcursor : cursor ≤ buf.length) (hsmall : buf.length < 2 ^ 32) :
    ∃ (buf' : List UInt8) (slots : List SlotEntry),
      SlottedPage.packEntries ((List.range' k rs.length).zip rs) buf cursor =
          .ok (buf', cursor - sizes rs) ∧
        buf'.length = buf.length ∧ slots.length = rs.length ∧
        (∀ i, (h : i < slots.length) → entryAt buf' (k + i) = slots[i]) ∧
        slots.map (recordOf buf') = rs ∧
        Packed cursor (cursor - sizes rs) 0 (slots.map SlotEntry.span) ∧
        ∀ start n, start + n ≤ dirOffset k ∨ cursor ≤ start →
          slice buf' start n = slice buf start n := by
  induction rs generalizing buf cursor k with
  | nil => exact ⟨buf, [], rfl, rfl, rfl, (fun _ h => nomatch h), rfl, Packed.empty cursor,
      fun _ _ _ => rfl⟩
  | cons r rs ih =>
    have hsizes : sizes (r :: rs) = r.length + sizes rs := rfl
    rw [hsizes, List.length_cons, dirOffset_eq] at hdir
    -- the record below the cursor, and its entry
    let buf₁ := overwrite buf (cursor - r.length) r
    let buf₂ := overwrite buf₁ (dirOffset k)
      (SlotEntry.bytes ⟨UInt32.ofNat (cursor - r.length), UInt32.ofNat r.length⟩)
    have hlen₁ : buf₁.length = buf.length := length_overwrite _ _ _
    have hlen₂ : buf₂.length = buf.length := (length_overwrite _ _ _).trans hlen₁
    obtain ⟨buf', slots, heq, hlen, hcount, hentries, hrecords, hpacked, hframe⟩ :=
      ih (show dirOffset (k + 1 + rs.length) + sizes rs ≤ cursor - r.length by
          rw [dirOffset_eq]
          omega)
        (show cursor - r.length ≤ buf₂.length by omega) (by omega)
    have hspan := SlotEntry.span_mk (show cursor - r.length < 2 ^ 32 by omega)
      (show r.length < 2 ^ 32 by omega)
    refine ⟨buf', ⟨UInt32.ofNat (cursor - r.length), UInt32.ofNat r.length⟩ :: slots, ?_,
      hlen.trans hlen₂, by rw [List.length_cons, List.length_cons, hcount], ?_, ?_, ?_, ?_⟩
    · rw [List.length_cons, List.range'_succ, List.zip_cons_cons, SlottedPage.packEntries,
        minus_eq (show r.length ≤ cursor by omega)]
      show (do
        let buf ← copyFromSlice buf (cursor - r.length) r
        let buf ← writeSlotEntryAt buf k _
        SlottedPage.packEntries _ buf (cursor - r.length)) = _
      rw [copyFromSlice_eq (by omega)]
      show (do
        let buf ← writeSlotEntryAt buf₁ k _
        SlottedPage.packEntries _ buf (cursor - r.length)) = _
      rw [writeSlotEntryAt_eq (by rw [hlen₁, dirOffset_eq]; omega)]
      show SlottedPage.packEntries _ buf₂ (cursor - r.length) = _
      rw [heq, hsizes, Nat.sub_sub]
    · intro i hi
      cases i with
      | zero =>
        have hkept : entryAt buf' k = entryAt buf₂ k :=
          entryAt_congr (hframe _ 8 (Or.inl (by rw [dirOffset_succ])))
        rw [Nat.add_zero, hkept]
        exact entryAt_overwrite_self (by rw [hlen₁, dirOffset_eq]; omega) _
      | succ i =>
        have hrest := hentries i (by simpa using hi)
        rw [show k + 1 + i = k + (i + 1) by omega] at hrest
        exact hrest
    · have hfirst : recordOf buf' ⟨UInt32.ofNat (cursor - r.length), UInt32.ofNat r.length⟩ =
          r := by
        simp only [SlotEntry.span, Span.mk.injEq] at hspan
        rw [recordOf, hspan.1, hspan.2, hframe _ _ (Or.inr (Nat.le_refl _))]
        show slice (overwrite buf₁ (dirOffset k) _) _ _ = r
        rw [slice_overwrite_of_disjoint
          (Or.inr (by rw [SlotEntry.length_bytes, dirOffset_eq]; omega))]
        exact slice_overwrite_self (by omega)
      rw [List.map_cons, hfirst, hrecords]
    · have habove := hpacked.above r.length
      rw [show cursor - r.length + r.length = cursor by omega,
        show cursor - r.length - sizes rs = cursor - sizes (r :: rs) by rw [hsizes]; omega]
        at habove
      rw [List.map_cons, hspan]
      exact habove
    · intro start n hout
      rw [hframe start n (by rw [dirOffset_succ]; omega)]
      show slice (overwrite buf₁ (dirOffset k) _) start n = _
      rw [slice_overwrite_of_disjoint (by
        rw [SlotEntry.length_bytes]
        rw [dirOffset_eq] at hout ⊢
        omega)]
      exact slice_overwrite_of_disjoint (by rw [dirOffset_eq] at hout; omega)

/-- Compacting moves the records together and leaves no dead bytes. -/
theorem Shows.compact (h : Shows p rs) :
    ∃ p', p.compact = .ok p' ∧ Shows p' rs ∧ p'.prefixes = p.prefixes ∧ p'.idEnds = p.idEnds ∧
      p'.heapStart = p.buf.length - sizes rs ∧ ∀ c, Roomy c p → Roomy c p' := by
  obtain ⟨hdead, hheap, hdir, hsmall⟩ := h.room
  obtain ⟨slots, hl, rfl⟩ := h
  rw [List.length_map] at hdir
  obtain ⟨buf', slots', heq, hlen, hcount, hentries, hrecords, hpacked, hframe⟩ :=
    packEntries_spec (show dirOffset (0 + (slots.map (recordOf p.buf)).length) +
        sizes (slots.map (recordOf p.buf)) ≤ p.buf.length by
      rw [List.length_map, Nat.zero_add]
      omega) (Nat.le_refl _) hsmall
  rw [List.length_map] at hcount
  have hgather : (List.range slots.length).mapM (fun idx => do
      let bytes ← p.record idx
      return (idx, bytes)) =
        .ok ((List.range' 0 (slots.map (recordOf p.buf)).length).zip
          (slots.map (recordOf p.buf))) := by
    have hall := mapM_ok (l := List.range slots.length) (f := fun idx => do
      let bytes ← p.record idx
      return (idx, bytes)) (g := fun i => (i, (slots[i]?.map (recordOf p.buf)).getD [])) (by
        intro i hi
        have hlt : i < slots.length := List.mem_range.mp hi
        rw [hl.record hlt, List.getElem?_eq_getElem hlt]
        rfl)
    rw [hall]
    congr 1
    apply List.ext_getElem
    · simp
    · intro i hi hi'
      have hlt : i < slots.length := by simpa using hi
      simp [List.getElem?_eq_getElem hlt]
  have hzero := hframe 0 4 (Or.inl (by rw [dirOffset_eq]; omega))
  have hfour : u32At buf' 4 = u32At p.buf 4 := by
    rw [u32At, hframe 4 4 (Or.inl (by rw [dirOffset_eq])), u32At]
  refine ⟨{ p with
      buf := buf'
      heapStart := p.buf.length - sizes (slots.map (recordOf p.buf))
      deadHeapBytes := 0 }, ?_, ⟨slots', ?_, hrecords⟩, rfl, rfl, rfl,
    fun c hc => hc.kept hlen hfour⟩
  · rw [SlottedPage.compact, hl.slotCount]
    show (List.mapM (fun idx => do
        let bytes ← p.record idx
        return (idx, bytes)) (List.range slots.length) >>= fun entries =>
      SlottedPage.packEntries entries p.buf p.buf.length >>= fun packed =>
        pure { p with buf := packed.1, heapStart := packed.2, deadHeapBytes := 0 }) = _
    rw [hgather]
    show (SlottedPage.packEntries _ p.buf p.buf.length >>= fun packed =>
      pure { p with buf := packed.1, heapStart := packed.2, deadHeapBytes := 0 }) = _
    rw [heq]
    rfl
  · constructor
    · rw [hlen]
      exact hsmall
    · constructor
      · rw [u32At, hzero, hcount]
        exact hl.dir.count
      · intro i hi
        have hentry := hentries i hi
        rw [Nat.zero_add] at hentry
        exact hentry
    · rw [hcount]
      show _ ≤ p.buf.length - _
      omega
    · dsimp only
      rw [hlen]
      exact hpacked
    · rw [hcount]
      exact hl.prefixes_length
    · rw [hcount]
      exact hl.idEnds_length

theorem Shows.slotCount (h : Shows p rs) : p.slotCount = .ok rs.length := by
  obtain ⟨slots, hl, rfl⟩ := h
  rw [List.length_map]
  exact hl.slotCount

theorem Shows.contiguousFree (h : Shows p rs) :
    p.contiguousFree = .ok (p.heapStart - dirOffset rs.length) := by
  rw [SlottedPage.contiguousFree, SlottedPage.dirEnd, h.slotCount]
  rfl

theorem Shows.fitsWithoutCompaction (h : Shows p rs) (len : Nat) :
    p.fitsWithoutCompaction len =
      .ok (decide (dirOffset (rs.length + 1) + len ≤ p.heapStart)) := by
  obtain ⟨-, -, hdir, -⟩ := h.room
  rw [SlottedPage.fitsWithoutCompaction, h.contiguousFree]
  show Except.ok (decide _) = _
  congr 2
  rw [dirOffset_succ]
  simp only [slotEntryBytes, eq_iff_iff]
  omega

/-- A record that begins a page of no records fits below the heap, or takes all that the
page declares. -/
def BeginsRoomy (c : Nat) (p : SlottedPage) (rs : List (List UInt8)) (len : Nat) : Prop :=
  rs = [] → dirOffset 1 + len ≤ p.heapStart ∨ c ≤ 16 + len

/-- Room is made without a change to what is shown, unless the records and their
entries leave none. -/
theorem Shows.ensureRoom (h : Shows p rs) (hlen : rs = [] → 16 + len < 2 ^ 32) :
    ∃ p', Shows p' rs ∧ p'.prefixes = p.prefixes ∧ p'.idEnds = p.idEnds ∧
      (∀ c, Roomy c p → BeginsRoomy c p rs len → Roomy c p') ∧
      ((SlottedPage.ensureRoom len p = (.ok (), p') ∧
          dirOffset (rs.length + 1) + len ≤ p'.heapStart) ∨
        (SlottedPage.ensureRoom len p = (.error (.error .pageCapacityError), p') ∧ rs ≠ [] ∧
          p.buf.length < dirOffset (rs.length + 1) + len + sizes rs)) := by
  unfold SlottedPage.ensureRoom
  rw [Attempt.read_bind, h.fitsWithoutCompaction]
  dsimp only
  by_cases hfits : dirOffset (rs.length + 1) + len ≤ p.heapStart
  · rw [if_pos (decide_eq_true hfits)]
    exact ⟨p, h, rfl, rfl, fun c hc _ => hc, Or.inl ⟨rfl, hfits⟩⟩
  · rw [if_neg (by simpa using hfits), Attempt.read_bind, h.slotCount]
    dsimp only
    by_cases hcount : rs.length > 0
    · obtain ⟨p', hcompact, hshows, hprefixes, hends, hstart, hroomy⟩ := h.compact
      rw [if_pos hcount, Attempt.update_bind, hcompact]
      dsimp only
      rw [Attempt.read_bind, hshows.fitsWithoutCompaction]
      dsimp only
      by_cases hroom : dirOffset (rs.length + 1) + len ≤ p'.heapStart
      · rw [if_pos (decide_eq_true hroom)]
        exact ⟨p', hshows, hprefixes, hends, fun c hc _ => hroomy c hc, Or.inl ⟨rfl, hroom⟩⟩
      · rw [if_neg (by simpa using hroom)]
        refine ⟨p', hshows, hprefixes, hends, fun c hc _ => hroomy c hc,
          Or.inr ⟨rfl, ?_, by omega⟩⟩
        exact List.ne_nil_of_length_pos hcount
    · obtain rfl : rs = [] := List.eq_nil_of_length_eq_zero (by omega)
      obtain ⟨p', hgrow, hshows, hroom, hprefixes, hends, hroomy⟩ := h.growToFit (hlen rfl)
      rw [if_neg hcount, Attempt.update_apply, hgrow]
      refine ⟨p', hshows, hprefixes, hends, fun c hc hbig => ?_, Or.inl ⟨rfl, hroom⟩⟩
      exact hroomy c hc ((hbig rfl).resolve_left hfits)

end SquealDb.Page
