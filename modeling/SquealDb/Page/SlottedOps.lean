import SquealDb.Page.SlottedSteps

/-!
# The operations of a slotted page

Each operation that changes a page, in terms of the records the page shows: given
what its search answers, the records, prefixes and id ends after it.  Whether the
search answers rightly is another matter.
-/

namespace SquealDb.Page

open Lib Codec

/-- A tuple as a slot holds it: in a form its id can be kept in. -/
structure Entry where
  tuple : Tuple
  form : IdForm
  allowed : form.Allows tuple.id

namespace Entry

/-- The slot's bytes. -/
def bytes (e : Entry) : List UInt8 := e.tuple.bytesAs e.form

/-- How many of them are the id's. -/
def idLen (e : Entry) : Nat := (e.form.bytes e.tuple.id).length

/-- An owned copy of the tuple. -/
def owned (e : Entry) : Tuple := e.tuple.ownedAs e.form

/-- A tuple as it is written. -/
def of (t : Tuple) : Entry := ⟨t, IdForm.ofId t.id, IdForm.allows_ofId t.id⟩

theorem bytes_of (t : Tuple) : (of t).bytes = t.encodeInto [] := t.bytesAs_ofId

variable {e : Entry}

theorem idLen_lt (e : Entry) : e.idLen < e.bytes.length := by
  simp only [idLen, bytes, Tuple.bytesAs, List.length_append, List.length_singleton]
  omega

theorem idEnd_bytes (h : e.bytes.length < 2 ^ 32) : idEnd e.bytes = .ok e.idLen :=
  idEnd_bytesAs (show e.bytes.length < 2 ^ 64 by omega)

theorem fromBytes_bytes (h : e.bytes.length < 2 ^ 32) : Codec.fromBytes e.bytes = .ok e.owned :=
  fromBytes_bytesAs e.allowed (show e.bytes.length < 2 ^ 64 by omega)

theorem tupleIdEnding_bytes (h : e.bytes.length < 2 ^ 32) :
    tupleIdEnding e.bytes e.idLen = .ok (e.form.wireId e.tuple.id) := by
  have hid := e.idLen_lt
  simp only [idLen] at hid
  rw [tupleIdEnding, bytes, Tuple.bytesAs, idLen, idEnding_bytes (by omega)]

end Entry

variable {p : SlottedPage} {rs : List (List UInt8)} {es : List Entry} {idx : Nat}

theorem Shows.record (h : Shows p rs) (hidx : idx < rs.length) : p.record idx = .ok rs[idx] := by
  obtain ⟨slots, hl, rfl⟩ := h
  rw [List.length_map] at hidx
  rw [hl.record hidx, List.getElem_map]

theorem Shows.slot (h : Shows p rs) (hidx : idx < rs.length) :
    ∃ e, p.slot idx = .ok e ∧ e.len.toNat = rs[idx].length := by
  obtain ⟨slots, hl, rfl⟩ := h
  rw [List.length_map] at hidx
  refine ⟨slots[idx], hl.slot hidx, ?_⟩
  rw [List.getElem_map, hl.length_recordOf (List.getElem_mem hidx)]

/-- A record is no longer than the buffer. -/
theorem Shows.length_lt (h : Shows p rs) (hidx : idx < rs.length) : rs[idx].length < 2 ^ 32 := by
  obtain ⟨e, -, hlen⟩ := h.slot hidx
  rw [← hlen]
  exact e.len.toNat_lt

theorem Shows.decodeAt (h : Shows p (es.map Entry.bytes)) (hidx : idx < es.length) :
    p.decodeAt idx = .ok es[idx].owned := by
  have hrecord := h.record (show idx < (es.map Entry.bytes).length by simpa using hidx)
  have hlen := h.length_lt (show idx < (es.map Entry.bytes).length by simpa using hidx)
  rw [List.getElem_map] at hrecord hlen
  rw [SlottedPage.decodeAt, hrecord]
  exact passOn_ok (Entry.fromBytes_bytes hlen)

/-! ## Adding -/

variable {t : Tuple} {id : DBIdType}

/-- `add`, once it has found the place. -/
theorem Shows.add (h : Shows p rs) {lo : Nat} (hplace : p.addPlace t.id = .ok lo)
    (hlo : lo ≤ rs.length) (hlen : 16 + (Entry.of t).bytes.length < 2 ^ 32) :
    ∃ p',
      (SlottedPage.add t p = (.ok (), p') ∧ Shows p' (rs.insertIdx lo (Entry.of t).bytes) ∧
          p'.prefixes = p.prefixes.insertIdx lo (orderPrefix t.id) ∧
          p'.idEnds = p.idEnds.insertIdx lo (UInt32.ofNat (Entry.of t).idLen) ∧
          ∀ c, Roomy c p → BeginsRoomy c p rs (Entry.of t).bytes.length → Roomy c p') ∨
        (SlottedPage.add t p = (.error (.error .pageCapacityError), p') ∧ Shows p' rs ∧
          p'.prefixes = p.prefixes ∧ p'.idEnds = p.idEnds ∧ rs ≠ [] ∧
          p.buf.length < dirOffset (rs.length + 1) + (Entry.of t).bytes.length + sizes rs ∧
          ∀ c, Roomy c p → Roomy c p') := by
  unfold SlottedPage.add
  rw [Attempt.read_bind, hplace]
  dsimp only
  rw [← Entry.bytes_of]
  obtain ⟨p₁, hshows, hprefixes, hends, hroomy, hroom | ⟨hroom, hne, hfull⟩⟩ :=
    h.ensureRoom fun _ => hlen
  · obtain ⟨p', hinsert, hshows', hprefixes', hends', hroomy'⟩ :=
      hshows.insertAt hlo hroom.2 (orderPrefix t.id) (Entry.of t).idLen
    rw [Attempt.bind_ok hroom.1, Attempt.read_bind,
      passOn_ok (Entry.idEnd_bytes (show (Entry.of t).bytes.length < 2 ^ 32 by omega))]
    dsimp only
    rw [Attempt.update_apply, hinsert]
    exact ⟨p', Or.inl ⟨rfl, hshows', hprefixes ▸ hprefixes', hends ▸ hends',
      fun c hc hbegins => hroomy' c (hroomy c hc hbegins)⟩⟩
  · rw [Attempt.bind_error hroom]
    exact ⟨p₁, Or.inr ⟨rfl, hshows, hprefixes, hends, hne, hfull,
      fun c hc => hroomy c hc fun hnil => absurd hnil hne⟩⟩

/-- `append_encoded` of a tuple's bytes. -/
theorem Shows.appendEncoded (h : Shows p rs) {e : Entry} (hlen : 16 + e.bytes.length < 2 ^ 32) :
    ∃ p',
      (SlottedPage.appendEncoded e.bytes p = (.ok (), p') ∧ Shows p' (rs ++ [e.bytes]) ∧
          ∀ c, Roomy c p → BeginsRoomy c p rs e.bytes.length → Roomy c p') ∨
        (SlottedPage.appendEncoded e.bytes p = (.error (.error .pageCapacityError), p') ∧
          Shows p' rs ∧ ∀ c, Roomy c p → Roomy c p') := by
  have hsmall : e.bytes.length < 2 ^ 32 := by omega
  unfold SlottedPage.appendEncoded
  rw [Attempt.read_bind, passOn_ok (Entry.idEnd_bytes hsmall)]
  dsimp only
  rw [Attempt.read_bind, passOn_ok (Entry.tupleIdEnding_bytes hsmall)]
  dsimp only
  obtain ⟨p₁, hshows, -, -, hroomy, hroom | ⟨hroom, hne, -⟩⟩ := h.ensureRoom fun _ => hlen
  · obtain ⟨p', hinsert, hshows', -, -, hroomy'⟩ := hshows.insertAt (Nat.le_refl rs.length) hroom.2
      (orderPrefixOf (.wire (e.form.wireId e.tuple.id))) e.idLen
    rw [List.insertIdx_length_self] at hshows'
    rw [Attempt.bind_ok hroom.1, Attempt.read_bind, hshows.slotCount]
    dsimp only
    rw [Attempt.update_apply, hinsert]
    exact ⟨p', Or.inl ⟨rfl, hshows', fun c hc hbegins => hroomy' c (hroomy c hc hbegins)⟩⟩
  · rw [Attempt.bind_error hroom]
    exact ⟨p₁, Or.inr ⟨rfl, hshows, fun c hc => hroomy c hc fun hnil => absurd hnil hne⟩⟩

/-! ## Taking away -/

theorem Shows.deleteSlot (h : Shows p (es.map Entry.bytes)) (hidx : idx < es.length) :
    ∃ p', SlottedPage.deleteSlot idx p = (.ok es[idx].owned, p') ∧
      Shows p' ((es.eraseIdx idx).map Entry.bytes) ∧ p'.prefixes = p.prefixes.eraseIdx idx ∧
      p'.idEnds = p.idEnds.eraseIdx idx ∧ p'.heapStart = p.heapStart ∧
      p'.buf.length = p.buf.length ∧ ∀ c, Roomy c p → Roomy c p' := by
  obtain ⟨p', hdrop, hshows, hprefixes, hends, hstart, hbuf, -, hroomy⟩ :=
    h.dropSlot (show idx < (es.map Entry.bytes).length by simpa using hidx)
  rw [List.eraseIdx_map] at hshows
  refine ⟨p', ?_, hshows, hprefixes, hends, hstart, hbuf, hroomy⟩
  unfold SlottedPage.deleteSlot
  rw [Attempt.read_bind, h.decodeAt hidx]
  dsimp only
  rw [Attempt.update_bind, hdrop]
  rfl

theorem Shows.truncate (h : Shows p rs) (n : Nat) :
    ∃ p', SlottedPage.truncate n p = (.ok (), p') ∧ Shows p' (rs.take n) ∧
      p'.prefixes = p.prefixes.take n ∧ p'.idEnds = p.idEnds.take n ∧
      ∀ c, Roomy c p → Roomy c p' := by
  unfold SlottedPage.truncate
  rw [Attempt.read_bind, h.slotCount]
  dsimp only
  by_cases hn : n ≥ rs.length
  · obtain ⟨slots, hl, rfl⟩ := h
    rw [List.length_map] at hn
    rw [List.length_map, if_pos hn]
    refine ⟨p, rfl, ?_, ?_, ?_, fun c hc => hc⟩
    · rw [List.take_of_length_le (by rw [List.length_map]; exact hn)]
      exact ⟨slots, hl, rfl⟩
    · rw [List.take_of_length_le (by rw [hl.prefixes_length]; exact hn)]
    · rw [List.take_of_length_le (by rw [hl.idEnds_length]; exact hn)]
  · obtain ⟨p', hdrop, hshows, hprefixes, hends, hroomy⟩ := h.dropFrom (n := n) (by omega)
    rw [if_neg hn, Attempt.update_apply, hdrop]
    exact ⟨p', rfl, hshows, hprefixes, hends, hroomy⟩

theorem Shows.clear (h : Shows p rs) :
    ∃ p', SlottedPage.clear p = (.ok (), p') ∧ Shows p' [] ∧ ∀ c, Roomy c p → Roomy c p' := by
  obtain ⟨declared, hlt, hdeclared, hroomy⟩ := h.declaredCapacity
  unfold SlottedPage.clear
  rw [Attempt.update_apply, hdeclared]
  refine ⟨_, rfl, shows_blank declared hlt, fun c hc => ?_⟩
  obtain rfl := hroomy c hc
  exact roomy_blank hlt (Nat.le_max_left _ _) rfl

/-- `remove`, once it has found the slot. -/
theorem Shows.remove (h : Shows p (es.map Entry.bytes)) (hfound : p.findExact id = .ok (some idx))
    (hidx : idx < es.length) :
    ∃ p', SlottedPage.remove id p = (.ok es[idx].owned, p') ∧
      Shows p' ((es.eraseIdx idx).map Entry.bytes) ∧
      (p'.prefixes = p.prefixes.eraseIdx idx ∧ p'.idEnds = p.idEnds.eraseIdx idx) ∧
      ∀ c, Roomy c p → Roomy c p' := by
  obtain ⟨p₁, hdelete, hshows, hprefixes, hends, -, -, hroomy⟩ := h.deleteSlot hidx
  unfold SlottedPage.remove
  rw [Attempt.read_bind, hfound]
  dsimp only
  rw [Attempt.bind_ok hdelete, Attempt.read_bind, hshows.slotCount, List.length_map]
  dsimp only
  by_cases hnil : (es.eraseIdx idx).length = 0
  · have hempty := List.eq_nil_of_length_eq_zero hnil
    rw [hempty] at hshows ⊢
    obtain ⟨p', hshrink, hshows', hroomy'⟩ := hshows.shrinkToNormal
    obtain ⟨hprefixes₁, hends₁⟩ := hshows.nil_arrays
    obtain ⟨hprefixes', hends'⟩ := hshows'.nil_arrays
    rw [if_pos List.length_nil, Attempt.update_bind, hshrink]
    exact ⟨p', rfl, hshows', ⟨by rw [hprefixes', ← hprefixes, hprefixes₁],
      by rw [hends', ← hends, hends₁]⟩, fun c hc => hroomy' c (hroomy c hc)⟩
  · rw [if_neg hnil]
    exact ⟨p₁, rfl, hshows, ⟨hprefixes, hends⟩, hroomy⟩

/-! ## Replacing -/

theorem sizes_perm {rs' : List (List UInt8)} (h : rs.Perm rs') : sizes rs = sizes rs' :=
  (h.map List.length).sum_eq

theorem sizes_eraseIdx (hidx : idx < rs.length) :
    sizes rs = rs[idx].length + sizes (rs.eraseIdx idx) :=
  (sizes_perm (List.getElem_cons_eraseIdx_perm hidx)).symm

/-- The check passes exactly if the record fits once its slot is given up, or if it is
the only one. -/
theorem Shows.checkReclaimable (h : Shows p rs) (e : SlotEntry) (len : Nat) :
    p.checkReclaimable e len =
      if rs.length > 1 ∧ p.heapStart - dirOffset rs.length + p.deadHeapBytes + e.len.toNat <
        len then
        .error (.error .pageCapacityError)
      else .ok () := by
  rw [SlottedPage.checkReclaimable, h.slotCount]
  show (if rs.length > 1 then _ else _) = _
  by_cases hmany : rs.length > 1
  · rw [if_pos hmany, h.contiguousFree]
    show (if _ then _ else _) = _
    by_cases hroom : p.heapStart - dirOffset rs.length + p.deadHeapBytes + e.len.toNat < len
    · rw [if_pos hroom, if_pos ⟨hmany, hroom⟩]
      rfl
    · rw [if_neg hroom, if_neg fun hboth => hroom hboth.2]
      rfl
  · rw [if_neg hmany, if_neg fun hboth => hmany hboth.1]
    rfl

/-- Where the check passes, and other records stay, a compaction leaves room for the
record and its entry: the check has counted the same bytes. -/
theorem Shows.room_of_reclaimable (h : Shows p rs) (hidx : idx < rs.length) {e : SlotEntry}
    (he : p.slot idx = .ok e) {len : Nat} (hne : rs.eraseIdx idx ≠ [])
    (hfits : ¬ (rs.length > 1 ∧
      p.heapStart - dirOffset rs.length + p.deadHeapBytes + e.len.toNat < len)) :
    dirOffset ((rs.eraseIdx idx).length + 1) + len + sizes (rs.eraseIdx idx) ≤ p.buf.length := by
  obtain ⟨hdead, hheap, hdir, -⟩ := h.room
  obtain ⟨e', he', hlen⟩ := h.slot hidx
  have hsame : e = e' := by
    rw [he] at he'
    exact Except.ok.inj he'
  have herase := sizes_eraseIdx hidx
  have hcount : (rs.eraseIdx idx).length = rs.length - 1 := List.length_eraseIdx_of_lt hidx
  have hmany : (rs.eraseIdx idx).length ≠ 0 := fun h0 => hne (List.eq_nil_of_length_eq_zero h0)
  subst hsame
  rw [hcount, show rs.length - 1 + 1 = rs.length by omega]
  omega

/-- The branch of `replace` that adds the tuple anew: it fails before it has changed
anything, or takes the slot away and has room for the tuple. -/
theorem Shows.reinsert (h : Shows p (es.map Entry.bytes)) (hidx : idx < es.length) {e : SlotEntry}
    (he : p.slot idx = .ok e) (hlen : 16 + (Entry.of t).bytes.length < 2 ^ 32) :
    SlottedPage.reinsert id idx e (t.encodeInto []) p = (.error (.error .pageCapacityError), p) ∨
      ∃ p₁, Shows p₁ ((es.eraseIdx idx).map Entry.bytes) ∧
        p₁.prefixes = p.prefixes.eraseIdx idx ∧ p₁.idEnds = p.idEnds.eraseIdx idx ∧
        (∀ c, Roomy c p →
          BeginsRoomy c p ((es.eraseIdx idx).map Entry.bytes) (Entry.of t).bytes.length →
          Roomy c p₁) ∧
        (∀ halt, p₁.lowerBound id = .error halt →
          SlottedPage.reinsert id idx e (t.encodeInto []) p = (.error halt, p₁)) ∧
        ∀ k, p₁.lowerBound id = .ok k → k ≤ (es.eraseIdx idx).length →
          ∃ p', SlottedPage.reinsert id idx e (t.encodeInto []) p = (.ok es[idx].owned, p') ∧
            Shows p' (((es.eraseIdx idx).insertIdx k (Entry.of t)).map Entry.bytes) ∧
            p'.prefixes = p₁.prefixes.insertIdx k (orderPrefix id) ∧
            p'.idEnds = p₁.idEnds.insertIdx k (UInt32.ofNat (Entry.of t).idLen) ∧
            ∀ c, Roomy c p₁ → Roomy c p' := by
  rw [← Entry.bytes_of]
  unfold SlottedPage.reinsert
  rw [Attempt.read_bind, h.checkReclaimable]
  by_cases hfull : (es.map Entry.bytes).length > 1 ∧
      p.heapStart - dirOffset (es.map Entry.bytes).length + p.deadHeapBytes + e.len.toNat <
        (Entry.of t).bytes.length
  · rw [if_pos hfull]
    exact Or.inl rfl
  · rw [if_neg hfull]
    right
    dsimp only
    obtain ⟨p₀, hdelete, hshows₀, hprefixes₀, hends₀, hstart, hbuf, hroomy₀⟩ := h.deleteSlot hidx
    obtain ⟨p₁, hshows₁, hprefixes₁, hends₁, hroomy₁, hroom | ⟨-, hne, hroom⟩⟩ :=
      hshows₀.ensureRoom fun _ => hlen
    · refine ⟨p₁, hshows₁, hprefixes₁.trans hprefixes₀, hends₁.trans hends₀, ?_, ?_, ?_⟩
      · intro c hc hbegins
        apply hroomy₁ c (hroomy₀ c hc)
        intro hnil
        rw [hstart]
        exact hbegins hnil
      · intro halt hbound
        rw [Attempt.bind_ok hdelete, Attempt.bind_ok hroom.1, Attempt.read_bind, hbound]
      · intro k hbound hk
        obtain ⟨p', hinsert, hshows', hprefixes', hends', hroomy'⟩ := hshows₁.insertAt
          (show k ≤ ((es.eraseIdx idx).map Entry.bytes).length by rw [List.length_map]; exact hk)
          hroom.2 (orderPrefix id) (Entry.of t).idLen
        rw [← List.map_insertIdx] at hshows'
        refine ⟨p', ?_, hshows', hprefixes', hends', hroomy'⟩
        rw [Attempt.bind_ok hdelete, Attempt.bind_ok hroom.1, Attempt.read_bind, hbound]
        dsimp only
        rw [Attempt.read_bind,
          passOn_ok (Entry.idEnd_bytes (show (Entry.of t).bytes.length < 2 ^ 32 by omega))]
        dsimp only
        rw [Attempt.update_bind, hinsert]
        rfl
    · exfalso
      have hcounted := h.room_of_reclaimable
        (show idx < (es.map Entry.bytes).length by simpa using hidx) he
        (by rw [List.eraseIdx_map]; exact hne) hfull
      rw [List.eraseIdx_map, List.length_map] at hcounted
      rw [hbuf, List.length_map] at hroom
      omega

/-- `replace` of a slot that the tuple fits into. -/
theorem Shows.replace_inPlace (h : Shows p (es.map Entry.bytes))
    (hfound : p.findExact id = .ok (some idx)) (hidx : idx < es.length)
    (hfits : (Entry.of t).bytes.length ≤ es[idx].bytes.length) :
    ∃ p', SlottedPage.replace id t p = (.ok es[idx].owned, p') ∧
      Shows p' ((es.set idx (Entry.of t)).map Entry.bytes) ∧ p'.prefixes = p.prefixes ∧
      p'.idEnds = p.idEnds ∧ ∀ c, Roomy c p → Roomy c p' := by
  have hidx' : idx < (es.map Entry.bytes).length := by simpa using hidx
  obtain ⟨e, he, hlen⟩ := h.slot hidx'
  obtain ⟨p', hover, hshows, hprefixes, hends, hroomy⟩ :=
    h.overwriteSlot hidx' (show (Entry.of t).bytes.length ≤ _ by
      rw [List.getElem_map]
      exact hfits) he
  rw [← List.map_set] at hshows
  rw [List.getElem_map] at hlen
  refine ⟨p', ?_, hshows, hprefixes, hends, hroomy⟩
  unfold SlottedPage.replace
  rw [Attempt.read_bind, hfound]
  dsimp only
  rw [Attempt.read_bind, he, ← Entry.bytes_of]
  dsimp only
  rw [if_pos (by rw [hlen]; exact hfits), Attempt.read_bind, h.decodeAt hidx]
  dsimp only
  rw [Attempt.update_bind, hover]
  rfl

/-- `replace` of a slot that the tuple does not fit into. -/
theorem Shows.replace_anew (h : Shows p (es.map Entry.bytes))
    (hfound : p.findExact id = .ok (some idx)) (hidx : idx < es.length)
    (hbig : es[idx].bytes.length < (Entry.of t).bytes.length) :
    ∃ e, p.slot idx = .ok e ∧
      SlottedPage.replace id t p = SlottedPage.reinsert id idx e (t.encodeInto []) p := by
  obtain ⟨e, he, hlen⟩ := h.slot (show idx < (es.map Entry.bytes).length by simpa using hidx)
  rw [List.getElem_map] at hlen
  refine ⟨e, he, ?_⟩
  unfold SlottedPage.replace
  rw [Attempt.read_bind, hfound]
  dsimp only
  rw [Attempt.read_bind, he]
  dsimp only
  rw [if_neg (by rw [← Entry.bytes_of, hlen]; omega)]

/-- `replace` where the search finds nothing, or fails. -/
theorem replace_not_found (h : p.findExact id = .ok none) :
    SlottedPage.replace id t p = (.error (.error (.keyNotFound id)), p) := by
  unfold SlottedPage.replace
  rw [Attempt.read_bind, h]
  rfl

theorem replace_error {halt : Halt} (h : p.findExact id = .error halt) :
    SlottedPage.replace id t p = (.error halt, p) := by
  unfold SlottedPage.replace
  rw [Attempt.read_bind, h]

theorem remove_not_found (h : p.findExact id = .ok none) :
    SlottedPage.remove id p = (.error (.error (.keyNotFound id)), p) := by
  unfold SlottedPage.remove
  rw [Attempt.read_bind, h]
  rfl

theorem remove_error {halt : Halt} (h : p.findExact id = .error halt) :
    SlottedPage.remove id p = (.error halt, p) := by
  unfold SlottedPage.remove
  rw [Attempt.read_bind, h]

theorem add_error {halt : Halt} (h : p.addPlace t.id = .error halt) :
    SlottedPage.add t p = (.error halt, p) := by
  unfold SlottedPage.add
  rw [Attempt.read_bind, h]

end SquealDb.Page
