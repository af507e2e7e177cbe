import SquealDb.Page.SlottedBounds

/-!
# The space of a page

`Page` of `page.rs` as far as its space goes: the slotted page it holds, the bytes it
counts as used, the size of its data and the budget of an entry.  `can_store` decides
by the counter, `SlottedPage::ensure_room` by the buffer.

The counter and the sizes are `u64`s in the source and unbounded here; the dirty flag
that each operation sets at its end is left out.
-/

namespace SquealDb.Space

open Lib Codec KeyCode Page

def usableDataMargin : Nat := 16

/-- `entry_overhead` of a slotted page. -/
def entryOverhead : Nat := slotEntryBytes

def size (t : Tuple) : Nat := t.encodedLen

/-- `Page`, with what its space is decided by. -/
structure Page where
  data : SlottedPage
  pageUsedSize : Nat
  pageDataSize : Nat
  recordSize : Option Nat
  deriving DecidableEq, Repr

namespace Page

/-- `Page::new`: `page_data_size` is what the overhead leaves of the page's size. -/
def new (pageDataSize : Nat) (recordSize : Option Nat) : Page :=
  ⟨SlottedPage.new pageDataSize, 0, pageDataSize, recordSize⟩

section Reading

variable (pg : Page)

def usableDataSize : Nat := pg.pageDataSize - usableDataMargin

def storedSize (t : Tuple) : Nat := size t + entryOverhead

def canStoreLen (len : Nat) : Bool :=
  pg.pageUsedSize == 0 || pg.pageUsedSize + len + entryOverhead ≤ pg.usableDataSize

def canStore (t : Tuple) : Bool := pg.canStoreLen (size t)

/-- The budget of an entry, checked ahead of anything else. -/
def checkRecordSize (len : Nat) : Except Halt Unit :=
  match pg.recordSize with
  | some max => if len > max then .error (.error (.tupleTooLarge len max)) else .ok ()
  | none => .ok ()

/-- `checked_sub` of the bytes used. -/
def giveBack (what : String) (bytes : Nat) : Except Halt Page :=
  if bytes ≤ pg.pageUsedSize then .ok { pg with pageUsedSize := pg.pageUsedSize - bytes }
  else .error (.error (.unknownError what))

end Reading

/-- What is done to a page. -/
abbrev Change := Attempt Page Halt

/-- An operation on the page's content. -/
def onData {α : Type} (m : SlottedPage.Change α) : Change α := fun pg =>
  ((m pg.data).1, { pg with data := (m pg.data).2 })

/-- `page_used_size += bytes`. -/
def use (bytes : Nat) : Change Unit :=
  Attempt.update fun pg => .ok { pg with pageUsedSize := pg.pageUsedSize + bytes }

/-- Puts a tuple of `len` encoded bytes on the page. -/
def put (len : Nat) (m : SlottedPage.Change Unit) : Change Unit := do
  Attempt.read (·.checkRecordSize len)
  if !(← Attempt.read fun pg => .ok (pg.canStoreLen len)) then throw (.error .pageCapacityError)
  else
    onData m
    use (len + entryOverhead)

def addTuple (t : Tuple) : Change Unit := put (size t) (SlottedPage.add t)

def appendEncoded (encoded : List UInt8) : Change Unit :=
  put encoded.length (SlottedPage.appendEncoded encoded)

/-- What `truncate` counts as removed. -/
def sizesFrom (pg : Page) (n : Nat) : Except Halt Nat := do
  let count ← pg.data.slotCount
  let lens ← ((List.range count).drop n).mapM fun i => do
    let record ← pg.data.record i
    return record.length + entryOverhead
  return lens.sum

def truncate (n : Nat) : Change Unit := do
  let removed ← Attempt.read (·.sizesFrom n)
  onData (SlottedPage.truncate n)
  Attempt.update (·.giveBack "truncate: used size underflow" removed)

def removeTuple (id : DBIdType) : Change Tuple := do
  let old ← onData (SlottedPage.remove id)
  let used ← Attempt.read fun pg => .ok pg.pageUsedSize
  Attempt.update (·.giveBack
    s!"remove_tuple used_size underflow: used={used} old={storedSize old}" (storedSize old))
  return old

def replaceTuple (id : DBIdType) (t : Tuple) : Change Tuple := do
  Attempt.read (·.checkRecordSize (size t))
  let old ← onData (SlottedPage.replace id t)
  let used ← Attempt.read fun pg => .ok pg.pageUsedSize
  Attempt.update (·.giveBack
    s!"replace_tuple used_size underflow: used={used} old={size old}" (size old))
  use (size t)
  return old

def clear : Change Unit := do
  onData SlottedPage.clear
  Attempt.update fun pg => .ok { pg with pageUsedSize := 0 }

/-- An operation, what it returns left out. -/
def apply : PageOp → Change Unit
  | .add t => addTuple t
  | .appendEncoded encoded => appendEncoded encoded
  | .replace id t => do
    let _ ← replaceTuple id t
    return ()
  | .remove id => do
    let _ ← removeTuple id
    return ()
  | .truncate n => truncate n
  | .clear => clear

/-- The page after an operation, whether it succeeds or fails. -/
def step (pg : Page) (op : PageOp) : Page := (apply op pg).2

end Page

/-! ## What the operations come to -/

section Apply

variable {pg : Page} {t old : Tuple} {d : SlottedPage} {halt : Halt}

theorem onData_ok {α : Type} {m : SlottedPage.Change α} {a : α} (h : m pg.data = (.ok a, d)) :
    Page.onData m pg = (.ok a, { pg with data := d }) := by
  rw [Page.onData, h]

theorem onData_error {α : Type} {m : SlottedPage.Change α} (h : m pg.data = (.error halt, d)) :
    Page.onData m pg = (.error halt, { pg with data := d }) := by
  rw [Page.onData, h]

/-- The tuple is within the budget of an entry. -/
def Within (pg : Page) (len : Nat) : Prop := ∀ max, pg.recordSize = some max → len ≤ max

instance (pg : Page) (len : Nat) : Decidable (Within pg len) :=
  match h : pg.recordSize with
  | some max => decidable_of_iff (len ≤ max) (by simp [Within, h])
  | none => .isTrue (by simp [Within, h])

theorem checkRecordSize_of_within {len : Nat} (h : Within pg len) :
    pg.checkRecordSize len = .ok () := by
  unfold Page.checkRecordSize
  split
  · next max hmax => rw [if_neg (by have := h max hmax; omega)]
  · rfl

theorem checkRecordSize_of_not_within {len : Nat} (h : ¬ Within pg len) :
    ∃ max, pg.checkRecordSize len = .error (.error (.tupleTooLarge len max)) := by
  unfold Page.checkRecordSize
  split
  · next max hmax =>
      refine ⟨max, if_pos ?_⟩
      by_contra hle
      apply h
      intro m hm
      rw [hmax] at hm
      cases hm
      omega
  · next hnone => exact absurd (fun m hm => by rw [hnone] at hm; cases hm) h

theorem canStoreLen_iff {len : Nat} : pg.canStoreLen len = true ↔
    pg.pageUsedSize = 0 ∨ pg.pageUsedSize + len + 8 ≤ pg.pageDataSize - 16 := by
  rw [Page.canStoreLen, Bool.or_eq_true, beq_iff_eq]
  exact or_congr_right decide_eq_true_iff

section Put

variable {len : Nat} {m : SlottedPage.Change Unit}

theorem put_ok (hwithin : Within pg len) (hcan : pg.canStoreLen len = true)
    (h : m pg.data = (.ok (), d)) :
    Page.put len m pg = (.ok (),
      { pg with data := d, pageUsedSize := pg.pageUsedSize + (len + entryOverhead) }) := by
  unfold Page.put
  rw [Attempt.read_bind, checkRecordSize_of_within hwithin]
  dsimp only
  rw [Attempt.read_bind]
  dsimp only
  rw [hcan, if_neg (by decide), Attempt.bind_ok (onData_ok h)]
  rfl

theorem put_error (hwithin : Within pg len) (hcan : pg.canStoreLen len = true)
    (h : m pg.data = (.error halt, d)) :
    Page.put len m pg = (.error halt, { pg with data := d }) := by
  unfold Page.put
  rw [Attempt.read_bind, checkRecordSize_of_within hwithin]
  dsimp only
  rw [Attempt.read_bind]
  dsimp only
  rw [hcan, if_neg (by decide), Attempt.bind_error (onData_error h)]

/-- A tuple over the budget, or one that the counter has no room for, changes nothing. -/
theorem put_refused (h : ¬ (Within pg len ∧ pg.canStoreLen len = true)) :
    ∃ e, Page.put len m pg = (.error (.error e), pg) ∧ ∀ what, e ≠ .unknownError what := by
  unfold Page.put
  rw [Attempt.read_bind]
  by_cases hwithin : Within pg len
  · have hcan : pg.canStoreLen len = false := by
      rw [← Bool.not_eq_true]
      exact fun hcan => h ⟨hwithin, hcan⟩
    rw [checkRecordSize_of_within hwithin]
    dsimp only
    rw [Attempt.read_bind]
    dsimp only
    rw [hcan, if_pos (by decide)]
    exact ⟨_, rfl, nofun⟩
  · obtain ⟨max, hmax⟩ := checkRecordSize_of_not_within hwithin
    rw [hmax]
    exact ⟨_, rfl, nofun⟩

end Put

theorem giveBack_of_le {what : String} {bytes : Nat} (h : bytes ≤ pg.pageUsedSize) :
    pg.giveBack what bytes = .ok { pg with pageUsedSize := pg.pageUsedSize - bytes } := if_pos h

variable {id : DBIdType}

theorem removeTuple_ok (h : SlottedPage.remove id pg.data = (.ok old, d))
    (hle : Page.storedSize old ≤ pg.pageUsedSize) :
    Page.removeTuple id pg = (.ok old,
      { pg with data := d, pageUsedSize := pg.pageUsedSize - Page.storedSize old }) := by
  unfold Page.removeTuple
  rw [Attempt.bind_ok (onData_ok h), Attempt.read_bind]
  dsimp only
  rw [Attempt.update_bind, giveBack_of_le
    (show Page.storedSize old ≤ ({ pg with data := d } : Page).pageUsedSize from hle)]
  rfl

theorem removeTuple_error (h : SlottedPage.remove id pg.data = (.error halt, d)) :
    Page.removeTuple id pg = (.error halt, { pg with data := d }) := by
  unfold Page.removeTuple
  rw [Attempt.bind_error (onData_error h)]

theorem replaceTuple_ok (hwithin : Within pg (size t))
    (h : SlottedPage.replace id t pg.data = (.ok old, d)) (hle : size old ≤ pg.pageUsedSize) :
    Page.replaceTuple id t pg = (.ok old,
      { pg with data := d, pageUsedSize := pg.pageUsedSize - size old + size t }) := by
  unfold Page.replaceTuple
  rw [Attempt.read_bind, checkRecordSize_of_within hwithin]
  dsimp only
  rw [Attempt.bind_ok (onData_ok h), Attempt.read_bind]
  dsimp only
  rw [Attempt.update_bind, giveBack_of_le
    (show size old ≤ ({ pg with data := d } : Page).pageUsedSize from hle)]
  rfl

theorem replaceTuple_error (hwithin : Within pg (size t))
    (h : SlottedPage.replace id t pg.data = (.error halt, d)) :
    Page.replaceTuple id t pg = (.error halt, { pg with data := d }) := by
  unfold Page.replaceTuple
  rw [Attempt.read_bind, checkRecordSize_of_within hwithin]
  dsimp only
  rw [Attempt.bind_error (onData_error h)]

theorem replaceTuple_refused (id : DBIdType) (h : ¬ Within pg (size t)) :
    ∃ e, Page.replaceTuple id t pg = (.error (.error e), pg) ∧ ∀ what, e ≠ .unknownError what := by
  obtain ⟨max, hmax⟩ := checkRecordSize_of_not_within h
  unfold Page.replaceTuple
  rw [Attempt.read_bind, hmax]
  exact ⟨_, rfl, nofun⟩

end Apply

/-! ## The counter and the buffer -/

section Settled

theorem fieldBytes_tight (v : ValueItem) : fieldBytes v.tight = fieldBytes v := by
  cases v <;> rfl

theorem holdsEnd_tight (v : ValueItem) : holdsEnd v.tight = holdsEnd v := by
  cases v <;> rfl

/-- An id that is read from the form it is written in is written the same again. -/
theorem id_owned_ofId (id : DBIdType) :
    Postcard.id ((IdForm.ofId id).owned id) = Postcard.id id := by
  cases id with
  | int n => rfl
  | record k =>
    by_cases h : Storable k
    · have htight : Storable (IndexKey.tight k) := by
        intro v hv
        obtain ⟨w, hw, rfl⟩ := List.mem_map.mp hv
        rw [holdsEnd_tight]
        exact h w hw
      have hbytes : (IndexKey.tight k).flatMap fieldBytes = k.flatMap fieldBytes := by
        rw [IndexKey.tight, List.flatMap_map]
        exact congrArg k.flatMap (funext fieldBytes_tight)
      rw [IdForm.ofId, if_pos h]
      show Postcard.id (.record (IndexKey.tight k)) = _
      rw [Postcard.id_record, Postcard.id_record, if_pos htight, if_pos h, hbytes]
    · rw [IdForm.ofId, if_neg h]
      rfl

/-- The tuple that is read from a slot is as long, encoded anew, as the slot. -/
def Settled (e : Entry) : Prop := size e.owned = e.bytes.length

theorem length_bytes_of (t : Tuple) : (Entry.of t).bytes.length = size t := by
  rw [Entry.bytes_of, encodeInto_eq, List.nil_append, size, encodedLen_eq]

theorem settled_of (t : Tuple) : Settled (Entry.of t) := by
  rw [Settled, length_bytes_of, size, size, encodedLen_eq, encodedLen_eq]
  simp only [Entry.owned, Tuple.ownedAs, Entry.of, Postcard.tuple, id_owned_ofId]

end Settled

theorem sum_stored (rs : List (List UInt8)) :
    (rs.map fun r => r.length + entryOverhead).sum = sizes rs + 8 * rs.length := by
  induction rs with
  | nil => rfl
  | cons r rs ih =>
    have hsizes : sizes (r :: rs) = r.length + sizes rs := rfl
    have hover : entryOverhead = 8 := rfl
    rw [List.map_cons, List.sum_cons, ih, hsizes, List.length_cons]
    omega

/-- What `truncate` counts is what the slots take that it drops. -/
theorem sizesFrom_of_shows {pg : Page} {rs : List (List UInt8)} (h : Shows pg.data rs) (n : Nat) :
    pg.sizesFrom n = .ok (sizes (rs.drop n) + 8 * (rs.drop n).length) := by
  have hlens : ((List.range rs.length).drop n).mapM (fun i => do
      let record ← pg.data.record i
      return record.length + entryOverhead) =
        .ok ((rs.drop n).map fun r => r.length + entryOverhead) := by
    have hall := mapM_ok (l := (List.range rs.length).drop n) (f := fun i => do
      let record ← pg.data.record i
      return record.length + entryOverhead)
      (g := fun i => (rs[i]?.map fun r => r.length + entryOverhead).getD 0) (by
        intro i hi
        have hlt : i < rs.length := List.mem_range.mp (List.mem_of_mem_drop hi)
        rw [h.record hlt, List.getElem?_eq_getElem hlt]
        rfl)
    have hmap : (List.range rs.length).map
        (fun i => (rs[i]?.map fun r => r.length + entryOverhead).getD 0) =
          rs.map fun r => r.length + entryOverhead := by
      apply List.ext_getElem
      · simp
      · intro i hi hi'
        have hlt : i < rs.length := by simpa using hi'
        simp [List.getElem?_eq_getElem hlt]
    rw [hall, List.map_drop, hmap, List.map_drop]
  rw [Page.sizesFrom, h.slotCount]
  show (do
    let lens ← ((List.range rs.length).drop n).mapM fun i => do
      let record ← pg.data.record i
      return record.length + entryOverhead
    return lens.sum) = _
  rw [hlens, ← sum_stored]
  rfl

/-- The counter is what the slots take, and the buffer has what the page declares. -/
structure Sound (pg : Page) (es : List Entry) : Prop where
  shows : Shows pg.data (es.map Entry.bytes)
  roomy : Roomy pg.pageDataSize pg.data
  used : pg.pageUsedSize = sizes (es.map Entry.bytes) + 8 * es.length
  settled : ∀ e ∈ es, Settled e

/-- A tuple of `len` bytes that begins a page fits below the heap as it stands, or takes
all that the page has. -/
def Begins (pg : Page) (len : Nat) : Prop :=
  16 + len ≤ pg.data.heapStart ∨ pg.pageDataSize ≤ 16 + len

instance (pg : Page) (len : Nat) : Decidable (Begins pg len) := inferInstanceAs (Decidable (_ ∨ _))

/-- A tuple is put on a page without slots only if it begins it so. -/
def BeginsEmpty (pg : Page) (t : Tuple) : Prop :=
  16 + size t < 2 ^ 32 ∧ (Within pg (size t) → pg.data.slotCount = .ok 0 → Begins pg (size t))

/-- Every slot's id can be read. -/
def Readable (p : SlottedPage) : Prop := ∀ n, p.slotCount = .ok n → ∀ i < n, ∃ r, p.idAt i = .ok r

/-- What an operation has to meet for the counter and the buffer to keep up with each
other: a tuple begins an empty page, or takes the place of the only and shorter one, as
`Begins` says; one that takes the place of a shorter one finds every id readable; bytes
are those of a tuple. -/
def KeepsRoom (pg : Page) : PageOp → Prop
  | .add t => BeginsEmpty pg t
  | .appendEncoded encoded => ∃ t : Tuple, encoded = t.encodeInto [] ∧ BeginsEmpty pg t
  | .replace id t => 16 + size t < 2 ^ 32 ∧
      (Within pg (size t) → ∀ i old, pg.data.findExact id = .ok (some i) →
        pg.data.record i = .ok old → old.length < size t →
        (pg.data.slotCount = .ok 1 → Begins pg (size t)) ∧ Readable pg.data)
  | _ => True

namespace Sound

variable {pg : Page} {es : List Entry} {d : SlottedPage} {idx : Nat}

theorem new {pageDataSize : Nat} (recordSize : Option Nat) (h : pageDataSize < 2 ^ 32) :
    Sound (Page.new pageDataSize recordSize) [] where
  shows := shows_blank pageDataSize h
  roomy := roomy_blank h (Nat.le_max_left _ _) rfl
  used := rfl
  settled _ he := nomatch he

/-- A page whose content was rearranged. -/
theorem kept (h : Sound pg es) (hshows : Shows d (es.map Entry.bytes))
    (hroomy : Roomy pg.pageDataSize pg.data → Roomy pg.pageDataSize d) :
    Sound { pg with data := d } es := ⟨hshows, hroomy h.roomy, h.used, h.settled⟩

theorem slotCount (h : Sound pg es) : pg.data.slotCount = .ok es.length := by
  rw [h.shows.slotCount, List.length_map]

theorem sizes_insertIdx {e : Entry} {k : Nat} (hk : k ≤ es.length) :
    sizes ((es.insertIdx k e).map Entry.bytes) = e.bytes.length + sizes (es.map Entry.bytes) :=
  sizes_perm ((List.perm_insertIdx e es hk).map Entry.bytes)

theorem inserted (h : Sound pg es) {e : Entry} (he : Settled e) {k used : Nat} (hk : k ≤ es.length)
    (hshows : Shows d ((es.insertIdx k e).map Entry.bytes)) (hroomy : Roomy pg.pageDataSize d)
    (hused : used = pg.pageUsedSize + (e.bytes.length + entryOverhead)) :
    Sound { pg with data := d, pageUsedSize := used } (es.insertIdx k e) where
  shows := hshows
  roomy := hroomy
  used := by
    have hcount := h.used
    have hover : entryOverhead = 8 := rfl
    rw [sizes_insertIdx hk, List.length_insertIdx_of_le_length hk]
    show used = _
    omega
  settled f hf := by
    rcases List.eq_or_mem_of_mem_insertIdx hf with rfl | hmem
    · exact he
    · exact h.settled f hmem

/-- Beginning a page of no slots, as the buffer sees it. -/
theorem begins (h : Sound pg es) {len : Nat}
    (hbegins : pg.data.slotCount = .ok 0 → Begins pg len) :
    BeginsRoomy pg.pageDataSize pg.data (es.map Entry.bytes) len := by
  intro hnil
  have hes : es = [] := List.map_eq_nil_iff.mp hnil
  have hcount := h.slotCount
  rw [hes] at hcount
  rw [dirOffset_eq]
  exact hbegins hcount

variable {t : Tuple}

theorem add (h : Sound pg es) (hbegins : BeginsEmpty pg t) :
    ∃ es', Sound (Page.step pg (.add t)) es' := by
  have hlen := length_bytes_of t
  show ∃ es', Sound (Page.put (size t) (SlottedPage.add t) pg).2 es'
  by_cases hput : Within pg (size t) ∧ pg.canStoreLen (size t) = true
  · cases hplace : pg.data.addPlace t.id with
    | error halt =>
      rw [put_error hput.1 hput.2 (add_error hplace)]
      exact ⟨es, h⟩
    | ok lo =>
      have hlo : lo ≤ es.length := by simpa using (h.shows.addPlace_safe t.id).1 lo hplace
      obtain ⟨d, ⟨hadd, hshows, -, -, hroomy⟩ | ⟨hadd, hshows, -, -, -, -, hroomy⟩⟩ :=
        h.shows.add hplace (by rw [List.length_map]; exact hlo) (by rw [hlen]; exact hbegins.1)
      · rw [put_ok hput.1 hput.2 hadd]
        rw [← List.map_insertIdx] at hshows
        refine ⟨_, h.inserted (settled_of t) hlo hshows ?_ (by rw [hlen])⟩
        apply hroomy _ h.roomy
        rw [hlen]
        exact h.begins (hbegins.2 hput.1)
      · rw [put_error hput.1 hput.2 hadd]
        exact ⟨es, h.kept hshows (hroomy _)⟩
  · obtain ⟨e, hrefused, -⟩ := put_refused hput
    rw [hrefused]
    exact ⟨es, h⟩

theorem appendEncoded (h : Sound pg es) (hbegins : BeginsEmpty pg t) :
    ∃ es', Sound (Page.step pg (.appendEncoded (t.encodeInto []))) es' := by
  have hlen := length_bytes_of t
  rw [← Entry.bytes_of]
  show ∃ es', Sound (Page.put _ (SlottedPage.appendEncoded (Entry.of t).bytes) pg).2 es'
  by_cases hput : Within pg (Entry.of t).bytes.length ∧
      pg.canStoreLen (Entry.of t).bytes.length = true
  · obtain ⟨d, ⟨happend, hshows, hroomy⟩ | ⟨happend, hshows, hroomy⟩⟩ :=
      h.shows.appendEncoded (show 16 + (Entry.of t).bytes.length < 2 ^ 32 by
        rw [hlen]
        exact hbegins.1)
    · rw [put_ok hput.1 hput.2 happend]
      have hlast : es.map Entry.bytes ++ [(Entry.of t).bytes] =
          (es.insertIdx es.length (Entry.of t)).map Entry.bytes := by
        rw [List.insertIdx_length_self, List.map_append]
        rfl
      rw [hlast] at hshows
      refine ⟨_, h.inserted (settled_of t) (Nat.le_refl _) hshows ?_ rfl⟩
      apply hroomy _ h.roomy
      rw [hlen] at hput ⊢
      exact h.begins (hbegins.2 hput.1)
    · rw [put_error hput.1 hput.2 happend]
      exact ⟨es, h.kept hshows (hroomy _)⟩
  · obtain ⟨e, hrefused, -⟩ := put_refused hput
    rw [hrefused]
    exact ⟨es, h⟩

theorem sizes_erased (hidx : idx < es.length) :
    sizes (es.map Entry.bytes) =
      es[idx].bytes.length + sizes ((es.eraseIdx idx).map Entry.bytes) := by
  have hperm := (List.getElem_cons_eraseIdx_perm hidx).map Entry.bytes
  exact (sizes_perm hperm).symm

/-- What is read from a slot takes no more than the counter says. -/
theorem size_le_used (h : Sound pg es) (hidx : idx < es.length) :
    size es[idx].owned + 8 ≤ pg.pageUsedSize := by
  have hsize : size es[idx].owned = es[idx].bytes.length := h.settled _ (List.getElem_mem hidx)
  have hsizes := sizes_erased hidx
  have hused := h.used
  omega

theorem remove (h : Sound pg es) (id : DBIdType) :
    ∃ es', Sound (Page.step pg (.remove id)) es' := by
  have hsafe := h.shows.findExactRef_safe (.owned id)
  have hstep : Page.step pg (.remove id) = (Page.removeTuple id pg).2 := Attempt.discard_state _ _
  rw [hstep]
  cases hfind : pg.data.findExact id with
  | error halt =>
    rw [removeTuple_error (remove_error hfind)]
    exact ⟨es, h⟩
  | ok found =>
    cases found with
    | none =>
      rw [removeTuple_error (remove_not_found hfind)]
      exact ⟨es, h⟩
    | some idx =>
      have hidx : idx < es.length := by simpa using hsafe.1 _ hfind idx rfl
      have hle := h.size_le_used hidx
      have hsize : size es[idx].owned = es[idx].bytes.length :=
        h.settled _ (List.getElem_mem hidx)
      obtain ⟨d, hremove, hshows, -, hroomy⟩ := h.shows.remove hfind hidx
      rw [removeTuple_ok hremove hle]
      refine ⟨es.eraseIdx idx, hshows, hroomy _ h.roomy, ?_, ?_⟩
      · have hused := h.used
        have hsizes := sizes_erased hidx
        have hover : Page.storedSize es[idx].owned = size es[idx].owned + 8 := rfl
        rw [List.length_eraseIdx_of_lt hidx, hover]
        show pg.pageUsedSize - _ = _
        omega
      · intro e he
        exact h.settled e (List.mem_of_mem_eraseIdx he)

theorem sizesFrom (h : Sound pg es) (n : Nat) :
    pg.sizesFrom n = .ok (sizes ((es.drop n).map Entry.bytes) + 8 * (es.drop n).length) := by
  rw [sizesFrom_of_shows h.shows, ← List.map_drop, List.length_map]

theorem truncate (h : Sound pg es) (n : Nat) : ∃ es', Sound (Page.step pg (.truncate n)) es' := by
  obtain ⟨d, htruncate, hshows, -, -, hroomy⟩ := h.shows.truncate n
  have hused := h.used
  have hsplit : sizes (es.map Entry.bytes) =
      sizes ((es.take n).map Entry.bytes) + sizes ((es.drop n).map Entry.bytes) := by
    simp only [sizes]
    rw [← List.sum_append, ← List.map_append, ← List.map_append, List.take_append_drop]
  have hcount : es.length = (es.take n).length + (es.drop n).length := by
    rw [← List.length_append, List.take_append_drop]
  have hstep : Page.step pg (.truncate n) = { pg with
      data := d
      pageUsedSize := sizes ((es.take n).map Entry.bytes) + 8 * (es.take n).length } := by
    show (Page.truncate n pg).2 = _
    unfold Page.truncate
    rw [Attempt.read_bind, h.sizesFrom n]
    dsimp only
    rw [Attempt.bind_ok (onData_ok htruncate), Attempt.update_apply, giveBack_of_le
      (show sizes ((es.drop n).map Entry.bytes) + 8 * (es.drop n).length ≤
          ({ pg with data := d } : Page).pageUsedSize by
        show _ ≤ pg.pageUsedSize
        omega)]
    dsimp only
    congr 1
    omega
  rw [hstep]
  rw [← List.map_take] at hshows
  exact ⟨es.take n, hshows, hroomy _ h.roomy, rfl,
    fun e he => h.settled e (List.mem_of_mem_take he)⟩

theorem clear (h : Sound pg es) : ∃ es', Sound (Page.step pg .clear) es' := by
  obtain ⟨d, hclear, hshows, hroomy⟩ := h.shows.clear
  have hstep : Page.step pg .clear = { pg with data := d, pageUsedSize := 0 } := by
    show (Page.clear pg).2 = _
    unfold Page.clear
    rw [Attempt.bind_ok (onData_ok hclear)]
    rfl
  rw [hstep]
  exact ⟨[], hshows, hroomy _ h.roomy, rfl, nofun⟩

/-- Where every id can be read, no search fails. -/
theorem search_of_readable {p : SlottedPage} {rs : List (List UInt8)} (h : Shows p rs)
    (hids : ∀ i < rs.length, ∃ r, p.idAt i = .ok r) (id : DBIdType) :
    ∃ k ≤ rs.length, p.lowerBound id = .ok k := by
  have hprefixes := h.arrays_length.1
  have hturn : ∀ i < p.prefixes.length, ∃ turn, p.searchTurn (.owned id) (·.isGE) i = .ok turn := by
    intro i hi
    obtain ⟨r, hr⟩ := hids i (by omega)
    unfold SlottedPage.searchTurn SlottedPage.compareSlot
    rw [index_ok hi]
    dsimp only [bind, Except.bind]
    cases prefixOrder p.prefixes[i] (orderPrefixOf (.owned id)) with
    | some ord => exact ⟨_, rfl⟩
    | none =>
      dsimp only
      rw [hr]
      exact ⟨_, rfl⟩
  have hbound := h.search_safe (.owned id) (·.isGE)
  cases hsearch : p.lowerBound id with
  | ok k => exact ⟨k, hbound.1 k hsearch, rfl⟩
  | error halt =>
    exfalso
    unfold SlottedPage.lowerBound SlottedPage.search at hsearch
    rcases @bisect_range _ (p.searchTurn (.owned id) (·.isGE)) p.prefixes.length 0
      p.prefixes.length (Nat.zero_le _) with ⟨i, hi, heq⟩ | ⟨i, hi, heq⟩ | ⟨i, hi, e, he, heq⟩
    · rw [heq] at hsearch
      cases hsearch
    · rw [heq] at hsearch
      cases hsearch
    · obtain ⟨turn, hok⟩ := hturn i hi
      rw [he] at hok
      cases hok

/-- A page a slot was taken from has the other ids as readable as they were. -/
theorem idAt_eraseIdx {p p₁ : SlottedPage} (h : Shows p (es.map Entry.bytes))
    (h₁ : Shows p₁ ((es.eraseIdx idx).map Entry.bytes))
    (hends : p₁.idEnds = p.idEnds.eraseIdx idx) (hidx : idx < es.length) (hread : Readable p)
    {i : Nat} (hi : i < (es.eraseIdx idx).length) :
    ∃ r, p₁.idAt i = .ok r := by
  have hcount : (es.eraseIdx idx).length = es.length - 1 := List.length_eraseIdx_of_lt hidx
  have hlens := h.arrays_length.2
  rw [List.length_map] at hlens
  -- the slot it was
  obtain ⟨j, hj, hrecord, hend⟩ : ∃ j, ∃ hj : j < es.length,
      (es.eraseIdx idx)[i] = es[j] ∧ p₁.idEnds[i]? = p.idEnds[j]? := by
    rw [hends, List.getElem?_eraseIdx, List.getElem_eraseIdx]
    split
    · exact ⟨i, by omega, rfl, rfl⟩
    · exact ⟨i + 1, by omega, rfl, rfl⟩
  have hidAt : p₁.idAt i = p.idAt j := by
    have hrec₁ := h₁.record (show i < ((es.eraseIdx idx).map Entry.bytes).length by simpa using hi)
    have hrec := h.record (show j < (es.map Entry.bytes).length by simpa using hj)
    rw [List.getElem_map, hrecord] at hrec₁
    rw [List.getElem_map] at hrec
    rw [SlottedPage.idAt, SlottedPage.idAt, hrec₁, hrec]
    simp only [index, hend]
  rw [hidAt]
  exact hread _ h.slotCount j (by simpa using hj)

/-- A page on which a tuple took the place of another. -/
theorem replaced (h : Sound pg es) (hidx : idx < es.length) {es' : List Entry}
    (hperm : es'.Perm (Entry.of t :: es.eraseIdx idx)) (hshows : Shows d (es'.map Entry.bytes))
    (hroomy : Roomy pg.pageDataSize d) :
    Sound { pg with data := d, pageUsedSize := pg.pageUsedSize - size es[idx].owned + size t }
      es' where
  shows := hshows
  roomy := hroomy
  used := by
    have hle := h.size_le_used hidx
    have hsize : size es[idx].owned = es[idx].bytes.length := h.settled _ (List.getElem_mem hidx)
    have hused := h.used
    have hsizes := sizes_erased hidx
    have hnew : sizes (es'.map Entry.bytes) =
        size t + sizes ((es.eraseIdx idx).map Entry.bytes) := by
      rw [sizes_perm (hperm.map Entry.bytes), ← length_bytes_of]
      rfl
    have hcount : es'.length = es.length := by
      rw [hperm.length_eq, List.length_cons, List.length_eraseIdx_of_lt hidx]
      omega
    show pg.pageUsedSize - _ + _ = _
    omega
  settled e he := by
    rcases List.mem_cons.mp (hperm.subset he) with rfl | hmem
    · exact settled_of t
    · exact h.settled e (List.mem_of_mem_eraseIdx hmem)

theorem replace (h : Sound pg es) {id : DBIdType} (hmeets : KeepsRoom pg (.replace id t)) :
    ∃ es', Sound (Page.step pg (.replace id t)) es' := by
  have hlen := length_bytes_of t
  have hsafe := h.shows.findExactRef_safe (.owned id)
  have hstep : Page.step pg (.replace id t) = (Page.replaceTuple id t pg).2 :=
    Attempt.discard_state _ _
  rw [hstep]
  by_cases hwithin : Within pg (size t)
  case neg =>
    obtain ⟨e, hrefused, -⟩ := replaceTuple_refused id hwithin
    rw [hrefused]
    exact ⟨es, h⟩
  cases hfind : pg.data.findExact id with
  | error halt =>
    rw [replaceTuple_error hwithin (replace_error hfind)]
    exact ⟨es, h⟩
  | ok found =>
    cases found with
    | none =>
      rw [replaceTuple_error hwithin (replace_not_found hfind)]
      exact ⟨es, h⟩
    | some idx =>
      have hidx : idx < es.length := by simpa using hsafe.1 _ hfind idx rfl
      have hle := h.size_le_used hidx
      have hset : (es.set idx (Entry.of t)).Perm (Entry.of t :: es.eraseIdx idx) :=
        List.set_perm_cons_eraseIdx hidx _
      rcases Nat.lt_or_ge es[idx].bytes.length (Entry.of t).bytes.length with hbig | hfits
      · have hrecord := h.shows.record
          (show idx < (es.map Entry.bytes).length by simpa using hidx)
        rw [List.getElem_map] at hrecord
        obtain ⟨hone, hread⟩ := hmeets.2 hwithin idx _ hfind hrecord (by omega)
        obtain ⟨e, he, hanew⟩ := h.shows.replace_anew hfind hidx hbig
        rcases h.shows.reinsert hidx he (by rw [hlen]; exact hmeets.1) with
          hfull | ⟨p₁, hshows, -, hends, hroomy, -, hdone⟩
        · rw [replaceTuple_error hwithin (hanew.trans hfull)]
          exact ⟨es, h⟩
        · obtain ⟨k, hk, hbound⟩ := search_of_readable hshows
            (fun i hi => idAt_eraseIdx h.shows hshows hends hidx hread (by simpa using hi)) id
          rw [List.length_map] at hk
          obtain ⟨d, hok, hshows', -, -, hroomy'⟩ := hdone k hbound hk
          rw [replaceTuple_ok hwithin (hanew.trans hok) (by omega)]
          refine ⟨_, h.replaced hidx (List.perm_insertIdx _ _ hk) hshows' (hroomy' _ ?_)⟩
          apply hroomy _ h.roomy
          intro hnil
          have hcount := List.length_eraseIdx_of_lt hidx
          rw [List.map_eq_nil_iff.mp hnil, List.length_nil] at hcount
          rw [dirOffset_eq, hlen]
          apply hone
          rw [h.slotCount]
          congr 1
          omega
      · obtain ⟨d, hok, hshows, -, -, hroomy⟩ := h.shows.replace_inPlace hfind hidx hfits
        rw [replaceTuple_ok hwithin hok (by omega)]
        exact ⟨_, h.replaced hidx hset hshows (hroomy _ h.roomy)⟩

/-- Every operation that meets the condition keeps the counter and the buffer sound. -/
theorem step (h : Sound pg es) {op : PageOp} (hmeets : KeepsRoom pg op) :
    ∃ es', Sound (Page.step pg op) es' := by
  cases op with
  | add t => exact h.add hmeets
  | appendEncoded encoded =>
    obtain ⟨t, rfl, hbegins⟩ := hmeets
    exact h.appendEncoded hbegins
  | replace id t => exact h.replace hmeets
  | remove id => exact h.remove id
  | truncate n => exact h.truncate n
  | clear => exact h.clear

end Sound

/-! ## No refusal for want of room -/

/-- The result is not the refusal for want of room. -/
def Spares {α : Type} (r : Except Halt α) : Prop := r ≠ .error (.error .pageCapacityError)

/-- The result is none of the `bad` errors. -/
def Avoids (bad : StoreError → Prop) {α : Type} (r : Except Halt α) : Prop :=
  ∀ e, bad e → r ≠ .error (.error e)

namespace Avoids

variable {bad : StoreError → Prop} {α β : Type}

theorem ok (a : α) : Avoids bad (.ok a : Except Halt α) := fun _ _ => nofun

theorem panic : Avoids bad (.error .panic : Except Halt α) := fun _ _ => nofun

theorem bind {r : Except Halt α} {f : α → Except Halt β} (h : Avoids bad r)
    (hf : ∀ a, Avoids bad (f a)) : Avoids bad (r >>= f) := by
  cases r with
  | ok a => exact hf a
  | error halt => exact fun e he heq => h e he (congrArg Except.error (Except.error.inj heq))

theorem of_error {halt : Halt} (h : Avoids bad (.error halt : Except Halt α)) :
    Avoids bad (.error halt : Except Halt β) :=
  fun e he heq => h e he (congrArg Except.error (Except.error.inj heq))

section Attempt

variable {σ : Type} {m : Attempt σ Halt α} {f : α → Attempt σ Halt β} {s : σ}

theorem attempt_bind (h : Avoids bad (m s).1)
    (hf : ∀ a s', m s = (.ok a, s') → Avoids bad (f a s').1) : Avoids bad ((m >>= f) s).1 := by
  cases hm : m s with
  | mk r s' =>
    cases r with
    | ok a =>
      rw [Attempt.bind_ok hm]
      exact hf a s' hm
    | error halt =>
      rw [hm] at h
      rw [Attempt.bind_error hm]
      exact h.of_error

theorem attempt_read_bind {g : σ → Except Halt α} (h : Avoids bad (g s))
    (hf : ∀ a, Avoids bad (f a s).1) : Avoids bad ((Attempt.read g >>= f) s).1 := by
  rw [Attempt.read_bind]
  cases hg : g s with
  | ok a => exact hf a
  | error halt =>
    rw [hg] at h
    exact h.of_error

theorem attempt_update {g : σ → Except Halt σ} (h : Avoids bad (g s)) :
    Avoids bad (Attempt.update g s).1 := by
  rw [Attempt.update_apply]
  cases hg : g s with
  | ok s' => exact ok _
  | error halt =>
    rw [hg] at h
    exact h.of_error

end Attempt

/-- A step that can only panic. -/
theorem guard (c : Prop) [Decidable c] (a : α) :
    Avoids bad (if c then .ok a else .error .panic) := by
  split
  · exact ok a
  · exact panic

theorem index (v : List α) (i : Nat) : Avoids bad (Page.index v i) := by
  unfold Page.index
  split
  · exact ok _
  · exact panic

theorem copyWithin (buf : List UInt8) (src len dest : Nat) :
    Avoids bad (Page.copyWithin buf src len dest) :=
  (guard _ _).bind fun _ => guard _ _

theorem moveWithin (buf : List UInt8) (src len dest : Nat) :
    Avoids bad (Page.moveWithin buf src len dest) := by
  unfold Page.moveWithin
  split
  · exact copyWithin buf src len dest
  · exact ok _

theorem readU32 (buf : List UInt8) (at_ : Nat) : Avoids bad (Page.readU32 buf at_) :=
  (guard _ _).bind fun _ => ok _

theorem writeSlotEntryAt (buf : List UInt8) (idx : Nat) (e : SlotEntry) :
    Avoids bad (Page.writeSlotEntryAt buf idx e) := (guard _ _).bind fun _ => guard _ _

theorem slotCount (p : SlottedPage) : Avoids bad p.slotCount := (readU32 _ _).bind fun _ => ok _

theorem insertAt (p : SlottedPage) (idx : Nat) (encoded : List UInt8) (slotPrefix stop : Nat) :
    Avoids bad (p.insertAt idx encoded slotPrefix stop) := by
  apply (slotCount p).bind
  intro n
  apply (guard _ _).bind
  intro after
  apply (moveWithin _ _ _ _).bind
  intro buf
  apply (guard _ _).bind
  intro newOffset
  apply (guard _ _).bind
  intro buf
  apply (writeSlotEntryAt _ _ _).bind
  intro buf
  apply (guard _ _).bind
  intro buf
  apply (guard _ _).bind
  intro prefixes
  exact (guard _ _).bind fun _ => ok _

theorem record (p : SlottedPage) (idx : Nat) : Avoids bad (p.record idx) := by
  have hslot : Avoids bad (p.slot idx) := (readU32 _ _).bind fun _ =>
    (readU32 _ _).bind fun _ => ok _
  exact hslot.bind fun _ => guard _ _

section Malformed

variable (hbad : ¬ bad malformed)

include hbad

theorem idAt (p : SlottedPage) (idx : Nat) : Avoids bad (p.idAt idx) := by
  apply (record p idx).bind
  intro bytes
  apply (index _ _).bind
  intro stop
  apply bind
  · unfold tupleIdEnding
    split
    · exact ok _
    · intro e he heq
      cases heq
      exact hbad he
  · exact fun _ => ok _

theorem compareSlot (p : SlottedPage) (id : IdRef) (idx : Nat) :
    Avoids bad (p.compareSlot id idx) := by
  apply (index _ _).bind
  intro slotPrefix
  split
  · exact ok _
  · exact (idAt hbad p idx).bind fun _ => ok _

theorem search (p : SlottedPage) (id : IdRef) (past : Ordering → Bool) :
    Avoids bad (p.search id past) := by
  unfold SlottedPage.search
  rcases @bisect_range _ (p.searchTurn id past) p.prefixes.length 0 p.prefixes.length
    (Nat.zero_le _) with ⟨i, hi, heq⟩ | ⟨i, hi, heq⟩ | ⟨i, hi, e, he, heq⟩
  · rw [heq]
    exact ok _
  · rw [heq]
    exact ok _
  · have hturn : Avoids bad (p.searchTurn id past i) := (compareSlot hbad p id i).bind fun _ => ok _
    rw [he] at hturn
    rw [heq]
    exact hturn.of_error

theorem findExactFrom (p : SlottedPage) (id : DBIdType) (left idx : Nat) :
    Avoids bad (p.findExactFrom id left idx) := by
  induction left generalizing idx with
  | zero => exact ok _
  | succ left ih =>
    apply (idAt hbad p idx).bind
    intro cand
    split
    · exact ok _
    · exact ih (idx + 1)

theorem addPlace (p : SlottedPage) (id : DBIdType) (hdup : ¬ bad (.duplicateKey id)) :
    Avoids bad (p.addPlace id) := by
  have hafter : Avoids bad (p.afterLast id) := by
    unfold SlottedPage.afterLast
    split
    · exact ok _
    · exact (compareSlot hbad p _ _).bind fun _ => ok _
  apply hafter.bind
  intro after
  split
  · exact slotCount p
  · apply (search hbad p _ _).bind
    intro lo
    apply (search hbad p _ _).bind
    intro hi
    apply (findExactFrom hbad p id _ _).bind
    intro found
    cases found with
    | some i =>
      intro e he heq
      cases heq
      exact hdup he
    | none => exact ok _

end Malformed

end Avoids

theorem spares_of_avoids {α : Type} {r : Except Halt α}
    (h : Avoids (· = .pageCapacityError) r) : Spares r := h _ rfl

variable {p : SlottedPage}

/-- A page without slots makes room for any tuple. -/
theorem ensureRoom_empty (h : Shows p []) (len : Nat) :
    ∃ p', SlottedPage.ensureRoom len p = (.ok (), p') := by
  obtain ⟨declared, -, hdeclared, -⟩ := h.declaredCapacity
  unfold SlottedPage.ensureRoom
  rw [Attempt.read_bind, h.fitsWithoutCompaction]
  dsimp only
  by_cases hfits : dirOffset (([] : List (List UInt8)).length + 1) + len ≤ p.heapStart
  · rw [if_pos (decide_eq_true hfits)]
    exact ⟨p, rfl⟩
  · rw [if_neg (by simpa using hfits), Attempt.read_bind, h.slotCount]
    dsimp only
    rw [if_neg (by decide), Attempt.update_apply, SlottedPage.growToFit, hdeclared]
    exact ⟨_, rfl⟩

theorem idEnd_avoids {bad : StoreError → Prop} (hbad : ¬ bad malformed) (encoded : List UInt8) :
    Avoids bad (passOn (idEnd encoded)) := by
  unfold idEnd
  split
  · exact Avoids.ok _
  · intro e he heq
    cases heq
    exact hbad he

/-- A tuple that has a place and room is added, or is malformed. -/
theorem add_avoids_of_room {bad : StoreError → Prop} (hbad : ¬ bad malformed) {p' : SlottedPage}
    {t : Tuple} {lo : Nat} (hplace : p.addPlace t.id = .ok lo)
    (hroom : SlottedPage.ensureRoom (t.encodeInto []).length p = (.ok (), p')) :
    Avoids bad (SlottedPage.add t p).1 := by
  unfold SlottedPage.add
  rw [Attempt.read_bind, hplace]
  dsimp only
  rw [Attempt.bind_ok hroom]
  refine Avoids.attempt_read_bind (idEnd_avoids hbad _) fun stop => ?_
  exact Avoids.attempt_update (Avoids.insertAt _ _ _ _ _)

theorem add_empty_spares (h : Shows p []) (t : Tuple) :
    Spares (SlottedPage.add t p).1 := by
  obtain ⟨p', hroom⟩ := ensureRoom_empty h (t.encodeInto []).length
  have hplace : Avoids (· = .pageCapacityError) (p.addPlace t.id) :=
    Avoids.addPlace nofun p t.id nofun
  cases hlo : p.addPlace t.id with
  | error halt =>
    rw [hlo] at hplace
    rw [add_error hlo]
    exact spares_of_avoids hplace.of_error
  | ok lo => exact spares_of_avoids (add_avoids_of_room nofun hlo hroom)

namespace Sound

variable {pg : Page} {es : List Entry}

/-- What `can_store` accepts finds room. -/
theorem add_spares (h : Sound pg es) {t : Tuple} (hwithin : Within pg (size t))
    (hcan : pg.canStore t = true) : Spares (Page.addTuple t pg).1 := by
  have hlen := length_bytes_of t
  have hadd : Spares (SlottedPage.add t pg.data).1 := by
    cases es with
    | nil => exact add_empty_spares h.shows t
    | cons e es =>
      have hplace : Avoids (· = .pageCapacityError) (pg.data.addPlace t.id) :=
        Avoids.addPlace nofun pg.data t.id nofun
      cases hlo : pg.data.addPlace t.id with
      | error halt =>
        rw [hlo] at hplace
        rw [add_error hlo]
        exact spares_of_avoids hplace.of_error
      | ok lo =>
        -- the counter is not zero, so that it has counted the tuple in
        have hused := h.used
        have hroomy := h.roomy.length
        obtain ⟨-, -, -, hsmall⟩ := h.shows.room
        rw [List.length_cons] at hused
        have hfits := (canStoreLen_iff.mp hcan).resolve_left (by omega)
        obtain ⟨d, ⟨hok, -⟩ | ⟨-, -, -, -, -, hfull, -⟩⟩ :=
          h.shows.add hlo ((h.shows.addPlace_safe t.id).1 lo hlo) (by rw [hlen]; omega)
        · rw [hok]
          exact spares_of_avoids (Avoids.ok _)
        · rw [List.length_map, List.length_cons, dirOffset_eq, hlen] at hfull
          omega
  cases hresult : SlottedPage.add t pg.data with
  | mk r d =>
    rw [hresult] at hadd
    show Spares (Page.put _ _ pg).1
    cases r with
    | ok u =>
      rw [put_ok hwithin hcan hresult]
      exact spares_of_avoids (Avoids.ok _)
    | error halt =>
      rw [put_error hwithin hcan hresult]
      exact hadd

end Sound

/-! ## The promise -/

/-- A page's promise: what `can_store` accepts is not refused for want of room, and
neither is any of a sequence of tuples that the usable size has room for, beside what the
page holds. -/
structure Promise (pg : Page) : Prop where
  one : ∀ t, Within pg (size t) → pg.canStore t = true → Spares (Page.addTuple t pg).1
  all : ∀ ts held, (∀ t ∈ ts, Within pg (size t)) → pg.sizesFrom 0 = .ok held →
    held + (ts.map Page.storedSize).sum ≤ pg.usableDataSize →
    Allowed Page.step KeepsRoom pg (ts.map .add) →
    ∀ ts₁ t ts₂, ts = ts₁ ++ t :: ts₂ →
      Spares (Page.addTuple t (run Page.step pg (ts₁.map .add))).1

/-- An addition counts no more than the tuple takes, and leaves the sizes. -/
theorem step_add_frame (pg : Page) (t : Tuple) :
    (Page.step pg (.add t)).pageUsedSize ≤ pg.pageUsedSize + Page.storedSize t ∧
      (Page.step pg (.add t)).pageDataSize = pg.pageDataSize ∧
      (Page.step pg (.add t)).recordSize = pg.recordSize := by
  show (Page.put (size t) (SlottedPage.add t) pg).2.pageUsedSize ≤ _ ∧
    (Page.put (size t) (SlottedPage.add t) pg).2.pageDataSize = _ ∧
    (Page.put (size t) (SlottedPage.add t) pg).2.recordSize = _
  by_cases hput : Within pg (size t) ∧ pg.canStoreLen (size t) = true
  · cases hresult : SlottedPage.add t pg.data with
    | mk r d =>
      cases r with
      | ok u =>
        rw [put_ok hput.1 hput.2 hresult]
        exact ⟨Nat.le_refl _, rfl, rfl⟩
      | error halt =>
        rw [put_error hput.1 hput.2 hresult]
        exact ⟨Nat.le_add_right _ _, rfl, rfl⟩
  · obtain ⟨e, hrefused, -⟩ := put_refused hput
    rw [hrefused]
    exact ⟨Nat.le_add_right _ _, rfl, rfl⟩

namespace Sound

variable {pg : Page} {es : List Entry}

/-- Tuples that the usable size has room for are added one after the other. -/
theorem adds_spare (h : Sound pg es) {ts₁ ts₂ : List Tuple} {t : Tuple}
    (hwithin : ∀ s ∈ ts₁ ++ t :: ts₂, Within pg (size s))
    (hroom : pg.pageUsedSize + ((ts₁ ++ t :: ts₂).map Page.storedSize).sum ≤ pg.usableDataSize)
    (hok : Allowed Page.step KeepsRoom pg ((ts₁ ++ t :: ts₂).map .add)) :
    Spares (Page.addTuple t (run Page.step pg (ts₁.map .add))).1 := by
  induction ts₁ generalizing pg es with
  | nil =>
    apply h.add_spares (hwithin t List.mem_cons_self)
    rw [List.nil_append, List.map_cons, List.sum_cons] at hroom
    have hstored : Page.storedSize t = size t + 8 := rfl
    have husable : pg.usableDataSize = pg.pageDataSize - 16 := rfl
    apply canStoreLen_iff.mpr
    right
    omega
  | cons s ts₁ ih =>
    obtain ⟨es', h'⟩ := h.add hok.1
    obtain ⟨hused, hdata, hrecord⟩ := step_add_frame pg s
    apply ih h' _ _ hok.2
    · intro u hu max hmax
      rw [hrecord] at hmax
      exact hwithin u (List.mem_cons_of_mem s hu) max hmax
    · rw [List.cons_append, List.map_cons, List.sum_cons] at hroom
      have husable : (Page.step pg (.add s)).usableDataSize = pg.usableDataSize := by
        rw [Page.usableDataSize, hdata, Page.usableDataSize]
      omega

theorem promise (h : Sound pg es) : Promise pg where
  one t hwithin hcan := h.add_spares hwithin hcan
  all ts held hwithin hheld hroom hok ts₁ t ts₂ hts := by
    have hsizes := h.sizesFrom 0
    rw [List.drop_zero, ← h.used, hheld] at hsizes
    obtain rfl := Except.ok.inj hsizes
    subst hts
    exact h.adds_spare hwithin hroom hok

end Sound

/-- In every run whose steps keep the room, every page reached keeps its promise. -/
theorem promise_of_run {pageDataSize : Nat} (recordSize : Option Nat)
    (hsize : pageDataSize < 2 ^ 32)
    {ops : List PageOp} (hok : Allowed Page.step KeepsRoom (Page.new pageDataSize recordSize) ops) :
    Promise (run Page.step (Page.new pageDataSize recordSize) ops) := by
  have hsound : ∃ es, Sound (run Page.step (Page.new pageDataSize recordSize) ops) es :=
    (reachable_run ops hok).invariant (I := fun pg => ∃ es, Sound pg es)
      ⟨[], Sound.new recordSize hsize⟩ fun pg op ⟨_, h⟩ hmeets => h.step hmeets
  obtain ⟨es, h⟩ := hsound
  exact h.promise

/-- A row of as many bytes. -/
def rowOf (n : UInt64) (bytes : Nat) : Tuple := ⟨.int n, none, none, List.replicate bytes 0, 0⟩

/-- A page that is filled and emptied, and then begun by a row that fits below the heap. -/
def begunOps : List PageOp :=
  [.add (rowOf 1 2), .remove (.int 1), .add (rowOf 2 1)]

theorem promise_of_run_begun :
    Allowed Page.step KeepsRoom (Page.new 60 (some 20)) begunOps ∧
      Promise (run Page.step (Page.new 60 (some 20)) begunOps) := by
  have hallowed : Allowed Page.step KeepsRoom (Page.new 60 (some 20)) begunOps := by
    refine ⟨⟨?_, fun _ _ => ?_⟩, trivial, ⟨?_, fun _ _ => ?_⟩, trivial⟩
    all_goals decide +kernel
  exact ⟨hallowed, promise_of_run (some 20) (by decide) hallowed⟩

/-- A page of 48 bytes is filled with a row and emptied: its heap still begins where the
row began.  The next row does not fit below and the buffer is made as short as the row
takes, so that the page refuses a third one that it can store. -/
theorem first_add_shrinks :
    let pg := run Page.step (Page.new 48 none)
      [.add (rowOf 1 24), .remove (.int 1), .add (rowOf 2 4)]
    pg.data.contains (.int 3) = .ok false ∧ Within pg (size (rowOf 3 0)) ∧
      pg.canStore (rowOf 3 0) = true ∧
      (Page.addTuple (rowOf 3 0) pg).1 = .error (.error .pageCapacityError) := by
  decide +kernel

end SquealDb.Space
