import SquealDb.Page.SlottedBounds

/-!
# A slotted page read in from its bytes

`from_bytes` finds the slots as the directory has them and works out the rest: where
the heap starts from the slots' offsets, and so how many of its bytes are dead.  A
page that gave up the tuple at its frontier counts the bytes from there as dead until
it is compacted; read in again, it starts above them.
-/

namespace SquealDb.Page

open Lib Codec KeyCode

/-- The lowest offset of a slot, `size` if there is none. -/
def lowestOffset (size : Nat) (slots : List SlotEntry) : Nat :=
  slots.foldl (fun low e => min low e.offset.toNat) size

/-- How many bytes the slots have. -/
def liveBytes (slots : List SlotEntry) : Nat := (slots.map fun e => e.len.toNat).sum

theorem lowestOffset_concat (size : Nat) (slots : List SlotEntry) (e : SlotEntry) :
    lowestOffset size (slots ++ [e]) = min (lowestOffset size slots) e.offset.toNat := by
  rw [lowestOffset, List.foldl_append]
  rfl

theorem lowestOffset_spec (size : Nat) (slots : List SlotEntry) :
    lowestOffset size slots ≤ size ∧ (∀ e ∈ slots, lowestOffset size slots ≤ e.offset.toNat) ∧
      (lowestOffset size slots = size ∨ ∃ e ∈ slots, lowestOffset size slots = e.offset.toNat) := by
  induction slots using List.reverseRecOn with
  | nil => exact ⟨Nat.le_refl size, (fun _ h => nomatch h), Or.inl rfl⟩
  | append_singleton slots e ih =>
    obtain ⟨hsize, hall, hmet⟩ := ih
    rw [lowestOffset_concat]
    refine ⟨by omega, ?_, ?_⟩
    · intro f hf
      rcases List.mem_append.mp hf with hf | hf
      · have hle := hall f hf
        omega
      · rw [List.mem_singleton.mp hf]
        omega
    · rcases Nat.le_total (lowestOffset size slots) e.offset.toNat with hle | hle
      · rw [Nat.min_eq_left hle]
        rcases hmet with hmet | ⟨f, hf, hmet⟩
        · exact Or.inl hmet
        · exact Or.inr ⟨f, List.mem_append_left _ hf, hmet⟩
      · rw [Nat.min_eq_right hle]
        exact Or.inr ⟨e, List.mem_append_right _ (List.mem_singleton_self e), rfl⟩

namespace Entry

variable {e : Entry}

theorem lends (h : e.bytes.length < 2 ^ 32) :
    Lends (.wire (e.form.wireId e.tuple.id)) e.tuple.id := by
  have hid := e.idLen_lt
  exact .wire e.form e.tuple.id e.allowed (show e.idLen < 2 ^ 64 by omega)

theorem checkId_wireId (h : e.bytes.length < 2 ^ 32) :
    SlottedPage.checkId (e.form.wireId e.tuple.id) = .ok () := by
  have hid := e.idLen_lt
  have hform := e.allowed
  simp only [idLen] at hid
  revert hid hform
  cases e.tuple.id with
  | int n =>
    intro _ _
    cases e.form <;> rfl
  | record k =>
    cases e.form with
    | values =>
      intro hid _
      simp only [IdForm.bytes, Postcard.key, List.length_cons, List.length_append] at hid
      exact checkFrom_flatMap (fits_of_values (show _ < _ by omega)) []
    | stored =>
      intro _ hform
      exact StoredKey.check_stored hform

end Entry

/-- What the slots up to here have gathered. -/
def scanned (size : Nat) (slots : List SlotEntry) (es : List Entry) : SlottedPage.Scan :=
  ⟨lowestOffset size slots, liveBytes slots, es.map fun e => orderPrefix e.tuple.id,
    es.map fun e => UInt32.ofNat e.idLen⟩

/-- One slot more. -/
theorem scanSlot_eq {buf : List UInt8} {dirEnd i : Nat} {s : SlotEntry} {e : Entry}
    (hentry : slotEntryAt buf i = .ok s) (hdir : dirEnd ≤ s.offset.toNat)
    (hin : s.offset.toNat + s.len.toNat ≤ buf.length) (hrecord : recordOf buf s = e.bytes)
    (size : Nat) (slots : List SlotEntry) (es : List Entry) :
    SlottedPage.scanSlot buf dirEnd (scanned size slots es) i =
      .ok (scanned size (slots ++ [s]) (es ++ [e])) := by
  have hlen : e.bytes.length < 2 ^ 32 := by
    rw [← hrecord, recordOf, length_slice hin]
    exact s.len.toNat_lt
  have hrange : range buf s.offset.toNat s.len.toNat = .ok e.bytes := by
    rw [range_eq hin]
    exact congrArg Except.ok hrecord
  have hprefix : orderPrefixOf (.wire (e.form.wireId e.tuple.id)) = orderPrefix e.tuple.id := by
    rw [orderPrefixOf_lends (Entry.lends hlen), orderPrefix_eq]
  simp only [SlottedPage.scanSlot, hentry, bind, Except.bind]
  rw [if_neg (by omega)]
  simp only [hrange, passOn_ok (Entry.idEnd_bytes hlen), passOn_ok (Entry.tupleIdEnding_bytes hlen),
    passOn_ok (Entry.checkId_wireId hlen), hprefix]
  simp only [scanned, lowestOffset_concat, liveBytes, List.map_append, List.sum_append,
    List.map_cons,
    List.map_nil, List.sum_cons, List.sum_nil, Nat.add_zero]
  rfl

/-- `from_bytes` of bytes whose directory points to tuples. -/
theorem fromBytes_eq {buf : List UInt8} {slots : List SlotEntry} {es : List Entry}
    (hdir : Dir buf slots) (hlen : dirOffset slots.length ≤ buf.length)
    (hin : ∀ s ∈ slots, dirOffset slots.length ≤ s.offset.toNat ∧
      s.offset.toNat + s.len.toNat ≤ buf.length)
    (hrecords : slots.map (recordOf buf) = es.map Entry.bytes) :
    SlottedPage.fromBytes buf = .ok
      ⟨buf, lowestOffset buf.length slots,
        buf.length - lowestOffset buf.length slots - liveBytes slots,
        es.map fun e => orderPrefix e.tuple.id, es.map fun e => UInt32.ofNat e.idLen⟩ := by
  have hcount : slots.length = es.length := by
    have hlengths := congrArg List.length hrecords
    simpa using hlengths
  have hsize : 8 ≤ buf.length := by
    rw [dirOffset_eq] at hlen
    omega
  -- the slots up to `k`, one after another
  have hscan : ∀ k, k ≤ slots.length →
      (List.range k).foldlM (SlottedPage.scanSlot buf (dirOffset slots.length))
        (scanned buf.length [] []) = .ok (scanned buf.length (slots.take k) (es.take k)) := by
    intro k
    induction k with
    | zero =>
      intro _
      rfl
    | succ k ih =>
      intro hk
      have hlt : k < es.length := by omega
      have hs := hin slots[k] (List.getElem_mem _)
      have hentry : slotEntryAt buf k = .ok slots[k] := by
        rw [slotEntryAt_eq (by rw [dirOffset_eq] at hlen ⊢; omega), hdir.entries k hk]
      have hrecord : recordOf buf slots[k] = es[k].bytes := by
        have hmaps := congrArg (fun l => l[k]?) hrecords
        simpa [List.getElem?_eq_getElem hk, List.getElem?_eq_getElem hlt] using hmaps
      rw [List.range_succ, List.foldlM_append, ih (by omega)]
      show (do
        let scan ← SlottedPage.scanSlot buf _ (scanned buf.length (slots.take k) (es.take k)) k
        List.foldlM _ scan []) = _
      rw [scanSlot_eq hentry hs.1 hs.2 hrecord, List.take_concat_get' slots k hk,
        List.take_concat_get' es k hlt]
      rfl
  have hall := hscan slots.length (Nat.le_refl _)
  rw [List.take_length, List.take_of_length_le (by omega)] at hall
  have hslotCount : (u32At buf 0).toNat = slots.length := hdir.count
  simp only [SlottedPage.fromBytes, bind, Except.bind]
  rw [if_neg (show ¬ buf.length < headerBytes from Nat.not_lt.mpr hsize)]
  simp only [pure, Except.pure, readU32_eq (show 0 + 4 ≤ buf.length by omega), hslotCount]
  rw [if_neg (Nat.not_lt.mpr hlen)]
  have hstart : (⟨buf.length, 0, [], []⟩ : SlottedPage.Scan) = scanned buf.length [] [] := rfl
  simp only [hstart, hall]
  rfl

/-! ## Reading stays in the buffer -/

variable {p : SlottedPage} {es : List Entry} {idx : Nat}

theorem Shows.decodeAt_safe (h : Shows p (es.map Entry.bytes)) (hidx : idx < es.length) :
    Safe (p.decodeAt idx) fun _ => True := .of_ok (h.decodeAt hidx) trivial

theorem Shows.values (h : Shows p (es.map Entry.bytes)) : p.values = .ok (es.map Entry.owned) := by
  have hall := mapM_ok (l := List.range es.length) (f := p.decodeAt)
    (g := fun i => (es[i]?.map Entry.owned).getD ⟨.int 0, none, none, [], 0⟩) (by
      intro i hi
      have hlt : i < es.length := List.mem_range.mp hi
      rw [h.decodeAt hlt, List.getElem?_eq_getElem hlt]
      rfl)
  rw [SlottedPage.values, h.slotCount, List.length_map]
  show (List.range es.length).mapM p.decodeAt = _
  rw [hall]
  congr 1
  apply List.ext_getElem
  · simp
  · intro i hi hi'
    have hlt : i < es.length := by simpa using hi
    simp [List.getElem?_eq_getElem hlt]

/-- None of the operations that read a page panics. -/
structure ReadsInBounds (p : SlottedPage) : Prop where
  values : p.values ≠ .error .panic
  get : ∀ id, p.get id ≠ .error .panic
  contains : ∀ id, p.contains id ≠ .error .panic
  findHinted : ∀ id hint, p.findHinted id hint ≠ .error .panic
  seek : ∀ lower, p.seek lower ≠ .error .panic
  successor : ∀ id, p.successor id ≠ .error .panic
  first : p.first ≠ .error .panic
  last : p.last ≠ .error .panic
  atRef : ∀ i, p.atRef i ≠ .error .panic

theorem Shows.readsInBounds (h : Shows p (es.map Entry.bytes)) : ReadsInBounds p where
  values := by
    rw [h.values]
    exact nofun
  get id := by
    refine ((h.findExactRef_safe _).bind (Q := fun _ => True) fun found hfound => ?_).2
    cases found with
    | none => exact Safe.pure trivial
    | some idx =>
      have hidx : idx < es.length := by simpa using hfound idx rfl
      exact (h.decodeAt_safe hidx).bind fun _ _ => Safe.pure trivial
  contains id :=
    ((h.findExactRef_safe _).bind (Q := fun _ => True) fun _ _ => Safe.pure trivial).2
  findHinted id hint := by
    have hexact := (h.findExactRef_safe (.owned id)).bind (Q := fun _ => True)
      fun found _ => Safe.pure (a := found) trivial
    rw [bind_pure] at hexact
    refine (Safe.bind_ok (Q := fun _ => True) h.slotCount (Safe.ite (fun hlt => ?_) fun _ => ?_)).2
    · refine (h.idAt_safe hlt).bind fun cand _ => ?_
      exact Safe.ite (fun _ => Safe.pure trivial) fun _ => hexact
    · exact hexact
  seek lower := by
    cases lower with
    | included id => exact (h.search_safe _ _).2
    | excluded id => exact (h.search_safe _ _).2
    | unbounded => exact nofun
  successor id := by
    refine ((h.search_safe _ _).bind (Q := fun _ => True) fun k _ => Safe.bind_ok h.slotCount ?_).2
    refine Safe.ite (fun hlt => ?_) fun _ => Safe.pure trivial
    exact (h.decodeAt_safe (by simpa using hlt)).bind fun _ _ => Safe.pure trivial
  first := by
    refine (Safe.bind_ok (Q := fun _ => True) h.slotCount ?_).2
    refine Safe.ite (fun _ => Safe.pure trivial) fun hne => ?_
    rw [List.length_map] at hne
    exact (h.decodeAt_safe (by omega)).bind fun _ _ => Safe.pure trivial
  last := by
    refine (Safe.bind_ok (Q := fun _ => True) h.slotCount ?_).2
    refine Safe.ite (fun _ => Safe.pure trivial) fun hne => ?_
    rw [List.length_map] at hne ⊢
    exact (h.decodeAt_safe (by omega)).bind fun _ _ => Safe.pure trivial
  atRef i := by
    have hends := h.arrays_length.2
    unfold SlottedPage.atRef
    cases hi : p.idEnds[i]? with
    | none => exact nofun
    | some stop =>
      obtain ⟨hlt, -⟩ := List.getElem?_eq_some_iff.mp hi
      rw [hends] at hlt
      show (do
        let record ← p.record i
        return WireTuple.readFields record stop.toNat : Except Halt _) ≠ _
      rw [h.record hlt]
      exact nofun

/-! ## Every page reached from a new one -/

/-- The slots are the directory's, end below the heap, and lie in it apart from each
other; what they leave of it is dead. -/
structure LaidOut (p : SlottedPage) (slots : List SlotEntry) : Prop where
  count : p.slotCount = .ok slots.length
  slot : ∀ i, (h : i < slots.length) → p.slot i = .ok slots[i]
  dirEnd : dirOffset slots.length ≤ p.heapStart
  inside : ∀ e ∈ slots, p.heapStart ≤ e.offset.toNat ∧
    e.offset.toNat + e.len.toNat ≤ p.buf.length
  apart : slots.Pairwise fun e f => e.offset.toNat + e.len.toNat ≤ f.offset.toNat ∨
    f.offset.toNat + f.len.toNat ≤ e.offset.toNat
  dead : p.deadHeapBytes = p.buf.length - p.heapStart - liveBytes slots

theorem total_span_eq (slots : List SlotEntry) :
    Span.total (slots.map SlotEntry.span) = liveBytes slots := by
  rw [Span.total, List.map_map]
  rfl

theorem Laid.laidOut {slots : List SlotEntry} (h : Laid p slots) : LaidOut p slots where
  count := h.slotCount
  slot _ hi := h.slot hi
  dirEnd := h.dir_le
  inside _ he := h.inside he
  apart := List.pairwise_map.mp h.packed.apart
  dead := by
    have hdead := h.packed.dead_eq
    rw [total_span_eq] at hdead
    omega

/-- The pages reached from a new one. -/
abbrev Reached (capacity : Nat) : SlottedPage → Prop :=
  Reachable PageOp.step (fun _ op => op.Fits) (SlottedPage.new capacity)

theorem Reached.shows {capacity : Nat} (hcap : capacity < 2 ^ 32) (h : Reached capacity p) :
    ∃ es : List Entry, Shows p (es.map Entry.bytes) := by
  refine Reachable.invariant (I := fun p => ∃ es : List Entry, Shows p (es.map Entry.bytes))
    ⟨[], shows_blank capacity hcap⟩ ?_ h
  intro p op hp hfits
  obtain ⟨es, hshows⟩ := hp
  exact (PageOp.kept hshows hfits).1

/-- The layout of every page reached from a new one, with nothing indexed outside of
the buffer; and the page read in from its bytes: the same tuples, the heap from the
lowest of them on. -/
theorem layout_of_reached {capacity : Nat} (hcap : capacity < 2 ^ 32) (h : Reached capacity p) :
    ∃ slots, LaidOut p slots ∧
      (∀ op : PageOp, op.Fits → (op.run p).1 ≠ .error .panic) ∧ ReadsInBounds p ∧
      ∃ q, SlottedPage.fromBytes p.toBytes = .ok q ∧ q.values = p.values ∧
        (∃ ts, p.values = .ok ts) ∧
        q.heapStart = lowestOffset p.buf.length slots ∧ p.heapStart ≤ q.heapStart ∧
        q.deadHeapBytes + (q.heapStart - p.heapStart) = p.deadHeapBytes := by
  obtain ⟨es, hshows⟩ := h.shows hcap
  have hreads := hshows.readsInBounds
  have hvalues := hshows.values
  have hops : ∀ op : PageOp, op.Fits → (op.run p).1 ≠ .error .panic :=
    fun op hfits => (PageOp.kept hshows hfits).2
  obtain ⟨slots, hl, hrecords⟩ := hshows
  have hheap := hl.packed.floor_le
  have hdir := hl.dir_le
  obtain ⟨hsize, hbelow, hmet⟩ := lowestOffset_spec p.buf.length slots
  have hraise : p.heapStart ≤ lowestOffset p.buf.length slots := by
    rcases hmet with hmet | ⟨e, he, hmet⟩
    · omega
    · rw [hmet]
      exact (hl.inside he).1
  have hpacked := (hl.packed.raise hraise hsize (by
    intro s hs
    obtain ⟨e, he, rfl⟩ := List.mem_map.mp hs
    exact hbelow e he)).dead_eq
  have hdead := hl.packed.dead_eq
  rw [total_span_eq] at hpacked hdead
  have hread := fromBytes_eq hl.dir (Nat.le_trans hdir hheap)
    (fun s hs => ⟨Nat.le_trans hdir (hl.inside hs).1, (hl.inside hs).2⟩) hrecords
  refine ⟨slots, hl.laidOut, hops, hreads, _, hread, rfl, ⟨_, hvalues⟩, rfl, hraise, ?_⟩
  dsimp only
  omega

/-- A row without versions. -/
def rowTuple (n : UInt64) (data : List UInt8) : Tuple := ⟨.int n, none, none, data, 0⟩

/-- A page of 64 bytes that was given two rows and then gave the second up. -/
def frontierGone : List PageOp :=
  [.add (rowTuple 1 [7]), .add (rowTuple 2 [8]), .remove (.int 2)]

theorem reached_frontierGone : Reached 64 (Lib.run PageOp.step (SlottedPage.new 64) frontierGone) :=
  reachable_run frontierGone
    ⟨show 16 + (Entry.of (rowTuple 1 [7])).bytes.length < 2 ^ 32 by decide,
      show 16 + (Entry.of (rowTuple 2 [8])).bytes.length < 2 ^ 32 by decide, trivial, trivial⟩

/-- The layout of that page. -/
theorem layout_of_reached_frontierGone :
    ∃ slots, LaidOut (Lib.run PageOp.step (SlottedPage.new 64) frontierGone) slots :=
  (layout_of_reached (by decide) reached_frontierGone).imp fun _ h => h.1

/-- Read in again, the page's heap starts above the bytes the second row had. -/
theorem reload_raises_heapStart :
    ∃ p q, Reached 64 p ∧ SlottedPage.fromBytes p.toBytes = .ok q ∧
      p.heapStart = 50 ∧ q.heapStart = 57 ∧ p.deadHeapBytes = 7 ∧ q.deadHeapBytes = 0 :=
  ⟨_, _, reached_frontierGone, rfl, by decide, by decide, by decide, by decide⟩

end SquealDb.Page
