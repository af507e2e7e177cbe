import SquealDb.Page.SlottedSearch

/-!
# A slotted page as a sorted map

A page beside the map it stands for: every operation does to the one what it does to
the other, and every way to read the page answers as the map does.  What a page
cannot do is write a tuple over its old record with an id of another length: `replace`
then leaves the old id end in place, and the slot's id is no longer read as it is.
-/

namespace SquealDb.Codec

def Tuple.eq (s t : Tuple) : Bool :=
  s.id.eq t.id && s.txnId == t.txnId && s.preLsn == t.preLsn && s.data == t.data &&
    s.flags == t.flags

theorem Tuple.ownedAs_eq (t : Tuple) (form : IdForm) : (t.ownedAs form).eq t = true := by
  simp [Tuple.eq, Tuple.ownedAs, IdForm.owned_eq]

/-- A lent tuple shows `t`: an id that equals its id, and the other fields. -/
def WireTuple.Shows (w : WireTuple) (t : Tuple) : Prop :=
  (IdRef.wire w.id).eq (.owned t.id) = true ∧ w.txnId = t.txnId ∧ w.preLsn = t.preLsn ∧
    w.data = t.data ∧ w.flags = t.flags

end SquealDb.Codec

namespace SquealDb.Page

open Lib Codec KeyCode

variable {p : SlottedPage} {es : List Entry} {m : TupleMap} {id : DBIdType} {t : Tuple} {i : Nat}

/-! ## Reading -/

/-- Where a scan of the map begins. -/
def seekMap (m : TupleMap) : SlottedPage.Bound → Nat
  | .included k => rank Tuple.id DBIdType.cmp m.entries k
  | .excluded k => rankAfter Tuple.id DBIdType.cmp m.entries k
  | .unbounded => 0

/-- Every operation of the page that reads answers as the map does, and those that
change it fail on a key exactly as a map would. -/
structure Answers (p : SlottedPage) (m : TupleMap) : Prop where
  values : ∃ ts, p.values = .ok ts ∧ List.Forall₂ (fun s t => s.eq t = true) ts m.entries
  get : ∀ id, ∃ t, p.get id = .ok t ∧ Option.Rel (fun s t => s.eq t = true) t (m.lookup id)
  contains : ∀ id, p.contains id = .ok (m.lookup id).isSome
  findHinted : ∀ id hint, p.findHinted id hint = .ok (m.position id)
  seek : ∀ bound, p.seek bound = .ok (seekMap m bound)
  successor : ∀ id, ∃ t, p.successor id = .ok t ∧
    Option.Rel (fun s t => s.eq t = true) t (m.entries.find? fun t => (t.id.cmp id).isGT)
  first : ∃ t, p.first = .ok t ∧ Option.Rel (fun s t => s.eq t = true) t m.entries.head?
  last : ∃ t, p.last = .ok t ∧ Option.Rel (fun s t => s.eq t = true) t m.entries.getLast?
  atRef : ∀ i, ∃ w, p.atRef i = .ok w ∧ Option.Rel WireTuple.Shows w m.entries[i]?
  add : ∀ t : Tuple, 16 + (t.encodeInto []).length < 2 ^ 32 →
    ((SlottedPage.add t p).1 = .error (.error (.duplicateKey t.id)) ↔ (m.lookup t.id).isSome)
  replace : ∀ (id : DBIdType) (t : Tuple), 16 + (t.encodeInto []).length < 2 ^ 32 →
    ((SlottedPage.replace id t p).1 = .error (.error (.keyNotFound id)) ↔ m.lookup id = none)
  remove : ∀ id,
    (SlottedPage.remove id p).1 = .error (.error (.keyNotFound id)) ↔ m.lookup id = none

namespace Holds

theorem decodeAt (h : Holds p es m) (hi : i < m.entries.length) :
    ∃ t, p.decodeAt i = .ok t ∧ t.eq m.entries[i] = true := by
  obtain ⟨e, he, htuple, -⟩ := h.entry hi
  obtain ⟨hi', rfl⟩ := List.getElem?_eq_some_iff.mp he
  exact ⟨_, h.shows.decodeAt hi', htuple ▸ es[i].tuple.ownedAs_eq es[i].form⟩

theorem slotCount (h : Holds p es m) : p.slotCount = .ok m.entries.length := by
  rw [h.shows.slotCount, List.length_map, h.length]

theorem findExact (h : Holds p es m) (id : DBIdType) : p.findExact id = .ok (m.position id) :=
  h.findExactRef (.owned id)

/-- Decoding at a position the map has a tuple at, or not. -/
theorem values (h : Holds p es m) :
    ∃ ts, p.values = .ok ts ∧ List.Forall₂ (fun s t => s.eq t = true) ts m.entries := by
  refine ⟨_, h.shows.values, ?_⟩
  rw [← h.tuples, List.forall₂_map_left_iff, List.forall₂_map_right_iff, List.forall₂_same]
  intro e _
  exact e.tuple.ownedAs_eq e.form

theorem get (h : Holds p es m) (id : DBIdType) :
    ∃ t, p.get id = .ok t ∧ Option.Rel (fun s t => s.eq t = true) t (m.lookup id) := by
  rw [SlottedPage.get, h.findExact]
  cases hpos : m.position id with
  | none =>
    refine ⟨none, rfl, ?_⟩
    rw [SortedMap.lookup_eq_none_iff.mpr (SortedMap.position_eq_none_iff.mp hpos)]
    exact .none
  | some k =>
    obtain ⟨hk, heq⟩ := SortedMap.position_eq_some hpos
    obtain ⟨t, ht, hsame⟩ := h.decodeAt hk
    refine ⟨some t, ?_, ?_⟩
    · show (do
        let t ← p.decodeAt k
        return some t : Except Halt _) = _
      rw [ht]
      rfl
    · rw [SortedMap.lookup_of_eq hk heq]
      exact .some hsame

theorem successor (h : Holds p es m) (id : DBIdType) :
    ∃ t, p.successor id = .ok t ∧
      Option.Rel (fun s t => s.eq t = true) t (m.entries.find? fun t => (t.id.cmp id).isGT) := by
  simp only [SlottedPage.successor, h.upperBound, h.slotCount, bind, Except.bind]
  split
  · next hlt =>
      obtain ⟨t, ht, hsame⟩ := h.decodeAt hlt
      have hfind : (m.entries.find? fun t => (t.id.cmp id).isGT) =
          some m.entries[rankAfter Tuple.id DBIdType.cmp m.entries id] := by
        rw [List.find?_eq_some_iff_getElem]
        refine ⟨?_, _, hlt, rfl, ?_⟩
        · exact @List.findIdx_getElem _ (fun t : Tuple => (t.id.cmp id).isGT) m.entries hlt
        · intro j hj
          rw [List.not_of_lt_findIdx hj]
          rfl
      rw [ht, hfind]
      exact ⟨some t, rfl, .some hsame⟩
  · next hge =>
      have hfind : (m.entries.find? fun t => (t.id.cmp id).isGT) = none := by
        have hend : rankAfter Tuple.id DBIdType.cmp m.entries id = m.entries.length :=
          Nat.le_antisymm List.findIdx_le_length (Nat.not_lt.mp hge)
        rw [List.find?_eq_none]
        intro t ht
        rw [List.findIdx_eq_length.mp hend t ht]
        exact Bool.false_ne_true
      rw [hfind]
      exact ⟨none, rfl, .none⟩

theorem first (h : Holds p es m) :
    ∃ t, p.first = .ok t ∧ Option.Rel (fun s t => s.eq t = true) t m.entries.head? := by
  simp only [SlottedPage.first, h.slotCount, bind, Except.bind]
  split
  · next hnil =>
      rw [List.eq_nil_of_length_eq_zero hnil]
      exact ⟨none, rfl, .none⟩
  · next hne =>
      have hpos : 0 < m.entries.length := Nat.pos_of_ne_zero hne
      obtain ⟨t, ht, hsame⟩ := h.decodeAt hpos
      rw [ht, List.head?_eq_getElem?, List.getElem?_eq_getElem hpos]
      exact ⟨some t, rfl, .some hsame⟩

theorem last (h : Holds p es m) :
    ∃ t, p.last = .ok t ∧ Option.Rel (fun s t => s.eq t = true) t m.entries.getLast? := by
  simp only [SlottedPage.last, h.slotCount, bind, Except.bind]
  split
  · next hnil =>
      rw [List.eq_nil_of_length_eq_zero hnil]
      exact ⟨none, rfl, .none⟩
  · next hne =>
      have hpos : m.entries.length - 1 < m.entries.length := by omega
      obtain ⟨t, ht, hsame⟩ := h.decodeAt hpos
      rw [ht, List.getLast?_eq_getElem?, List.getElem?_eq_getElem hpos]
      exact ⟨some t, rfl, .some hsame⟩

theorem atRef (h : Holds p es m) (i : Nat) :
    ∃ w, p.atRef i = .ok w ∧ Option.Rel WireTuple.Shows w m.entries[i]? := by
  simp only [SlottedPage.atRef, h.idEnds, List.getElem?_map]
  rcases Nat.lt_or_ge i m.entries.length with hi | hi
  · obtain ⟨e, he, htuple, hlen⟩ := h.entry hi
    obtain ⟨hi', rfl⟩ := List.getElem?_eq_some_iff.mp he
    have hrecord := h.shows.record (show i < (es.map Entry.bytes).length by simpa using hi')
    have hstop := es[i].idLen_lt
    have hnat : (UInt32.ofNat es[i].idLen).toNat = es[i].idLen := by
      rw [UInt32.toNat_ofNat', Nat.mod_eq_of_lt (by omega)]
    rw [List.getElem_map] at hrecord
    have hfields : WireTuple.readFields es[i].bytes es[i].idLen =
        some (es[i].tuple.wireAs es[i].form) :=
      readFields_bytesAs (show es[i].bytes.length < 2 ^ 64 by omega)
    refine ⟨some (es[i].tuple.wireAs es[i].form), ?_, ?_⟩
    · rw [he]
      simp only [Option.map_some, hrecord, hnat, bind, Except.bind, hfields]
      rfl
    · rw [List.getElem?_eq_getElem hi, ← htuple]
      refine .some ⟨?_, rfl, rfl, rfl, rfl⟩
      exact ((Entry.lends hlen).eq (.owned es[i].tuple.id)).trans
        ((DBIdType.eq_iff_tight _ _).mpr rfl)
  · rw [List.getElem?_eq_none hi, List.getElem?_eq_none (by rw [← h.length]; exact hi)]
    exact ⟨none, rfl, .none⟩

/-! ## Changing -/

theorem add_of_present (h : Holds p es m) {k : Nat} (hpos : m.position t.id = some k) :
    SlottedPage.add t p = (.error (.error (.duplicateKey t.id)), p) :=
  add_error (h.addPlace_of_present hpos)

theorem add_of_absent (h : Holds p es m) (hpos : m.position t.id = none)
    (hlen : 16 + (t.encodeInto []).length < 2 ^ 32) :
    ∃ p', (SlottedPage.add t p = (.ok (), p') ∧ ∃ es', Holds p' es' (m.insert t)) ∨
      (SlottedPage.add t p = (.error (.error .pageCapacityError), p') ∧ Holds p' es m) := by
  have hle : rank Tuple.id DBIdType.cmp m.entries t.id ≤ m.entries.length :=
    List.findIdx_le_length
  rw [← Entry.bytes_of] at hlen
  obtain ⟨p', ⟨hadd, hshows, hprefixes, hends, -⟩ | ⟨hadd, hshows, hprefixes, hends, -⟩⟩ :=
    h.shows.add (h.addPlace_of_absent hpos) (by rw [List.length_map, ← h.length]; exact hle) hlen
  · refine ⟨p', Or.inl ⟨hadd, es.insertIdx (rank Tuple.id DBIdType.cmp m.entries t.id) (Entry.of t),
      ?_, ?_, ?_, ?_⟩⟩
    · rw [List.map_insertIdx]
      exact hshows
    · rw [List.map_insertIdx, hprefixes, h.prefixes]
      rfl
    · rw [List.map_insertIdx, hends, h.idEnds]
    · rw [List.map_insertIdx, h.tuples, SortedMap.insert_of_absent hpos]
      rfl
  · exact ⟨p', Or.inr ⟨hadd, hshows, hprefixes.trans h.prefixes, hends.trans h.idEnds, h.tuples⟩⟩

theorem erased (h : Holds p es m) {p' : SlottedPage} {k : Nat} (hpos : m.position id = some k)
    (hshows : Shows p' ((es.eraseIdx k).map Entry.bytes))
    (hprefixes : p'.prefixes = p.prefixes.eraseIdx k) (hends : p'.idEnds = p.idEnds.eraseIdx k) :
    Holds p' (es.eraseIdx k) (m.erase id) where
  shows := hshows
  prefixes := by rw [hprefixes, h.prefixes, List.eraseIdx_map]
  idEnds := by rw [hends, h.idEnds, List.eraseIdx_map]
  tuples := by rw [← List.eraseIdx_map, h.tuples, SortedMap.erase_of_position hpos]

theorem remove_of_present (h : Holds p es m) {k : Nat} (hpos : m.position id = some k) :
    ∃ old p' es', SlottedPage.remove id p = (.ok old, p') ∧ Holds p' es' (m.erase id) := by
  obtain ⟨hk, -⟩ := SortedMap.position_eq_some hpos
  obtain ⟨p', hremove, hshows, ⟨hprefixes, hends⟩, -⟩ :=
    h.shows.remove ((h.findExact id).trans (by rw [hpos])) (by rw [← h.length]; exact hk)
  exact ⟨_, p', _, hremove, h.erased hpos hshows hprefixes hends⟩

end Holds

/-- A tuple written over a record of its id has an id that ends where the old one's
does. -/
def KeepsIdEnd (p : SlottedPage) (t : Tuple) : Prop :=
  ∀ n, p.slotCount = .ok n → ∀ i < n, ∀ bytes old, p.record i = .ok bytes →
    Codec.fromBytes bytes = .ok old → old.id.eq t.id = true →
    (t.encodeInto []).length ≤ bytes.length → idEnd bytes = idEnd (t.encodeInto [])

namespace Holds

private theorem map_set_self {α β : Type} {f : α → β} {l : List α} {k : Nat} (hk : k < l.length)
    {a : α} (h : f l[k] = f a) : (l.set k a).map f = l.map f := by
  have hk' : k < (l.map f).length := by simpa using hk
  have hget : (l.map f)[k] = f a := by rw [List.getElem_map, h]
  rw [List.map_set, ← hget, List.set_getElem_self]

/-- `replace` in place, of an id whose end stays. -/
theorem replaced_inPlace (h : Holds p es m) {p' : SlottedPage} {k : Nat}
    (hpos : m.position t.id = some k) (hk : k < es.length)
    (hidLen : es[k].idLen = (Entry.of t).idLen)
    (hshows : Shows p' ((es.set k (Entry.of t)).map Entry.bytes))
    (hprefixes : p'.prefixes = p.prefixes) (hends : p'.idEnds = p.idEnds) :
    Holds p' (es.set k (Entry.of t)) (m.insert t) where
  shows := hshows
  prefixes := by
    obtain ⟨hk', heq⟩ := SortedMap.position_eq_some hpos
    rw [hprefixes, h.prefixes]
    refine (map_set_self hk ?_).symm
    apply orderPrefix_congr
    have hentry : m.entries[k].id = es[k].tuple.id := by simp only [← h.tuples, List.getElem_map]
    rw [← hentry, ← DBIdType.cmp_eq_iff]
    exact heq
  idEnds := by
    rw [hends, h.idEnds]
    refine (map_set_self hk ?_).symm
    rw [hidLen]
  tuples := by
    rw [List.map_set, h.tuples, SortedMap.insert_of_position hpos]
    rfl

/-- `replace` by a tuple that is added anew. -/
theorem replaced_anew {p₁ p' : SlottedPage} (h : Holds p₁ es (m.erase id)) (heq : t.id.eq id = true)
    {k : Nat} (hk : k = rank Tuple.id DBIdType.cmp (m.erase id).entries id)
    (hshows : Shows p' ((es.insertIdx k (Entry.of t)).map Entry.bytes))
    (hprefixes : p'.prefixes = p₁.prefixes.insertIdx k (orderPrefix id))
    (hends : p'.idEnds = p₁.idEnds.insertIdx k (UInt32.ofNat (Entry.of t).idLen)) :
    Holds p' (es.insertIdx k (Entry.of t)) (m.insert t) := by
  have hcmp : t.id.cmp id = .eq := (DBIdType.cmp_eq_iff _ _).mpr heq
  have habsent : (m.erase id).position t.id = none :=
    SortedMap.position_erase (Std.OrientedCmp.eq_symm hcmp)
  rw [← SortedMap.rank_congr hcmp] at hk
  refine ⟨hshows, ?_, ?_, ?_⟩
  · rw [hprefixes, h.prefixes, List.map_insertIdx, ← orderPrefix_congr heq]
    rfl
  · rw [hends, h.idEnds, List.map_insertIdx]
  · rw [List.map_insertIdx, h.tuples, ← SortedMap.insert_erase hcmp,
      SortedMap.insert_of_absent habsent, hk]
    rfl

theorem idLen_of_keeps (h : Holds p es m) (hkeeps : KeepsIdEnd p t) {k : Nat} (hk : k < es.length)
    (heq : es[k].tuple.id.eq t.id = true) (hlen : 16 + (Entry.of t).bytes.length < 2 ^ 32)
    (hfits : (Entry.of t).bytes.length ≤ es[k].bytes.length) :
    es[k].idLen = (Entry.of t).idLen := by
  have hk' : k < (es.map Entry.bytes).length := by simpa using hk
  have hrecord := h.shows.record hk'
  have hsize := h.shows.length_lt hk'
  rw [List.getElem_map] at hrecord hsize
  have hid : es[k].owned.id.eq t.id = true := by
    rw [DBIdType.eq_iff_tight] at heq ⊢
    rw [← heq]
    exact (DBIdType.eq_iff_tight _ _).mp (IdForm.owned_eq es[k].form es[k].tuple.id)
  have hends := hkeeps _ h.shows.slotCount k hk' _ _ hrecord (Entry.fromBytes_bytes hsize) hid
    (by rw [← Entry.bytes_of]; exact hfits)
  rw [← Entry.bytes_of, Entry.idEnd_bytes hsize, Entry.idEnd_bytes (by omega)] at hends
  exact Except.ok.inj hends

/-- `replace` of a key the map has: it fails for want of room and changes nothing, or
puts the tuple in the other's place, if the id end stays as it was. -/
theorem replace_of_present (h : Holds p es m) {k : Nat} (hpos : m.position id = some k)
    (hlen : 16 + (t.encodeInto []).length < 2 ^ 32) :
    SlottedPage.replace id t p = (.error (.error .pageCapacityError), p) ∨
      ∃ old p', SlottedPage.replace id t p = (.ok old, p') ∧
        (t.id.eq id = true → KeepsIdEnd p t → ∃ es', Holds p' es' (m.insert t)) := by
  obtain ⟨hk, hcmp⟩ := SortedMap.position_eq_some hpos
  have hk' : k < es.length := by
    rw [← h.length]
    exact hk
  have hfound : p.findExact id = .ok (some k) := (h.findExact id).trans (by rw [hpos])
  rw [← Entry.bytes_of] at hlen
  rcases Nat.lt_or_ge es[k].bytes.length (Entry.of t).bytes.length with hbig | hfits
  · obtain ⟨e, he, hanew⟩ := h.shows.replace_anew hfound hk' hbig
    rw [hanew]
    rcases h.shows.reinsert hk' he hlen with hfull | ⟨p₁, hshows, hprefixes, hends, -, -, hdone⟩
    · exact Or.inl hfull
    · have herased := h.erased hpos hshows hprefixes hends
      obtain ⟨p', hok, hshows', hprefixes', hends', -⟩ := hdone _ (herased.lowerBound id) (by
        rw [← herased.length]
        exact List.findIdx_le_length)
      exact Or.inr ⟨_, p', hok, fun heq _ =>
        ⟨_, herased.replaced_anew heq rfl hshows' hprefixes' hends'⟩⟩
  · obtain ⟨p', hok, hshows, hprefixes, hends, -⟩ := h.shows.replace_inPlace hfound hk' hfits
    refine Or.inr ⟨_, p', hok, fun heq hkeeps => ⟨es.set k (Entry.of t), ?_⟩⟩
    have hsame : m.entries[k].id.cmp t.id = .eq :=
      Std.TransCmp.eq_trans hcmp (Std.OrientedCmp.eq_symm ((DBIdType.cmp_eq_iff _ _).mpr heq))
    have hentry : m.entries[k].id = es[k].tuple.id := by simp only [← h.tuples, List.getElem_map]
    have hid : es[k].tuple.id.eq t.id = true := by
      rw [← hentry, ← DBIdType.cmp_eq_iff]
      exact hsame
    exact h.replaced_inPlace (SortedMap.position_of_eq hk hsame) hk'
      (h.idLen_of_keeps hkeeps hk' hid hlen hfits) hshows hprefixes hends

end Holds

/-! ## A page and its map -/

/-- What an operation that succeeds does to the map. -/
def mapAfter (m : TupleMap) : PageOp → TupleMap
  | .add t => m.insert t
  | .appendEncoded _ => m
  | .replace _ t => m.insert t
  | .remove id => m.erase id
  | .truncate n => m.take n
  | .clear => SortedMap.empty

/-- A page, and a map to compare it with. -/
structure Beside where
  page : SlottedPage
  map : TupleMap

namespace Beside

/-- An operation on both: one that fails on the page leaves the map alone. -/
def step (s : Beside) (op : PageOp) : Beside :=
  match op.run s.page with
  | (.ok _, p) => ⟨p, mapAfter s.map op⟩
  | (.error _, p) => ⟨p, s.map⟩

/-- The operations of a map whose encodings a `u32` counts; a tuple replaces one of its
own id, and where it is written over the old record, the id ends where it did. -/
def Meets (s : Beside) : PageOp → Prop
  | .add t => 16 + (t.encodeInto []).length < 2 ^ 32
  | .appendEncoded _ => False
  | .replace id t => t.id.eq id = true ∧ 16 + (t.encodeInto []).length < 2 ^ 32 ∧
      KeepsIdEnd s.page t
  | _ => True

end Beside

/-- The slots of a page's bytes hold the tuples of `m`, in either form of a key, apart
from each other. -/
structure HoldsTuples (bytes : List UInt8) (m : TupleMap) (slots : List SlotEntry)
    (es : List Entry) : Prop where
  small : bytes.length < 2 ^ 32
  dir : Dir bytes slots
  dir_le : dirOffset slots.length ≤ bytes.length
  inside : ∀ s ∈ slots, dirOffset slots.length ≤ s.offset.toNat ∧
    s.offset.toNat + s.len.toNat ≤ bytes.length
  apart : (slots.map SlotEntry.span).Pairwise Span.Apart
  records : slots.map (recordOf bytes) = es.map Entry.bytes
  tuples : es.map Entry.tuple = m.entries

/-- A new page with the empty map, or a page read in with the map of its tuples. -/
inductive Start : Beside → Prop
  | new {capacity : Nat} (h : capacity < 2 ^ 32) : Start ⟨SlottedPage.new capacity, SortedMap.empty⟩
  | read {bytes : List UInt8} {p : SlottedPage} {m : TupleMap} {slots : List SlotEntry}
      {es : List Entry} (h : HoldsTuples bytes m slots es)
      (hread : SlottedPage.fromBytes bytes = .ok p) : Start ⟨p, m⟩

theorem HoldsTuples.fromBytes {bytes : List UInt8} {slots : List SlotEntry}
    (h : HoldsTuples bytes m slots es) :
    ∃ p, SlottedPage.fromBytes bytes = .ok p ∧ Holds p es m := by
  obtain ⟨hsize, hbelow, hmet⟩ := lowestOffset_spec bytes.length slots
  have hcount : slots.length = es.length := by
    have hlengths := congrArg List.length h.records
    simpa using hlengths
  have hinside : ∀ s ∈ slots.map SlotEntry.span,
      lowestOffset bytes.length slots ≤ s.start ∧ s.stop ≤ bytes.length := by
    intro s hs
    obtain ⟨e, he, rfl⟩ := List.mem_map.mp hs
    exact ⟨hbelow e he, (h.inside e he).2⟩
  have htotal := Span.total_le h.apart hinside
  refine ⟨_, fromBytes_eq h.dir h.dir_le h.inside h.records, ⟨slots, ?_, h.records⟩, rfl, rfl,
    h.tuples⟩
  refine ⟨h.small, h.dir, ?_, ⟨hsize, hinside, h.apart, ?_⟩, ?_, ?_⟩
  · show dirOffset slots.length ≤ lowestOffset bytes.length slots
    rcases hmet with hmet | ⟨e, he, hmet⟩
    · rw [hmet]
      exact h.dir_le
    · rw [hmet]
      exact (h.inside e he).1
  · rw [total_span_eq] at htotal ⊢
    dsimp only
    omega
  · rw [hcount]
    exact List.length_map _
  · rw [hcount]
    exact List.length_map _

theorem Start.holds {s : Beside} (h : Start s) : ∃ es, Holds s.page es s.map := by
  cases h with
  | new h => exact ⟨[], shows_blank _ h, rfl, rfl, rfl⟩
  | read h hread =>
    obtain ⟨p, hp, hholds⟩ := h.fromBytes
    rw [hp] at hread
    cases hread
    exact ⟨_, hholds⟩

theorem lookup_eq_none : m.lookup id = none ↔ m.position id = none := by
  rw [SortedMap.lookup_eq_none_iff, SortedMap.position_eq_none_iff]

theorem lookup_isSome_of_position {k : Nat} (h : m.position id = some k) :
    (m.lookup id).isSome = true := by
  rw [SortedMap.lookup_isSome, h]
  rfl

namespace Holds

/-- One operation, on the page and on its map. -/
theorem step (h : Holds p es m) {op : PageOp} (hmeets : Beside.Meets ⟨p, m⟩ op) :
    ∃ es', Holds (Beside.step ⟨p, m⟩ op).page es' (Beside.step ⟨p, m⟩ op).map := by
  cases op with
  | add t =>
    cases hpos : m.position t.id with
    | some k =>
      simp only [Beside.step, PageOp.run, h.add_of_present hpos]
      exact ⟨es, h⟩
    | none =>
      obtain ⟨p', ⟨hadd, es', hholds⟩ | ⟨hadd, hholds⟩⟩ := h.add_of_absent hpos hmeets
      · simp only [Beside.step, PageOp.run, hadd]
        exact ⟨es', hholds⟩
      · simp only [Beside.step, PageOp.run, hadd]
        exact ⟨es, hholds⟩
  | appendEncoded encoded => exact hmeets.elim
  | replace id t =>
    obtain ⟨heq, hlen, hkeeps⟩ := hmeets
    cases hpos : m.position id with
    | none =>
      have hmiss := replace_not_found (t := t) ((h.findExact id).trans (by rw [hpos]))
      simp only [Beside.step, PageOp.run, Attempt.bind_error hmiss]
      exact ⟨es, h⟩
    | some k =>
      rcases h.replace_of_present hpos hlen with hfull | ⟨old, p', hok, hholds⟩
      · simp only [Beside.step, PageOp.run, Attempt.bind_error hfull]
        exact ⟨es, h⟩
      · simp only [Beside.step, PageOp.run, Attempt.bind_ok hok]
        exact hholds heq hkeeps
  | remove id =>
    cases hpos : m.position id with
    | none =>
      have hmiss := remove_not_found ((h.findExact id).trans (by rw [hpos]))
      simp only [Beside.step, PageOp.run, Attempt.bind_error hmiss]
      exact ⟨es, h⟩
    | some k =>
      obtain ⟨old, p', es', hok, hholds⟩ := h.remove_of_present hpos
      simp only [Beside.step, PageOp.run, Attempt.bind_ok hok]
      exact ⟨es', hholds⟩
  | truncate n =>
    obtain ⟨p', hok, hshows, hprefixes, hends, -⟩ := h.shows.truncate n
    simp only [Beside.step, PageOp.run, hok]
    refine ⟨es.take n, ?_, ?_, ?_, ?_⟩
    · rw [List.map_take]
      exact hshows
    · rw [hprefixes, h.prefixes, List.map_take]
    · rw [hends, h.idEnds, List.map_take]
    · rw [List.map_take, h.tuples]
      rfl
  | clear =>
    obtain ⟨p', hok, hshows, -⟩ := h.shows.clear
    obtain ⟨hprefixes, hends⟩ := hshows.nil_arrays
    simp only [Beside.step, PageOp.run, hok]
    exact ⟨[], hshows, hprefixes, hends, rfl⟩

/-- A page that holds the tuples of a map answers as the map. -/
theorem answers (h : Holds p es m) : Answers p m where
  values := h.values
  get := h.get
  contains id := by
    rw [SlottedPage.contains, h.findExact, SortedMap.lookup_isSome]
    rfl
  findHinted id hint := h.findHintedRef (.owned id) hint
  seek bound := by
    cases bound with
    | included k => exact h.lowerBound k
    | excluded k => exact h.upperBound k
    | unbounded => rfl
  successor := h.successor
  first := h.first
  last := h.last
  atRef := h.atRef
  add t hlen := by
    cases hpos : m.position t.id with
    | some k =>
      rw [h.add_of_present hpos, lookup_isSome_of_position hpos]
      exact iff_of_true rfl rfl
    | none =>
      rw [lookup_eq_none.mpr hpos]
      obtain ⟨p', ⟨hadd, -⟩ | ⟨hadd, -⟩⟩ := h.add_of_absent hpos hlen
      · rw [hadd]
        exact iff_of_false nofun nofun
      · rw [hadd]
        exact iff_of_false nofun nofun
  replace id t hlen := by
    rw [lookup_eq_none]
    cases hpos : m.position id with
    | none =>
      rw [replace_not_found ((h.findExact id).trans (by rw [hpos]))]
      exact iff_of_true rfl rfl
    | some k =>
      rcases h.replace_of_present hpos hlen with hfull | ⟨old, p', hok, -⟩
      · rw [hfull]
        exact iff_of_false nofun nofun
      · rw [hok]
        exact iff_of_false nofun nofun
  remove id := by
    rw [lookup_eq_none]
    cases hpos : m.position id with
    | none =>
      rw [remove_not_found ((h.findExact id).trans (by rw [hpos]))]
      exact iff_of_true rfl rfl
    | some k =>
      obtain ⟨old, p', es', hok, -⟩ := h.remove_of_present hpos
      rw [hok]
      exact iff_of_false nofun nofun

end Holds

/-- Any sequence of operations, from a new page or one read in, during which no tuple is
written over a record with an id of another length: the page answers as the map that the
same operations make. -/
theorem answers_of_run {s : Beside} (hstart : Start s) {ops : List PageOp}
    (hops : Allowed Beside.step Beside.Meets s ops) :
    Answers (run Beside.step s ops).page (run Beside.step s ops).map := by
  have hholds : ∃ es, Holds (run Beside.step s ops).page es (run Beside.step s ops).map :=
    Reachable.invariant (I := fun s : Beside => ∃ es, Holds s.page es s.map) hstart.holds
      (fun _ _ ⟨_, h⟩ hmeets => h.step hmeets) (reachable_run ops hops)
  obtain ⟨es, h⟩ := hholds
  exact h.answers

/-- A tuple with a column key. -/
def keyed : Tuple := ⟨.record [.blob [97] 8], none, none, [5], 0⟩

/-- Its slot, with the key's values written out. -/
def keyedValues : Entry := ⟨keyed, .values, trivial⟩

/-- A page of 40 bytes with that slot. -/
def keyedPage : List UInt8 :=
  [1, 0, 0, 0, 40, 0, 0, 0, 29, 0, 0, 0, 11, 0, 0, 0] ++ List.replicate 13 0 ++
    [1, 1, 5, 1, 97, 8, 0, 0, 1, 5, 0]

def keyedMap : TupleMap := ⟨[keyed], List.pairwise_singleton _ _⟩

theorem keyedPage_holds : HoldsTuples keyedPage keyedMap [⟨29, 11⟩] [keyedValues] where
  small := by decide
  dir := ⟨by decide, fun i hi => by
    obtain rfl : i = 0 := by simpa using hi
    show entryAt keyedPage 0 = ⟨29, 11⟩
    decide⟩
  dir_le := by decide
  inside := by decide
  apart := List.pairwise_singleton _ _
  records := by decide
  tuples := rfl

/-- The page read in. -/
def keyedRead : SlottedPage :=
  ⟨keyedPage, 29, 0, [orderPrefix keyed.id], [6]⟩

theorem fromBytes_keyedPage : SlottedPage.fromBytes keyedPage = .ok keyedRead := rfl

/-- The tuple gives way to a row, which is then replaced. -/
def keyedOps : List PageOp :=
  [.remove keyed.id, .add (rowTuple 1 [7]), .replace (.int 1) (rowTuple 1 [8])]

/-- The page with the row, and the bytes of its slot. -/
theorem keepsIdEnd_row :
    KeepsIdEnd (run Beside.step ⟨keyedRead, keyedMap⟩ (keyedOps.take 2)).page (rowTuple 1 [8]) := by
  have hcount : (run Beside.step ⟨keyedRead, keyedMap⟩ (keyedOps.take 2)).page.slotCount =
    .ok 1 := by
    decide
  have hrecord : (run Beside.step ⟨keyedRead, keyedMap⟩ (keyedOps.take 2)).page.record 0 =
      .ok ((rowTuple 1 [7]).encodeInto []) := by
    decide
  intro n hn i hi bytes old hbytes _ _ _
  obtain rfl : n = 1 := Except.ok.inj (hn.symm.trans hcount)
  obtain rfl : i = 0 := by omega
  obtain rfl : bytes = (rowTuple 1 [7]).encodeInto [] :=
    Except.ok.inj (hbytes.symm.trans hrecord)
  decide

/-- The page after that answers as its map. -/
theorem answers_of_run_keyed :
    Answers (run Beside.step ⟨keyedRead, keyedMap⟩ keyedOps).page
      (run Beside.step ⟨keyedRead, keyedMap⟩ keyedOps).map :=
  answers_of_run (.read keyedPage_holds fromBytes_keyedPage)
    ⟨trivial, show 16 + ((rowTuple 1 [7]).encodeInto []).length < 2 ^ 32 by decide,
      ⟨rfl, by decide, keepsIdEnd_row⟩, trivial⟩

/-- The tuple is replaced by itself, in the key's other form and in place, and its slot is
then no longer found under its id. -/
theorem replace_leaves_idEnd :
    ∃ s id t, Start s ∧ t.id.eq id = true ∧ 16 + (t.encodeInto []).length < 2 ^ 32 ∧
      ¬ Answers (s.step (.replace id t)).page (s.step (.replace id t)).map := by
  refine ⟨⟨keyedRead, keyedMap⟩, keyed.id, keyed, .read keyedPage_holds fromBytes_keyedPage, rfl,
    by decide, ?_⟩
  intro h
  have hmiss : (Beside.step ⟨keyedRead, keyedMap⟩ (.replace keyed.id keyed)).page.contains
    keyed.id =
      .ok false := by decide
  have hhave : ((Beside.step ⟨keyedRead, keyedMap⟩ (.replace keyed.id keyed)).map.lookup
      keyed.id).isSome = true := by decide
  rw [h.contains, hhave] at hmiss
  exact absurd hmiss (by decide)

end SquealDb.Page
