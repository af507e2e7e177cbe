import SquealDb.Lib.SortedMap
import SquealDb.Page.SlottedReload

/-!
# Searching a slotted page

A page that holds the tuples of a sorted map, with each slot's prefix and id end as
they are read from its bytes: every search ends where the map has the id, or where it
would have it.
-/

namespace SquealDb.Page

open Lib Codec KeyCode

/-- Ids are ordered as their encodings are. -/
instance : Std.TransCmp DBIdType.cmp where
  eq_swap {a b} := by
    rw [← DBIdType.compare_encode a b, ← DBIdType.compare_encode b a]
    exact Std.OrientedCmp.eq_swap
  isLE_trans {a b c} hab hbc := by
    rw [← DBIdType.compare_encode] at hab hbc ⊢
    exact Std.TransCmp.isLE_trans hab hbc

/-- A map from ids to tuples. -/
abbrev TupleMap := SortedMap Tuple.id DBIdType.cmp

/-- The slots of `p` hold the tuples of `m`, each in the form of its entry, and the
arrays beside the buffer are those of the entries. -/
structure Holds (p : SlottedPage) (es : List Entry) (m : TupleMap) : Prop where
  shows : Shows p (es.map Entry.bytes)
  prefixes : p.prefixes = es.map fun e => orderPrefix e.tuple.id
  idEnds : p.idEnds = es.map fun e => UInt32.ofNat e.idLen
  tuples : es.map Entry.tuple = m.entries

variable {p : SlottedPage} {es : List Entry} {m : TupleMap} {r : IdRef} {id : DBIdType}
  {i : Nat}

namespace Holds

theorem length (h : Holds p es m) : m.entries.length = es.length := by
  rw [← h.tuples, List.length_map]

theorem prefixes_length (h : Holds p es m) : p.prefixes.length = m.entries.length := by
  rw [h.prefixes, List.length_map, h.length]

theorem entry (h : Holds p es m) (hi : i < m.entries.length) :
    ∃ e, es[i]? = some e ∧ e.tuple = m.entries[i] ∧ e.bytes.length < 2 ^ 32 := by
  have hi' : i < es.length := by
    rw [← h.length]
    exact hi
  have hlen := h.shows.length_lt (show i < (es.map Entry.bytes).length by simpa using hi')
  rw [List.getElem_map] at hlen
  refine ⟨es[i], List.getElem?_eq_getElem hi', ?_, hlen⟩
  simp only [← h.tuples, List.getElem_map]

/-- The id a slot lends. -/
theorem idAt (h : Holds p es m) (hi : i < m.entries.length) :
    ∃ s, p.idAt i = .ok s ∧ Lends s m.entries[i].id := by
  obtain ⟨e, he, htuple, hlen⟩ := h.entry hi
  obtain ⟨hi', rfl⟩ := List.getElem?_eq_some_iff.mp he
  have hrecord := h.shows.record (show i < (es.map Entry.bytes).length by simpa using hi')
  have hstop := es[i].idLen_lt
  rw [List.getElem_map] at hrecord
  have hends : index p.idEnds i = .ok (UInt32.ofNat es[i].idLen) := by
    simp only [index, h.idEnds, List.getElem?_map, he, Option.map_some]
  have hnat : (UInt32.ofNat es[i].idLen).toNat = es[i].idLen := by
    rw [UInt32.toNat_ofNat', Nat.mod_eq_of_lt (by omega)]
  refine ⟨.wire (es[i].form.wireId es[i].tuple.id), ?_, ?_⟩
  swap
  · rw [← htuple]
    exact Entry.lends hlen
  simp only [SlottedPage.idAt, hrecord, hends, hnat, passOn_ok (Entry.tupleIdEnding_bytes hlen),
    bind, Except.bind]
  rfl

theorem prefixAt (h : Holds p es m) (hi : i < m.entries.length) :
    index p.prefixes i = .ok (orderPrefix m.entries[i].id) := by
  simp only [index, h.prefixes, List.getElem?_map]
  obtain ⟨e, he, htuple, -⟩ := h.entry hi
  rw [he, ← htuple]
  rfl

theorem prefixOf_lends (hr : Lends r id) : orderPrefixOf r = orderPrefix id := by
  rw [orderPrefixOf_lends hr, orderPrefix_eq]

/-- A slot compares as its tuple's id. -/
theorem compareSlot (h : Holds p es m) (hr : Lends r id) (hi : i < m.entries.length) :
    p.compareSlot r i = .ok (m.entries[i].id.cmp id) := by
  simp only [SlottedPage.compareSlot, h.prefixAt hi, prefixOf_lends hr, bind, Except.bind]
  cases hprefix : prefixOrder (orderPrefix m.entries[i].id) (orderPrefix id) with
  | some ord => exact congrArg Except.ok (prefixOrder_sound hprefix).symm
  | none =>
    obtain ⟨s, hs, hlends⟩ := h.idAt hi
    simp only [hs]
    exact congrArg Except.ok (hr.cmpSlot hlends)

/-! ## The bounds -/

/-- A search for the first slot that is past the probe, if those before it are not. -/
theorem search (h : Holds p es m) (hr : Lends r id) {past : Ordering → Bool} {k : Nat}
    (hk : k ≤ m.entries.length)
    (hbefore : ∀ i, (hi : i < m.entries.length) → i < k → past (m.entries[i].id.cmp id) = false)
    (hfrom : ∀ i, (hi : i < m.entries.length) → k ≤ i → past (m.entries[i].id.cmp id) = true) :
    p.search r past = .ok k := by
  have hturn : ∀ i, (hi : i < m.entries.length) → p.searchTurn r past i =
      .ok (if past (m.entries[i].id.cmp id) then .left else .right) := by
    intro i hi
    rw [SlottedPage.searchTurn, h.compareSlot hr hi]
    rfl
  have hgap : bisect (p.searchTurn r past) p.prefixes.length 0 p.prefixes.length =
    .ok (.gap k) := by
    rw [h.prefixes_length]
    apply bisect_gap (by omega) (Nat.zero_le k) hk
    · intro i hi
      rw [hturn i (by omega), hbefore i (by omega) hi]
      rfl
    · intro i hki hi
      rw [hturn i hi, hfrom i hi hki]
      rfl
  rw [SlottedPage.search, hgap]
  rfl

theorem lowerBound (h : Holds p es m) (id : DBIdType) :
    p.lowerBound id = .ok (rank Tuple.id DBIdType.cmp m.entries id) := by
  apply h.search (.owned id) List.findIdx_le_length
  · intro i _ hlt
    rw [(lt_of_lt_rank hlt).2]
    rfl
  · intro i hi hle
    exact m.ascending.isGE_of_rank_le hi hle

theorem upperBound (h : Holds p es m) (id : DBIdType) :
    p.upperBound id = .ok (rankAfter Tuple.id DBIdType.cmp m.entries id) := by
  apply h.search (.owned id) List.findIdx_le_length
  · intro i _ hlt
    obtain ⟨hi, hle⟩ := isLE_of_lt_rankAfter hlt
    cases hcmp : m.entries[i].id.cmp id with
    | lt => rfl
    | eq => rfl
    | gt => simp [hcmp] at hle
  · intro i hi hle
    rw [m.ascending.gt_of_rankAfter_le hi hle]
    rfl

/-- An id is past the last one exactly if its rank is the end. -/
theorem afterLast (h : Holds p es m) (id : DBIdType) :
    p.afterLast id = .ok (decide (rank Tuple.id DBIdType.cmp m.entries id = m.entries.length)) := by
  have hle : rank Tuple.id DBIdType.cmp m.entries id ≤ m.entries.length :=
    List.findIdx_le_length
  unfold SlottedPage.afterLast
  split
  · next hnil =>
      rw [h.prefixes_length] at hnil
      exact congrArg Except.ok (decide_eq_true (by omega)).symm
  · next last hlast =>
      rw [h.prefixes_length] at hlast
      have hlt : last < m.entries.length := by omega
      rw [h.compareSlot (.owned id) hlt]
      refine congrArg Except.ok ?_
      by_cases hend : rank Tuple.id DBIdType.cmp m.entries id = m.entries.length
      · obtain ⟨_, hless⟩ := lt_of_lt_rank
          (show last < rank Tuple.id DBIdType.cmp m.entries id by omega)
        rw [hless, decide_eq_true hend]
        rfl
      · have hge := m.ascending.isGE_of_rank_le hlt
          (show rank Tuple.id DBIdType.cmp m.entries id ≤ last by omega)
        rw [decide_eq_false hend]
        cases hcmp : m.entries[last].id.cmp id with
        | lt => simp [hcmp] at hge
        | eq => rfl
        | gt => rfl

/-! ## Finding an id -/

/-- The turn at a slot that compares so. -/
def turnOf : Ordering → Turn
  | .lt => .right
  | .eq => .found
  | .gt => .left

theorem exactTurn (h : Holds p es m) (hr : Lends r id) (hi : i < m.entries.length) :
    p.exactTurn r i = .ok (turnOf (m.entries[i].id.cmp id)) := by
  simp only [SlottedPage.exactTurn, h.prefixAt hi, prefixOf_lends hr, bind, Except.bind]
  cases hprefix : prefixOrder (orderPrefix m.entries[i].id) (orderPrefix id) with
  | some ord =>
    rw [prefixOrder_sound hprefix]
    cases ord <;> rfl
  | none =>
    obtain ⟨s, hs, hlends⟩ := h.idAt hi
    have hslot := hr.isSlot hlends
    have hcmp := hr.cmpSlot hlends
    simp only [hs, hslot, hcmp]
    cases hord : m.entries[i].id.cmp id with
    | eq =>
      rw [if_pos ((DBIdType.cmp_eq_iff _ _).mp hord)]
      rfl
    | lt =>
      rw [if_neg (by rw [← DBIdType.cmp_eq_iff, hord]; exact nofun)]
      rfl
    | gt =>
      rw [if_neg (by rw [← DBIdType.cmp_eq_iff, hord]; exact nofun)]
      rfl

/-- From where an absent id would be, the walk finds no slot that ties with it. -/
theorem walkTied (h : Holds p es m) (hr : Lends r id) (habsent : m.position id = none)
    (left : Nat) (hleft : i + left ≤ m.entries.length) : p.walkTied r left i = .ok none := by
  cases left with
  | zero => rfl
  | succ left =>
    have hi : i < m.entries.length := by omega
    have hne := SortedMap.position_eq_none_iff.mp habsent _ (List.getElem_mem hi)
    obtain ⟨s, hs, hlends⟩ := h.idAt hi
    have hslot : (Probe.mk r).isSlot s = false := by
      rw [hr.isSlot hlends, Bool.eq_false_iff, ne_eq, ← DBIdType.cmp_eq_iff]
      exact hne
    have hcmp : ((Probe.mk r).cmpSlot s).isNe = true := by
      rw [hr.cmpSlot hlends]
      cases hord : m.entries[i].id.cmp id with
      | lt => rfl
      | eq => exact absurd hord hne
      | gt => rfl
    simp only [SlottedPage.walkTied, h.prefixAt hi, bind, Except.bind, hs, hslot, hcmp]
    cases (prefixOrder (orderPrefix m.entries[i].id) (orderPrefixOf r)).isSome <;> rfl

theorem findExactRef (h : Holds p es m) (hr : Lends r id) :
    p.findExactRef r = .ok (m.position id) := by
  rw [SlottedPage.findExactRef, h.prefixes_length]
  cases hpos : m.position id with
  | some k =>
    obtain ⟨hk, heq⟩ := SortedMap.position_eq_some hpos
    have hfound : bisect (p.exactTurn r) m.entries.length 0 m.entries.length =
        .ok (.found k) := by
      apply bisect_found (by omega) (Nat.zero_le k) hk
      · intro i hi
        rw [h.exactTurn hr (by omega), m.ascending.lt_of_isLE hk hi (by rw [heq]; rfl)]
        rfl
      · rw [h.exactTurn hr hk, heq]
        rfl
      · intro i hki hi
        rw [h.exactTurn hr hi, m.ascending.gt_of_isGE hi hki (by rw [heq]; rfl)]
        rfl
    rw [hfound]
    rfl
  | none =>
    have hne := SortedMap.position_eq_none_iff.mp hpos
    have hle : rank Tuple.id DBIdType.cmp m.entries id ≤ m.entries.length :=
      List.findIdx_le_length
    have hgap : bisect (p.exactTurn r) m.entries.length 0 m.entries.length =
        .ok (.gap (rank Tuple.id DBIdType.cmp m.entries id)) := by
      apply bisect_gap (by omega) (Nat.zero_le _) hle
      · intro i hi
        rw [h.exactTurn hr (by omega), (lt_of_lt_rank hi).2]
        rfl
      · intro i hki hi
        have hge := m.ascending.isGE_of_rank_le hi hki
        rw [h.exactTurn hr hi]
        cases hord : m.entries[i].id.cmp id with
        | lt => simp [hord] at hge
        | eq => exact absurd hord (hne _ (List.getElem_mem hi))
        | gt => rfl
    rw [hgap]
    exact h.walkTied hr hpos _ (by omega)

/-- A hint changes where the search begins, not what it finds. -/
theorem findHintedRef (h : Holds p es m) (hr : Lends r id) (hint : Nat) :
    p.findHintedRef r hint = .ok (m.position id) := by
  have hexact := h.findExactRef hr
  rw [SlottedPage.findHintedRef, h.shows.slotCount, List.length_map, ← h.length]
  show (if hint < m.entries.length then _ else _) = _
  split
  · next hlt =>
      obtain ⟨s, hs, hlends⟩ := h.idAt hlt
      rw [hs]
      show (if s.eq r = true then _ else _) = _
      split
      · next heq =>
          rw [hlends.eq hr] at heq
          rw [SortedMap.position_of_eq hlt ((DBIdType.cmp_eq_iff _ _).mpr heq)]
          rfl
      · exact hexact
  · exact hexact

/-! ## Where a tuple is added -/

theorem findExactFrom_none (h : Holds p es m) (habsent : m.position id = none) (left : Nat)
    (hleft : i + left ≤ m.entries.length) : p.findExactFrom id left i = .ok none := by
  induction left generalizing i with
  | zero => rfl
  | succ left ih =>
    have hi : i < m.entries.length := by omega
    obtain ⟨s, hs, hlends⟩ := h.idAt hi
    have hne := SortedMap.position_eq_none_iff.mp habsent _ (List.getElem_mem hi)
    have heq : s.eqOwned id = false := by
      rw [IdRef.eqOwned, hlends.eq (.owned id), Bool.eq_false_iff, ne_eq,
        ← DBIdType.cmp_eq_iff]
      exact hne
    simp only [SlottedPage.findExactFrom, hs, heq, bind, Except.bind]
    exact ih (by omega)

theorem addPlace_of_absent (h : Holds p es m) (habsent : m.position id = none) :
    p.addPlace id = .ok (rank Tuple.id DBIdType.cmp m.entries id) := by
  have hle : rank Tuple.id DBIdType.cmp m.entries id ≤ m.entries.length :=
    List.findIdx_le_length
  have hle' : rankAfter Tuple.id DBIdType.cmp m.entries id ≤ m.entries.length :=
    List.findIdx_le_length
  simp only [SlottedPage.addPlace, h.afterLast, h.lowerBound, h.upperBound, h.shows.slotCount,
    bind, Except.bind]
  by_cases hend : rank Tuple.id DBIdType.cmp m.entries id = m.entries.length
  · rw [decide_eq_true hend, if_pos rfl, hend, List.length_map, h.length]
  · rw [decide_eq_false hend, if_neg Bool.false_ne_true, SlottedPage.findExactIn]
    rw [h.findExactFrom_none habsent _ (by omega)]
    rfl

theorem addPlace_of_present (h : Holds p es m) {k : Nat} (hpos : m.position id = some k) :
    p.addPlace id = .error (.error (.duplicateKey id)) := by
  obtain ⟨hk, heq⟩ := SortedMap.position_eq_some hpos
  have hrank := SortedMap.rank_of_position hpos
  have hafter := SortedMap.rankAfter_of_position hpos
  obtain ⟨s, hs, hlends⟩ := h.idAt hk
  have hsame : s.eqOwned id = true := by
    rw [IdRef.eqOwned, hlends.eq (.owned id), ← DBIdType.cmp_eq_iff]
    exact heq
  have hnot : ¬ k = m.entries.length := by omega
  simp only [SlottedPage.addPlace, h.afterLast, h.lowerBound, h.upperBound, hrank, hafter,
    bind, Except.bind, decide_eq_false hnot, SlottedPage.findExactIn]
  rw [if_neg Bool.false_ne_true, show k + 1 - k = 1 by omega]
  simp only [SlottedPage.findExactFrom, hs, bind, Except.bind]
  rw [if_pos hsame]
  rfl

end Holds

end SquealDb.Page
