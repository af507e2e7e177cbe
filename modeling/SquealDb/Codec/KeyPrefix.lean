import SquealDb.Codec.LentId

/-!
# The first 16 bytes of a key

A page searches by the first 16 bytes of every id.  However an id is held, its
prefix is made of the first 16 bytes of its encoding, so that prefixes that differ
order the ids, and equal ones of row ids say that the ids are equal.
-/

namespace SquealDb.Codec

open Lib KeyCode

namespace KeyCode

theorem Prefix.value_eq {p : Prefix} {w : List UInt8} (h : Holds p w) :
    p.value = ofBe (firstBytes 16 w) := by
  have hbytes : p.bytes = w.take 16 := h
  rw [Prefix.value, hbytes, firstBytes_eq]

/-- A full prefix takes no further byte, so that stopping there loses nothing. -/
theorem putPrefixFields_holds {out : Prefix} {w : List UInt8} (h : Holds out w)
    (fields : List ValueItem) :
    Holds (putPrefixFields out fields) (w ++ fields.flatMap fieldBytes) := by
  induction fields generalizing out w with
  | nil =>
    rw [List.flatMap_nil, List.append_nil]
    exact h
  | cons f fields ih =>
    rw [putPrefixFields]
    split
    · next hfull =>
        have hbytes : out.bytes = w.take 16 := h
        have hlong : 16 ≤ w.length := by
          rw [hbytes, List.length_take] at hfull
          omega
        show out.bytes = (w ++ (f :: fields).flatMap fieldBytes).take 16
        rw [hbytes, List.take_append_of_le_length hlong]
    · have hrest := ih (putField_holds h f)
      rw [List.append_assoc] at hrest
      exact hrest

end KeyCode

theorem encode_congr {a b : DBIdType} (h : a.eq b = true) : encode a [] = encode b [] := by
  rw [← Std.compare_eq_iff_eq (α := List UInt8), DBIdType.compare_encode, DBIdType.cmp_eq_iff]
  exact h

/-- However an id is held, its prefix is the first 16 bytes of its encoding. -/
theorem orderPrefixOf_lends {r : IdRef} {id : DBIdType} (h : Lends r id) :
    orderPrefixOf r = ofBe (firstBytes 16 (encode id [])) := by
  have hrec : Holds (push Prefix.new tagRec) [tagRec] :=
    push_holds tagRec (show Holds Prefix.new [] from rfl)
  unfold orderPrefixOf
  split
  · next stored hstored =>
      obtain ⟨k, rfl, rfl⟩ := h.storedBytes hstored
      rw [storedPrefix, Prefix.value_eq (extend_holds (k.flatMap fieldBytes) hrec), encode_record]
      rfl
  · cases id with
    | int n =>
      obtain ⟨hvalues, hint⟩ := h.int
      have hput := putUnsigned_holds (show Holds Prefix.new [] from rfl) tagRowId n
      rw [hvalues, hint]
      show rowIdPrefix n = _
      rw [rowIdPrefix, Prefix.value_eq hput, encode_int]
    | record k =>
      obtain ⟨vs, hvalues, htight⟩ := h.record
      have hsame : encode (.record vs) [] = encode (.record k) [] :=
        encode_congr ((DBIdType.eq_iff_tight _ _).mpr (congrArg DBIdType.record htight))
      rw [hvalues, ← hsame, encode_record]
      show fieldsPrefix vs = _
      rw [fieldsPrefix, Prefix.value_eq (putPrefixFields_holds hrec vs)]
      rfl

theorem orderPrefix_eq (id : DBIdType) :
    orderPrefix id = ofBe (firstBytes 16 (encode id [])) :=
  orderPrefixOf_lends (.owned id)

/-- The highest byte of a prefix. -/
theorem ofBe_firstBytes_div (b : UInt8) (bytes : List UInt8) :
    ofBe (firstBytes 16 (b :: bytes)) / 2 ^ 120 = b.toNat := by
  have hlt := ofBe_lt (firstBytes 15 bytes)
  rw [firstBytes, ofBe_cons, length_firstBytes] at *
  rw [show (2 : Nat) ^ 120 = 256 ^ 15 by decide,
    Nat.add_mul_div_left _ _ (Nat.pow_pos (by decide)), Nat.div_eq_of_lt hlt, Nat.zero_add]

/-- A row id's encoding is all in its prefix. -/
theorem firstBytes_int_inj {m n : UInt64}
    (h : firstBytes 16 (encode (.int m) []) = firstBytes 16 (encode (.int n) [])) : m = n := by
  have hm := significant_le m
  have hn := significant_le n
  have hbase : tagRowId.toNat = 0xE0 := rfl
  rw [encode_int, encode_int, List.nil_append, List.nil_append] at h
  have htag : tagRowId + UInt8.ofNat (significant m) = tagRowId + UInt8.ofNat (significant n) := by
    exact (List.cons.inj h).1
  have hsig : significant m = significant n := by
    have hnat := congrArg UInt8.toNat htag
    rw [toNat_tag_add (by omega), toNat_tag_add (by omega)] at hnat
    omega
  have hlen : (unsignedBytes tagRowId m).length = (unsignedBytes tagRowId n).length := by
    simp only [unsignedBytes, hsig, drop_toBeBytes _ hn, List.length_cons, length_beBytes]
  have hshort : ∀ v : UInt64, (unsignedBytes tagRowId v).length ≤ 16 := fun v => by
    have hv := significant_le v
    simp only [unsignedBytes, drop_toBeBytes _ hv, List.length_cons, length_beBytes]
    omega
  rw [firstBytes_eq, firstBytes_eq, List.take_of_length_le (hshort m),
    List.take_of_length_le (hshort n)] at h
  have hbytes := List.append_inj_left h hlen
  have hcmp := compare_unsignedBytes (show tagRowId.toNat + 8 < 256 by decide) m n [] []
  have hrefl : compare (unsignedBytes tagRowId n) (unsignedBytes tagRowId n) = .eq :=
    Std.ReflCmp.compare_self
  rw [List.append_nil, List.append_nil, hbytes, hrefl] at hcmp
  cases hmn : compare m n with
  | lt => rw [hmn] at hcmp; cases hcmp
  | gt => rw [hmn] at hcmp; cases hcmp
  | eq => exact Std.compare_eq_iff_eq.mp hmn

/-- What the prefixes of two ids decide is how the ids compare. -/
theorem prefixOrder_sound {a b : DBIdType} {o : Ordering}
    (h : prefixOrder (orderPrefix a) (orderPrefix b) = some o) : a.cmp b = o := by
  rw [orderPrefix_eq, orderPrefix_eq] at h
  unfold prefixOrder at h
  split at h
  · next hne =>
      cases h
      have hcmp : compare (ofBe (firstBytes 16 (encode a [])))
        (ofBe (firstBytes 16 (encode b []))) =
          compare (firstBytes 16 (encode a [])) (firstBytes 16 (encode b [])) :=
        compare_ofBe (by rw [length_firstBytes, length_firstBytes])
      rw [hcmp, compare_firstBytes, DBIdType.compare_encode]
      intro heq
      exact hne (congrArg ofBe (Std.compare_eq_iff_eq.mp heq))
  · next heq =>
      have hval := Classical.not_not.mp heq
      split at h
      · next htop =>
          cases h
          have hfirst : firstBytes 16 (encode a []) = firstBytes 16 (encode b []) := by
            rw [← Std.compare_eq_iff_eq (α := List UInt8),
              ← compare_ofBe (by rw [length_firstBytes, length_firstBytes]), hval]
            exact Std.ReflCmp.compare_self
          -- a record key's kind is below a row id's tag
          have hint : ∀ id : DBIdType,
              ofBe (firstBytes 16 (encode id [])) / 2 ^ 120 ≥ tagRowId.toNat → ∃ n, id =
                .int n := by
            intro id hge
            cases id with
            | int n => exact ⟨n, rfl⟩
            | record k =>
              rw [encode_record, List.nil_append, ofBe_firstBytes_div] at hge
              exact absurd hge (by decide)
          obtain ⟨m, rfl⟩ := hint a htop
          obtain ⟨n, rfl⟩ := hint b (hval ▸ htop)
          rw [firstBytes_int_inj hfirst, DBIdType.cmp_eq_iff, DBIdType.eq_iff_tight]
      · cases h

/-- An id's own prefix leaves it open or says equal. -/
theorem orderPrefix_congr {a b : DBIdType} (h : a.eq b = true) : orderPrefix a = orderPrefix b := by
  rw [orderPrefix_eq, orderPrefix_eq, encode_congr h]

/-- The forms of one id have one prefix, and where two prefixes decide, they decide
as the ids compare. -/
theorem search_prefixes_agree {r s : IdRef} {a b : DBIdType} (hr : Lends r a) (hs : Lends s b) :
    (a.eq b = true → orderPrefixOf r = orderPrefixOf s) ∧
      ∀ o, prefixOrder (orderPrefixOf r) (orderPrefixOf s) = some o → a.cmp b = o := by
  have hra : orderPrefixOf r = orderPrefix a := by
    rw [orderPrefixOf_lends hr, orderPrefix_eq]
  have hsb : orderPrefixOf s = orderPrefix b := by
    rw [orderPrefixOf_lends hs, orderPrefix_eq]
  rw [hra, hsb]
  exact ⟨orderPrefix_congr, fun o => prefixOrder_sound⟩

/-- A key kept as bytes against the key it begins, kept as values. -/
theorem search_prefixes_agree_mixed :
    DBIdType.cmp (.record [.blob [1] 1]) (.record [.blob [2, 0] 9]) = .lt :=
  (search_prefixes_agree
    (.wire .stored (.record [.blob [1] 1]) (show Storable [.blob [1] 1] by decide) (by decide))
    (.wire .values (.record [.blob [2, 0] 9]) trivial (by decide))).2 .lt (by decide +kernel)

end SquealDb.Codec
