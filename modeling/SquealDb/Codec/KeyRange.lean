import SquealDb.Codec.KeyRoundTrip

/-!
# The keys that begin with a record key's fields

A search by the first fields of a key reads the keys whose bytes begin with those of
the fields.  A string's bytes that look finished may go on with an escaped zero, so
that beginning with them is not enough: `has_prefix` looks at the next byte too, and
`prefix_end` bounds the keys as a range.
-/

namespace SquealDb.Codec

open Lib

namespace KeyCode

def hasPrefix (key pre : List UInt8) : Bool :=
  pre.isPrefixOf key && key[pre.length]? != some escapedByte

/-- `prefix_end`, of what it appends to `out`. -/
def prefixEnd (pre out : List UInt8) : List UInt8 := out ++ pre ++ [escapedByte]

/-- The first fields of a record key are those of `p`. -/
def BeginsWith (p : IndexKey) : DBIdType → Prop
  | .record key => IndexKey.eq p (key.take p.length) = true
  | .int _ => False

instance (p : IndexKey) : (k : DBIdType) → Decidable (BeginsWith p k)
  | .record key => inferInstanceAs (Decidable (IndexKey.eq p (key.take p.length) = true))
  | .int _ => instDecidableFalse

theorem lt_escapedByte (b : UInt8) (h : b ≠ escapedByte) : compare b escapedByte = .lt := by
  have hne : b.toNat ≠ 255 := fun heq => h (UInt8.toNat_inj.mp heq)
  have hlt := b.toNat_lt
  have hesc : escapedByte.toNat = 255 := rfl
  rw [compare_uint8, Nat.compare_eq_lt]
  omega

theorem hasPrefix_iff (key pre : List UInt8) :
    hasPrefix key pre = true ↔ ∃ rest, key = pre ++ rest ∧ FieldTail rest := by
  rw [hasPrefix, Bool.and_eq_true, List.isPrefixOf_iff_prefix, bne_iff_ne]
  have hnext : ∀ rest : List UInt8, (pre ++ rest)[pre.length]? = rest.head? := by
    intro rest
    rw [List.getElem?_append_right (Nat.le_refl _), Nat.sub_self, List.head?_eq_getElem?]
  constructor
  · intro ⟨⟨rest, hkey⟩, hmark⟩
    subst hkey
    rw [hnext] at hmark
    refine ⟨rest, rfl, fun u hu => lt_escapedByte u fun heq => ?_⟩
    exact hmark (by rw [hu, heq])
  · intro ⟨rest, hkey, htail⟩
    subst hkey
    refine ⟨⟨rest, rfl⟩, fun hmark => ?_⟩
    rw [hnext] at hmark
    have hlt := htail escapedByte hmark
    rw [show compare escapedByte escapedByte = .eq from rfl] at hlt
    cases hlt

/-- What has a prefix is a range, of any bytes. -/
theorem hasPrefix_iff_range (key pre : List UInt8) :
    hasPrefix key pre = true ↔
      compare pre key ≠ .gt ∧ compare key (prefixEnd pre []) = .lt := by
  rw [hasPrefix_iff, prefixEnd, List.nil_append]
  exact (between_mark_iff lt_escapedByte pre key).symm

/-- The fields' bytes go on as a tail does exactly in a key that begins with the
fields. -/
theorem beginsWith_iff (p key : IndexKey) :
    BeginsWith p (.record key) ↔
      ∃ rest, key.flatMap fieldBytes = p.flatMap fieldBytes ++ rest ∧ FieldTail rest := by
  have hnil : FieldTail [] := fun u hu => nomatch hu
  show IndexKey.eq p (key.take p.length) = true ↔ _
  rw [← cmpValues_eq_iff, cmpValues_eq]
  constructor
  · intro hcmp
    rw [← compare_fields] at hcmp
    have hsame := Std.LawfulEqOrd.eq_of_compare hcmp
    refine ⟨(key.drop p.length).flatMap fieldBytes, ?_, fieldTail_flatMap _⟩
    rw [hsame, ← List.flatMap_append, List.take_append_drop]
  · intro ⟨rest, hcode, hrest⟩
    exact orderCode_fieldBytes.begins hnil fieldTail_fieldBytes fieldBytes_ne_nil hrest hcode

/-- The keys with the prefix of a record key are those that begin with its fields, and
are the ones from its bytes up to their `prefixEnd`. -/
theorem hasPrefix_encode (p : IndexKey) (k : DBIdType) :
    (hasPrefix (encode k []) (encode (.record p) []) = true ↔ BeginsWith p k) ∧
      (BeginsWith p k ↔ compare (encode (.record p) []) (encode k []) ≠ .gt ∧
        compare (encode k []) (prefixEnd (encode (.record p) []) []) = .lt) := by
  have hfields : hasPrefix (encode k []) (encode (.record p) []) = true ↔ BeginsWith p k := by
    rw [hasPrefix_iff, encode_record, List.nil_append]
    cases k with
    | int n =>
      -- a row id's tag is above the kind of a record key
      have htag : ∀ m ≤ 8, tagRowId + UInt8.ofNat m ≠ tagRec := by decide
      rw [encode_int, List.nil_append, unsignedBytes]
      constructor
      · rintro ⟨rest, hcode, -⟩
        exact absurd (List.cons.inj hcode).1 (htag _ (significant_le n))
      · intro h
        exact h.elim
    | record key =>
      rw [encode_record, List.nil_append, beginsWith_iff]
      constructor
      · rintro ⟨rest, hcode, htail⟩
        exact ⟨rest, (List.cons.inj hcode).2, htail⟩
      · rintro ⟨rest, hcode, htail⟩
        exact ⟨rest, congrArg _ hcode, htail⟩
  exact ⟨hfields, by rw [← hfields, hasPrefix_iff_range]⟩

/-- The bytes of the empty string begin those of a zero byte, which begins with other
fields. -/
example : hasPrefix (encode (.record [.blob [0] 1]) []) (encode (.record [.blob [] 1]) []) =
    false := by
  decide

end KeyCode

end SquealDb.Codec
