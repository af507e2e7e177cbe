import SquealDb.Codec.KeyOrder

/-!
# Keys read back

Both decoders of `keycode.rs` invert the encoder: `read_field`, which undoes the
escapes, on every key, and `stored_field`, which takes a string as it stands, on a
key that holds no 00.  A string or blob comes back with a capacity of its length.
-/

namespace SquealDb.Codec

open Lib

namespace KeyCode

/-! ## Numbers -/

theorem takeUnsigned_beBytes (n v : Nat) (us : List UInt8) :
    takeUnsigned (beBytes n v ++ us) n = .ok (UInt64.ofNat (v % 256 ^ n), us) := by
  have htake : (beBytes n v ++ us).take n = beBytes n v := List.take_left' (length_beBytes n v)
  have hdrop : (beBytes n v ++ us).drop n = us := List.drop_left' (length_beBytes n v)
  rw [takeUnsigned, if_pos (by simp), htake, hdrop, ofBe_beBytes]

/-- One step of the fold of `stored_field`. -/
private theorem shiftLeft_or (a : Nat) (b : UInt8) :
    (UInt64.ofNat a <<< 8) ||| b.toUInt64 = UInt64.ofNat (a * 256 + b.toNat) := by
  have hb := b.toNat_lt
  apply UInt64.toNat_inj.mp
  have hshift : (UInt64.ofNat a <<< 8).toNat = (a % 2 ^ 56) <<< 8 := by
    rw [UInt64.toNat_shiftLeft, UInt64.toNat_ofNat']
    simp only [UInt64.reduceToNat, Nat.shiftLeft_eq, Nat.reduceMod, Nat.reducePow]
    omega
  rw [UInt64.toNat_or, hshift, UInt8.toNat_toUInt64, ← Nat.shiftLeft_add_eq_or_of_lt hb,
    UInt64.toNat_ofNat', Nat.shiftLeft_eq]
  omega

private theorem foldl_shiftLeft_or (a : Nat) (bytes : List UInt8) :
    bytes.foldl (fun (v : UInt64) b => (v <<< 8) ||| b.toUInt64) (UInt64.ofNat a) =
      UInt64.ofNat (bytes.foldl (fun v b => v * 256 + b.toNat) a) := by
  induction bytes generalizing a with
  | nil => rfl
  | cons b bytes ih => rw [List.foldl_cons, List.foldl_cons, shiftLeft_or, ih]

/-- The two decoders read numbers alike. -/
theorem storedUnsigned_eq (rest : List UInt8) (n : Nat) :
    storedUnsigned rest n = (takeUnsigned rest n).toOption := by
  have hfold := foldl_shiftLeft_or 0 (rest.take n)
  unfold storedUnsigned takeUnsigned
  split
  · exact congrArg (fun x => some (x, rest.drop n)) hfold
  · rfl

/-- The number that a tag's bytes held. -/
theorem ofNat_mod_significant (v : UInt64) :
    UInt64.ofNat (v.toNat % 256 ^ significant v) = v := by
  rw [Nat.mod_eq_of_lt (lt_significant v), UInt64.ofNat_toNat]

theorem unorderedBits_orderedBits (bits : UInt64) : unorderedBits (orderedBits bits) = bits := by
  have hlt := bits.toNat_lt
  have hshift := toNat_shiftRight_63 bits
  have hshift' := toNat_shiftRight_63 (orderedBits bits)
  have hone : (1 : UInt64).toNat = 1 := rfl
  have hsize : UInt64.size = 2 ^ 64 := rfl
  apply UInt64.toNat_inj.mp
  by_cases h : bits >>> 63 = 0
  · rw [h, UInt64.toNat_zero] at hshift
    have hord : (orderedBits bits).toNat = bits.toNat + 2 ^ 63 := by
      rw [orderedBits, if_pos h, toNat_xor_signBit]
      omega
    have htop : orderedBits bits >>> 63 = 1 := UInt64.toNat_inj.mp (by omega)
    rw [unorderedBits, if_pos htop, toNat_xor_signBit, hord]
    omega
  · have hne : (bits >>> 63).toNat ≠ 0 := fun h0 => h (UInt64.toNat_inj.mp h0)
    have hord : (orderedBits bits).toNat = 2 ^ 64 - 1 - bits.toNat := by
      rw [orderedBits, if_neg h, UInt64.toNat_not, hsize]
    have htop : ¬ orderedBits bits >>> 63 = 1 := fun h1 => by
      have hnat := congrArg UInt64.toNat h1
      omega
    rw [unorderedBits, if_neg htop, UInt64.toNat_not, hsize, hord]
    omega

/-- The magnitude comes back from its flipped bytes. -/
theorem unflip_flipped {m n : Nat} (hm : m < 256 ^ n) (hn : n ≤ 8) :
    (unflip n (UInt64.ofNat (256 ^ n - 1 - m))).toNat = m := by
  have hpow : (256 : Nat) ^ n = 2 ^ (8 * n) := by rw [Nat.pow_mul]
  have hle : 256 ^ n ≤ 2 ^ 64 := by
    rw [hpow]
    exact Nat.pow_le_pow_right (by decide) (by omega)
  have hmask : (if n = 8 then 0xFFFFFFFFFFFFFFFF else UInt64.ofNat (2 ^ (8 * n) - 1) :
    UInt64).toNat =
      2 ^ (8 * n) - 1 := by
    split
    · next h =>
        subst h
        rfl
    · rw [UInt64.toNat_ofNat', ← hpow]
      exact Nat.mod_eq_of_lt (by omega)
  have hflip : (UInt64.ofNat (256 ^ n - 1 - m)).toNat = 256 ^ n - 1 - m := by
    rw [UInt64.toNat_ofNat']
    exact Nat.mod_eq_of_lt (by omega)
  have hback := flipped_mod (show 256 ^ n - 1 - m < 256 ^ n by omega) hn
  rw [unflip, UInt64.toNat_and, hmask, Nat.and_two_pow_sub_one_eq_mod, UInt64.toNat_not, hflip,
    show UInt64.size = 2 ^ 64 from rfl, ← hpow, hback]
  omega

/-- A negative integer from its magnitude. -/
private theorem neg_toInt64 {i : Int64} {m : UInt64} (hi : i.toInt < 0)
    (hm : m.toNat = i.toInt.natAbs) : -m.toInt64 = i := by
  have hcast : m.toInt64 = Int64.ofInt m.toNat := by
    rw [Int64.ofInt_eq_ofNat, ← UInt64.toInt64_ofNat', UInt64.ofNat_toNat]
  rw [hcast, hm, ← Int64.ofInt_neg, show -(i.toInt.natAbs : Int) = i.toInt by omega,
    Int64.ofInt_toInt]

/-! ## Tags -/

/-- A tag that stands for none of the types of fixed tags. -/
def Counted (tag : UInt8) : Prop :=
  tag ≠ tagNull ∧ tag ≠ tagFalse ∧ tag ≠ tagTrue ∧ tag ≠ tagDouble ∧ tag ≠ tagStr ∧ tag ≠ tagBlob

instance (tag : UInt8) : Decidable (Counted tag) :=
  inferInstanceAs (Decidable (tag ≠ tagNull ∧ tag ≠ tagFalse ∧ tag ≠ tagTrue ∧ tag ≠ tagDouble ∧
    tag ≠ tagStr ∧ tag ≠ tagBlob))

theorem nonneg_tag : ∀ n ≤ 8, Counted (tagIntZero + UInt8.ofNat n) ∧
    (tagIntZero ≤ tagIntZero + UInt8.ofNat n ∧
      tagIntZero + UInt8.ofNat n ≤ tagIntZero + 8) ∧
    (tagIntZero + UInt8.ofNat n - tagIntZero).toNat = n := by
  decide

theorem negative_tag : ∀ n ≤ 8, 0 < n → Counted (tagIntZero - UInt8.ofNat n) ∧
    ¬ (tagIntZero ≤ tagIntZero - UInt8.ofNat n ∧
      tagIntZero - UInt8.ofNat n ≤ tagIntZero + 8) ∧
    (tagIntZero - 8 ≤ tagIntZero - UInt8.ofNat n ∧ tagIntZero - UInt8.ofNat n < tagIntZero) ∧
    (tagIntZero - (tagIntZero - UInt8.ofNat n)).toNat = n := by
  decide

theorem datetime_tag : ∀ n ≤ 8, Counted (tagDatetime + UInt8.ofNat n) ∧
    ¬ (tagIntZero ≤ tagDatetime + UInt8.ofNat n ∧
      tagDatetime + UInt8.ofNat n ≤ tagIntZero + 8) ∧
    ¬ (tagIntZero - 8 ≤ tagDatetime + UInt8.ofNat n ∧
      tagDatetime + UInt8.ofNat n < tagIntZero) ∧
    (tagDatetime ≤ tagDatetime + UInt8.ofNat n ∧
      tagDatetime + UInt8.ofNat n ≤ tagDatetime + 8) ∧
    (tagDatetime + UInt8.ofNat n - tagDatetime).toNat = n := by
  decide

/-! ## One field -/

/-- A field's bytes are its tag and a body that the decoder reads back, before
anything a key goes on with. -/
theorem readField_fieldBytes (v : ValueItem) :
    ∃ tag body, fieldBytes v = tag :: body ∧ ∀ us, FieldTail us →
      readField tag (body ++ us) = .ok (v.tight, us) := by
  cases v with
  | null => exact ⟨_, _, rfl, fun us _ => rfl⟩
  | boolean b =>
    refine ⟨_, _, rfl, fun us _ => ?_⟩
    cases b <;> rfl
  | integer i =>
    rcases Int.lt_or_le i.toInt 0 with hi | hi
    · refine ⟨_, _, fieldBytes_negative hi, fun us _ => ?_⟩
      have hle := significant_le (unsignedAbs i)
      have hm := toNat_unsignedAbs i
      have hpos : 0 < significant (unsignedAbs i) := significant_pos (by omega)
      have hlt := lt_significant (unsignedAbs i)
      rw [hm] at hlt
      have hlow := i.le_toInt
      obtain ⟨⟨h1, h2, h3, h4, h5, h6⟩, h7, h8, h9⟩ := negative_tag _ hle hpos
      have hback := unflip_flipped hlt hle
      have hsmall : ¬ unflip (significant (unsignedAbs i))
          (UInt64.ofNat (256 ^ significant (unsignedAbs i) - 1 - i.toInt.natAbs)) > signBit := by
        rw [gt_iff_lt, UInt64.lt_iff_toNat_lt, hback, toNat_signBit]
        omega
      rw [readField, if_neg h1, if_neg h2, if_neg h3, if_neg h4, if_neg h5, if_neg h6, if_neg h7,
        if_pos h8, h9]
      dsimp only
      rw [takeUnsigned_beBytes, flipped_mod hlt hle]
      show (if unflip _ _ > signBit then _ else _) = _
      rw [if_neg hsmall, neg_toInt64 hi hback]
      rfl
    · refine ⟨_, _, fieldBytes_nonneg hi, fun us _ => ?_⟩
      have hle := significant_le i.toUInt64
      have hu := toNat_toUInt64 hi
      have hhigh := i.toInt_lt
      obtain ⟨⟨h1, h2, h3, h4, h5, h6⟩, h7, h8⟩ := nonneg_tag _ hle
      have htry : tryI64 i.toUInt64 = some i := by
        rw [tryI64, if_pos (by omega)]
        rfl
      rw [readField, if_neg h1, if_neg h2, if_neg h3, if_neg h4, if_neg h5, if_neg h6, if_pos h7,
        h8, drop_toBeBytes _ hle, takeUnsigned_beBytes, ofNat_mod_significant]
      simp only [bind, Except.bind, htry]
      rfl
  | double bits =>
    refine ⟨_, _, rfl, fun us _ => ?_⟩
    show (takeUnsigned (toBeBytes (orderedBits bits) ++ us) 8 >>= fun p =>
      pure (ValueItem.double (unorderedBits p.1), p.2)) = _
    have hlt : (orderedBits bits).toNat < 256 ^ 8 := UInt64.toNat_lt _
    rw [toBeBytes, takeUnsigned_beBytes, Nat.mod_eq_of_lt hlt, UInt64.ofNat_toNat]
    show Except.ok (ValueItem.double (unorderedBits (orderedBits bits)), us) = _
    rw [unorderedBits_orderedBits]
    rfl
  | datetime t =>
    refine ⟨_, _, rfl, fun us _ => ?_⟩
    have hle := significant_le t
    obtain ⟨⟨h1, h2, h3, h4, h5, h6⟩, h7, h8, h9, h10⟩ := datetime_tag _ hle
    rw [readField, if_neg h1, if_neg h2, if_neg h3, if_neg h4, if_neg h5, if_neg h6, if_neg h7,
      if_neg h8, if_pos h9, h10, drop_toBeBytes _ hle, takeUnsigned_beBytes,
      ofNat_mod_significant]
    rfl
  | str s cap =>
    refine ⟨_, _, rfl, fun us hus => ?_⟩
    have htake : takeBytes (escape endByte escapedByte (asBytes s) ++ [endByte] ++ us) =
        .ok (asBytes s, us) := by
      rw [takeBytes, List.append_assoc, List.singleton_append, unescape_escape _ _ hus]
    rw [readField, if_neg (by decide), if_neg (by decide), if_neg (by decide),
      if_neg (by decide), if_pos rfl, htake]
    simp only [bind, Except.bind, fromUtf8_asBytes]
    rfl
  | blob b cap =>
    refine ⟨_, _, rfl, fun us hus => ?_⟩
    have htake : takeBytes (escape endByte escapedByte b ++ [endByte] ++ us) = .ok (b, us) := by
      rw [takeBytes, List.append_assoc, List.singleton_append, unescape_escape _ _ hus]
    show (takeBytes (escape endByte escapedByte b ++ [endByte] ++ us) >>= fun p =>
      pure (ValueItem.blob p.1 (UInt32.ofNat p.1.length), p.2)) = _
    rw [htake]
    rfl

/-- The two decoders differ in strings and blobs only. -/
theorem storedField_eq {tag : UInt8} (hstr : tag ≠ tagStr) (hblob : tag ≠ tagBlob)
    (rest : List UInt8) : storedField tag rest = (readField tag rest).toOption := by
  have hneither : ¬ (tag = tagStr ∨ tag = tagBlob) := by simp [hstr, hblob]
  unfold storedField readField
  simp only [if_neg hneither, if_neg hstr, if_neg hblob, storedUnsigned_eq]
  split
  · rfl
  split
  · rfl
  split
  · rfl
  split
  · cases takeUnsigned rest 8 <;> rfl
  split
  · cases takeUnsigned rest (tag - tagIntZero).toNat with
    | error e => rfl
    | ok p =>
      simp only [bind, Option.bind, Except.bind, Except.toOption]
      cases tryI64 p.1 <;> rfl
  split
  · cases takeUnsigned rest (tagIntZero - tag).toNat with
    | error e => rfl
    | ok p =>
      show (if unflip _ p.1 > signBit then none else _) =
        Except.toOption (if unflip _ p.1 > signBit then _ else _)
      split <;> rfl
  split
  · cases takeUnsigned rest (tag - tagDatetime).toNat <;> rfl
  · rfl

theorem escape_of_not_mem {s : List UInt8} (h : endByte ∉ s) :
    escape endByte escapedByte s = s := by
  induction s with
  | nil => rfl
  | cons b s ih =>
    have hb : b ≠ endByte := fun heq => h (heq ▸ List.mem_cons_self)
    rw [escape, if_neg hb, ih fun hs => h (List.mem_cons_of_mem b hs)]

/-- A string that holds no 00 ends at the first one. -/
theorem findIdx_end {s : List UInt8} (h : endByte ∉ s) (us : List UInt8) :
    (s ++ endByte :: us).findIdx? (· == endByte) = some s.length := by
  induction s with
  | nil => rfl
  | cons b s ih =>
    have hb : (b == endByte) = false := beq_false_of_ne fun heq => h (heq ▸ List.mem_cons_self)
    rw [List.cons_append, List.findIdx?_cons, hb, ih fun hs => h (List.mem_cons_of_mem b hs)]
    rfl

/-- A field that holds no 00 reads back as a page keeps it, whatever follows. -/
theorem storedField_fieldBytes {v : ValueItem} (h : holdsEnd v = false) :
    ∃ tag body, fieldBytes v = tag :: body ∧ ∀ us, FieldTail us →
      storedField tag (body ++ us) = some (v.tight, us) := by
  obtain ⟨tag, body, hfield, hread⟩ := readField_fieldBytes v
  obtain ⟨tag', body', htag, hlow, hhigh⟩ := fieldBytes_tag v
  rw [hfield, List.cons.injEq] at htag
  obtain ⟨rfl, rfl⟩ := htag
  -- but for strings and blobs, as the other decoder
  have hother : v.typeRank ≤ 4 → ∀ us, FieldTail us →
      storedField tag (body ++ us) = some (v.tight, us) := by
    intro hrank us hus
    have hmax : ∀ r ≤ 4, (tagRange r).2 ≤ 0x38 := by decide
    have hle := hmax _ hrank
    have hstr : tag ≠ tagStr := by
      rintro rfl
      have hval : tagStr.toNat = 0x40 := rfl
      omega
    have hblob : tag ≠ tagBlob := by
      rintro rfl
      have hval : tagBlob.toNat = 0x41 := rfl
      omega
    rw [storedField_eq hstr hblob, hread us hus]
    rfl
  cases v with
  | str s cap =>
    have hs : endByte ∉ asBytes s := by simpa [holdsEnd] using h
    refine ⟨_, _, rfl, fun us _ => ?_⟩
    rw [escape_of_not_mem hs, List.append_assoc, List.singleton_append]
    show ((asBytes s ++ endByte :: us).findIdx? (· == endByte)).bind _ = _
    rw [findIdx_end hs]
    show (fromUtf8 ((asBytes s ++ endByte :: us).take (asBytes s).length)).bind (fun t =>
      some (ValueItem.str t (UInt32.ofNat
        ((asBytes s ++ endByte :: us).take (asBytes s).length).length),
        (asBytes s ++ endByte :: us).drop ((asBytes s).length + 1))) = _
    rw [List.take_left, fromUtf8_asBytes, Option.bind_some, List.drop_append]
    simp [ValueItem.tight]
  | blob b cap =>
    have hb : endByte ∉ b := by simpa [holdsEnd] using h
    refine ⟨_, _, rfl, fun us _ => ?_⟩
    rw [escape_of_not_mem hb, List.append_assoc, List.singleton_append]
    show ((b ++ endByte :: us).findIdx? (· == endByte)).bind _ = _
    rw [findIdx_end hb]
    show some (ValueItem.blob ((b ++ endByte :: us).take b.length)
      (UInt32.ofNat ((b ++ endByte :: us).take b.length).length),
      (b ++ endByte :: us).drop (b.length + 1)) = _
    rw [List.take_left, List.drop_append]
    simp [ValueItem.tight]
  | null => exact ⟨tag, body, hfield, hother (by decide)⟩
  | boolean b => exact ⟨tag, body, hfield, hother (by simp [ValueItem.typeRank])⟩
  | integer i => exact ⟨tag, body, hfield, hother (by simp [ValueItem.typeRank])⟩
  | double bits => exact ⟨tag, body, hfield, hother (by simp [ValueItem.typeRank])⟩
  | datetime t => exact ⟨tag, body, hfield, hother (by simp [ValueItem.typeRank])⟩

/-! ## Whole keys -/

theorem fieldTail_flatMap (fields : List ValueItem) : FieldTail (fields.flatMap fieldBytes) := by
  cases fields with
  | nil => exact fun _ hu => nomatch hu
  | cons f fields =>
    rw [List.flatMap_cons]
    exact fieldTail_fieldBytes f _

theorem readFields_flatMap (fields : List ValueItem) {fuel : Nat}
    (hfuel : (fields.flatMap fieldBytes).length ≤ fuel) :
    readFields fuel (fields.flatMap fieldBytes) = .ok (IndexKey.tight fields) := by
  induction fields generalizing fuel with
  | nil => cases fuel <;> rfl
  | cons f fields ih =>
    obtain ⟨tag, body, hfield, hread⟩ := readField_fieldBytes f
    rw [List.flatMap_cons, hfield, List.cons_append] at hfuel ⊢
    cases fuel with
    | zero => simp at hfuel
    | succ fuel =>
      have hrest : readFields fuel (fields.flatMap fieldBytes) = .ok (IndexKey.tight fields) :=
        ih (by simp only [List.length_cons, List.length_append] at hfuel; omega)
      rw [readFields, hread _ (fieldTail_flatMap fields)]
      show (do
        let rest ← readFields fuel (fields.flatMap fieldBytes)
        return f.tight :: rest : Except StoreError (List Field)) = _
      rw [hrest]
      rfl

/-- A key that holds no 00. -/
def Storable (fields : List ValueItem) : Prop := ∀ f ∈ fields, holdsEnd f = false

instance (fields : List ValueItem) : Decidable (Storable fields) :=
  inferInstanceAs (Decidable (∀ f ∈ fields, holdsEnd f = false))

variable {fields : List ValueItem}

theorem stored_flatMap (h : Storable fields) {fuel : Nat}
    (hfuel : (fields.flatMap fieldBytes).length ≤ fuel) :
    storedCheck fuel (fields.flatMap fieldBytes) = .ok () ∧
      storedValues fuel (fields.flatMap fieldBytes) = IndexKey.tight fields := by
  induction fields generalizing fuel with
  | nil => cases fuel <;> exact ⟨rfl, rfl⟩
  | cons f fields ih =>
    obtain ⟨tag, body, hfield, hread⟩ := storedField_fieldBytes (h f List.mem_cons_self)
    rw [List.flatMap_cons, hfield, List.cons_append] at hfuel ⊢
    cases fuel with
    | zero => simp at hfuel
    | succ fuel =>
      obtain ⟨hcheck, hvalues⟩ := ih (fun g hg => h g (List.mem_cons_of_mem f hg))
        (show (fields.flatMap fieldBytes).length ≤ fuel by
          simp only [List.length_cons, List.length_append] at hfuel
          omega)
      rw [storedCheck, storedValues, hread _ (fieldTail_flatMap fields)]
      exact ⟨hcheck, congrArg _ hvalues⟩

/-- What a page keeps of a storable key, checks and reads back. -/
theorem StoredKey.check_stored (h : Storable fields) :
    (StoredKey.mk (fields.flatMap fieldBytes)).check = .ok () :=
  (stored_flatMap h (Nat.le_refl _)).1

theorem StoredKey.values_stored (h : Storable fields) :
    (StoredKey.mk (fields.flatMap fieldBytes)).values = IndexKey.tight fields :=
  (stored_flatMap h (Nat.le_refl _)).2

theorem validate_tight (v : ValueItem) : v.tight.validate = .ok () := by
  cases v <;> simp [ValueItem.tight, ValueItem.validate]

/-- Values read from a key's bytes pass their validation. -/
theorem newFromOwned_tight (fields : List ValueItem) :
    IndexKey.newFromOwned (IndexKey.tight fields) = .ok (IndexKey.tight fields) := by
  have hall : (IndexKey.tight fields).forM ValueItem.validate = .ok () := by
    induction fields with
    | nil => rfl
    | cons f fields ih =>
      rw [IndexKey.tight, List.map_cons, List.forM_eq_forM, List.forM_cons, validate_tight]
      exact ih
  rw [IndexKey.newFromOwned, hall]
  rfl

theorem putStoredAll_eq (h : Storable fields) :
    putStoredAll fields = fields.flatMap fieldBytes := by
  have hall : ∀ out : List UInt8, fields.foldl (fun out f => (putStored f out).1) out =
      fields.foldl putField out := by
    induction fields with
    | nil => exact fun _ => rfl
    | cons f fields ih =>
      intro out
      have hput : (putStored f out).1 = putField out f := by
        rw [putStored, h f List.mem_cons_self]
        rfl
      rw [List.foldl_cons, List.foldl_cons, hput]
      exact ih (fun g hg => h g (List.mem_cons_of_mem f hg)) _
  rw [putStoredAll, hall]
  exact storedInto_eq fields []

end KeyCode

open KeyCode

theorem decode_encode (id : DBIdType) : decode (encode id []) = .ok id.tight := by
  cases id with
  | int n =>
    have hle := significant_le n
    have htag : ∀ k ≤ 8, tagRowId + UInt8.ofNat k ≠ tagRec ∧
        (tagRowId ≤ tagRowId + UInt8.ofNat k ∧ tagRowId + UInt8.ofNat k ≤ tagRowId + 8) ∧
        (tagRowId + UInt8.ofNat k - tagRowId).toNat = k := by decide
    obtain ⟨hrec, hrange, hcount⟩ := htag _ hle
    have htake := takeUnsigned_beBytes (significant n) n.toNat []
    rw [List.append_nil, ofNat_mod_significant] at htake
    rw [encode_int, List.nil_append, unsignedBytes, drop_toBeBytes n hle, decode, KeyCode.read,
      if_neg hrec, if_pos hrange, hcount, htake]
    rfl
  | record key =>
    have hfields := readFields_flatMap key (Nat.le_refl _)
    have hnew := newFromOwned_tight key
    rw [encode_record, List.nil_append, decode]
    show (do
      let values ← readFields (key.flatMap fieldBytes).length (key.flatMap fieldBytes)
      let key ← IndexKey.newFromOwned values
      return DBIdType.record key) = _
    rw [hfields]
    show (do
      let key ← IndexKey.newFromOwned (IndexKey.tight key)
      return DBIdType.record key) = _
    rw [hnew]
    rfl

theorem storedToId_putStoredAll {key : IndexKey} (h : Storable key) :
    storedToId (putStoredAll key) = .ok (.record (IndexKey.tight key)) := by
  have hnew := newFromOwned_tight key
  rw [putStoredAll_eq h, storedToId, StoredKey.check_stored h, StoredKey.values_stored h]
  show (do
    let key ← IndexKey.newFromOwned (IndexKey.tight key)
    return DBIdType.record key) = _
  rw [hnew]
  rfl

theorem DBIdType.tight_eq (id : DBIdType) : id.tight.eq id = true := by
  rw [DBIdType.eq_iff_tight]
  cases id with
  | int n => rfl
  | record key =>
    simp only [DBIdType.tight, IndexKey.tight, List.map_map]
    congr 2
    funext v
    exact ValueItem.tight_tight v

/-- Every id reads back from its bytes, and every storable key from what a page
keeps: equal to what was written, each capacity that of the content's length. -/
theorem key_round_trip :
    (∀ id : DBIdType, decode (encode id []) = .ok id.tight ∧ id.tight.eq id = true) ∧
      ∀ key : IndexKey, Storable key →
        storedToId (putStoredAll key) = .ok (.record (IndexKey.tight key)) ∧
          (DBIdType.record (IndexKey.tight key)).eq (.record key) = true :=
  ⟨fun id => ⟨decode_encode id, id.tight_eq⟩,
    fun key h => ⟨storedToId_putStoredAll h, (DBIdType.record key).tight_eq⟩⟩

/-- The least integer, whose magnitude is no `i64`, and a string shorter than its
capacity. -/
theorem key_round_trip_min :
    storedToId (putStoredAll [.integer Int64.minValue, .str "ab" 9]) =
      .ok (.record [.integer Int64.minValue, .str "ab" 2]) :=
  (key_round_trip.2 [.integer Int64.minValue, .str "ab" 9] (by decide)).1

end SquealDb.Codec
