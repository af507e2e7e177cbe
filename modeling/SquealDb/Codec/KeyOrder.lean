import SquealDb.Codec.IdRef

/-!
# Key order

The bytes of two keys compare as the keys do.  A field's bytes order as the field
before anything a key goes on with: every tag is below the mark of an escaped 00.
The tags of different types rise as the type ranks; within a type, an integer's
tag says how many bytes it has, so that bytes of one length are compared.
-/

namespace SquealDb.Codec

open Lib

namespace KeyCode

/-! ## What is written, wherever it goes -/

/-- A sink that keeps account of what it was given. -/
class LawfulSink (σ : Type) [Sink σ] where
  Holds : σ → List UInt8 → Prop
  push_holds {out : σ} {w : List UInt8} (b : UInt8) : Holds out w → Holds (push out b) (w ++ [b])
  extend_holds {out : σ} {w : List UInt8} (bs : List UInt8) :
    Holds out w → Holds (extend out bs) (w ++ bs)

export LawfulSink (Holds push_holds extend_holds)

instance : LawfulSink (List UInt8) where
  Holds out w := out = w
  push_holds b h := by
    subst h
    rfl
  extend_holds bs h := by
    subst h
    rfl

/-- A key buffer's bytes are all it was given. -/
theorem KeyBuf.bytes_extend (k : KeyBuf) (bs : List UInt8) :
    (k.extend bs).bytes = k.bytes ++ bs := by
  unfold KeyBuf.extend
  split
  · next h => simp [KeyBuf.bytes, h.1]
  · next h =>
      split
      · next hempty =>
          -- it spills: something is on the heap from now on
          have hlong : 120 < k.stack.length + bs.length := by
            rw [hempty] at h
            simp only [true_and, Nat.not_le] at h
            exact h
          have hne : (k.stack ++ bs).isEmpty = false := by
            rw [List.isEmpty_eq_false_iff, ← List.length_pos_iff, List.length_append]
            omega
          simp [KeyBuf.bytes, hempty, hne]
      · next hempty =>
          have hne : (k.heap ++ bs).isEmpty = false := by
            rw [Bool.not_eq_true, List.isEmpty_eq_false_iff] at hempty
            rw [List.isEmpty_eq_false_iff]
            exact List.append_ne_nil_of_left_ne_nil hempty bs
          simp only [KeyBuf.bytes, hempty, hne]
          rfl

instance : LawfulSink KeyBuf where
  Holds out w := out.bytes = w
  push_holds b h := by
    rw [← h]
    exact KeyBuf.bytes_extend _ _
  extend_holds bs h := by
    rw [← h]
    exact KeyBuf.bytes_extend _ _

/-- A prefix holds the first 16 bytes it was given. -/
theorem Prefix.bytes_extend {p : Prefix} {w : List UInt8} (h : p.bytes = w.take 16)
    (bs : List UInt8) : (p.extend bs).bytes = (w ++ bs).take 16 := by
  show p.bytes ++ bs.take (16 - p.bytes.length) = _
  rw [h, List.take_append, List.length_take]
  congr 2
  omega

instance : LawfulSink Prefix where
  Holds out w := out.bytes = w.take 16
  push_holds b h := Prefix.bytes_extend h [b]
  extend_holds bs h := Prefix.bytes_extend h bs

/-- A number's significant bytes behind its tag. -/
def unsignedBytes (base : UInt8) (v : UInt64) : List UInt8 :=
  (base + UInt8.ofNat (significant v)) :: (toBeBytes v).drop (8 - significant v)

/-- A field's bytes. -/
def fieldBytes : ValueItem → List UInt8
  | .null => [tagNull]
  | .boolean b => [if b then tagTrue else tagFalse]
  | .integer i =>
    if i ≥ 0 then unsignedBytes tagIntZero i.toUInt64
    else (tagIntZero - UInt8.ofNat (significant (unsignedAbs i))) ::
      (toBeBytes (~~~unsignedAbs i)).drop (8 - significant (unsignedAbs i))
  | .double bits => tagDouble :: toBeBytes (orderedBits bits)
  | .datetime t => unsignedBytes tagDatetime t
  | .str s _ => tagStr :: (escape endByte escapedByte (asBytes s) ++ [endByte])
  | .blob b _ => tagBlob :: (escape endByte escapedByte b ++ [endByte])

section Holds

variable {σ : Type} [Sink σ] [LawfulSink σ] {out : σ} {w : List UInt8}

theorem putUnsigned_holds (h : Holds out w) (base : UInt8) (v : UInt64) :
    Holds (putUnsigned out base v) (w ++ unsignedBytes base v) := by
  have hput := extend_holds ((toBeBytes v).drop (8 - significant v))
    (push_holds (base + UInt8.ofNat (significant v)) h)
  rwa [List.append_assoc] at hput

theorem putInteger_holds (h : Holds out w) (i : Int64) :
    Holds (putInteger out i) (w ++ fieldBytes (.integer i)) := by
  simp only [putInteger, fieldBytes]
  split
  · exact putUnsigned_holds h tagIntZero i.toUInt64
  · have hput := extend_holds
      ((toBeBytes (~~~unsignedAbs i)).drop (8 - significant (unsignedAbs i)))
      (push_holds (tagIntZero - UInt8.ofNat (significant (unsignedAbs i))) h)
    rwa [List.append_assoc] at hput

theorem putEscaped_holds (h : Holds out w) (bytes : List UInt8) :
    Holds (putEscaped out bytes) (w ++ escape endByte escapedByte bytes) := by
  induction bytes generalizing out w with
  | nil =>
    rw [escape, List.append_nil]
    exact h
  | cons b rest ih =>
    rw [putEscaped, escape]
    split
    · next hb =>
        subst hb
        have hput := ih (push_holds escapedByte (push_holds endByte h))
        simpa using hput
    · have hput := ih (push_holds b h)
      simpa using hput

theorem putBytes_holds (h : Holds out w) (tag : UInt8) (bytes : List UInt8) :
    Holds (putBytes out tag bytes)
      (w ++ tag :: (escape endByte escapedByte bytes ++ [endByte])) := by
  have hput := push_holds endByte (putEscaped_holds (push_holds tag h) bytes)
  rw [putBytes]
  simpa using hput

/-- Every sink is given a field's bytes. -/
theorem putField_holds (h : Holds out w) (v : ValueItem) :
    Holds (putField out v) (w ++ fieldBytes v) := by
  cases v with
  | null => exact push_holds tagNull h
  | boolean b => exact push_holds _ h
  | integer i => exact putInteger_holds h i
  | double bits =>
    have hput := extend_holds (toBeBytes (orderedBits bits)) (push_holds tagDouble h)
    rwa [List.append_assoc] at hput
  | datetime t => exact putUnsigned_holds h tagDatetime t
  | str s cap => exact putBytes_holds h tagStr (asBytes s)
  | blob b cap => exact putBytes_holds h tagBlob b

theorem foldl_putField_holds (h : Holds out w) (fields : List ValueItem) :
    Holds (fields.foldl putField out) (w ++ fields.flatMap fieldBytes) := by
  induction fields generalizing out w with
  | nil =>
    rw [List.flatMap_nil, List.append_nil]
    exact h
  | cons f fields ih =>
    have hput := ih (putField_holds h f)
    rwa [List.append_assoc, ← List.flatMap_cons] at hput

end Holds

theorem encodeRecord_eq (fields : List ValueItem) (out : List UInt8) :
    encodeRecord fields out = out ++ tagRec :: fields.flatMap fieldBytes := by
  have hput : Holds (push out tagRec) (out ++ [tagRec]) := push_holds tagRec rfl
  have hall : encodeRecord fields out = out ++ [tagRec] ++ fields.flatMap fieldBytes :=
    foldl_putField_holds hput fields
  rw [hall, List.append_assoc, List.singleton_append]

theorem stored_bytes (fields : List ValueItem) :
    (stored fields).bytes = fields.flatMap fieldBytes :=
  foldl_putField_holds (show Holds KeyBuf.new [] from rfl) fields

theorem storedInto_eq (fields : List ValueItem) (out : List UInt8) :
    storedInto fields out = out ++ fields.flatMap fieldBytes :=
  foldl_putField_holds (show Holds out out from rfl) fields

/-! ## The order of one field -/

theorem significant_le (v : UInt64) : significant v ≤ 8 := Nat.sub_le _ _

variable {v : UInt64} {n : Nat} {i : Int64}

/-- How many bytes a number takes, by its highest bit. -/
theorem significant_eq (hv : v ≠ 0) : significant v = v.toNat.log2 / 8 + 1 := by
  have hne : v.toNat ≠ 0 := fun h => hv (UInt64.toNat_inj.mp h)
  have hlog : v.toNat.log2 < 64 := (Nat.log2_lt hne).mpr v.toNat_lt
  rw [significant, leadingZeros, if_neg hv]
  omega

theorem lt_significant (v : UInt64) : v.toNat < 256 ^ significant v := by
  by_cases hv : v = 0
  · subst hv
    decide
  · have hpow : (256 : Nat) ^ (v.toNat.log2 / 8 + 1) = 2 ^ (8 * (v.toNat.log2 / 8 + 1)) := by
      rw [Nat.pow_mul]
    rw [significant_eq hv, hpow]
    exact Nat.lt_of_lt_of_le Nat.lt_log2_self (Nat.pow_le_pow_right (by decide) (by omega))

theorem significant_low (h : n < significant v) : 256 ^ n ≤ v.toNat := by
  by_cases hv : v = 0
  · subst hv
    have hzero : significant 0 = 0 := by decide
    omega
  · have hne : v.toNat ≠ 0 := fun h0 => hv (UInt64.toNat_inj.mp h0)
    rw [significant_eq hv] at h
    rw [show (256 : Nat) ^ n = 2 ^ (8 * n) by rw [Nat.pow_mul]]
    exact Nat.le_trans (Nat.pow_le_pow_right (by decide) (by omega)) (Nat.log2_self_le hne)

/-- A number of fewer bytes is below one of more. -/
theorem lt_of_significant_lt {w : UInt64} (h : significant v < significant w) :
    v.toNat < w.toNat :=
  Nat.lt_of_lt_of_le (lt_significant v) (significant_low h)

theorem significant_pos (h : v.toNat ≠ 0) : 0 < significant v := by
  by_contra hzero
  have hlt := lt_significant v
  rw [Nat.eq_zero_of_not_pos hzero] at hlt
  omega

theorem drop_toBeBytes (v : UInt64) (h : n ≤ 8) :
    (toBeBytes v).drop (8 - n) = beBytes n v.toNat :=
  drop_beBytes h v.toNat

/-- A base tag with a byte count added. -/
theorem toNat_tag_add {base : UInt8} (h : base.toNat + n < 256) :
    (base + UInt8.ofNat n).toNat = base.toNat + n := by
  rw [UInt8.toNat_add, UInt8.toNat_ofNat', Nat.add_mod_mod, Nat.mod_eq_of_lt h]

/-- Numbers behind a tag that counts their bytes. -/
theorem compare_unsignedBytes {base : UInt8} (hbase : base.toNat + 8 < 256) (v w : UInt64)
    (us vs : List UInt8) :
    compare (unsignedBytes base v ++ us) (unsignedBytes base w ++ vs) =
      (compare v w).then (compare us vs) := by
  have hv := significant_le v
  have hw := significant_le w
  have htag : compare (base + UInt8.ofNat (significant v)) (base + UInt8.ofNat (significant w)) =
      compare (significant v) (significant w) := by
    rw [compare_uint8, toNat_tag_add (by omega), toNat_tag_add (by omega)]
    exact compare_eq_of_lt_iff (by omega) (by omega)
  rw [unsignedBytes, unsignedBytes, drop_toBeBytes v hv, drop_toBeBytes w hw, List.cons_append,
    List.cons_append, List.compare_cons_cons, htag, compare_uint64]
  rcases Nat.lt_trichotomy (significant v) (significant w) with h | h | h
  · rw [Nat.compare_eq_lt.mpr h, Nat.compare_eq_lt.mpr (lt_of_significant_lt h)]
    rfl
  · have hlt := lt_significant v
    rw [h] at hlt ⊢
    rw [Nat.compare_eq_eq.mpr rfl, compare_append (by simp),
      compare_beBytes hlt (lt_significant w)]
    rfl
  · rw [Nat.compare_eq_gt.mpr h, Nat.compare_eq_gt.mpr (lt_of_significant_lt h)]
    rfl

private theorem nonneg_iff (i : Int64) : i ≥ 0 ↔ 0 ≤ i.toInt := Int64.le_iff_toInt_le

theorem toNat_toUInt64 (h : 0 ≤ i.toInt) : (i.toUInt64.toNat : Int) = i.toInt := by
  have hlt := i.toUInt64.toNat_lt
  have hcond : i.toInt = if 2 * i.toUInt64.toNat < 2 ^ 64 then (i.toUInt64.toNat : Int)
      else (i.toUInt64.toNat : Int) - (2 ^ 64 : Nat) :=
    BitVec.toInt_eq_toNat_cond i.toUInt64.toBitVec
  split at hcond
  · omega
  · omega

theorem toNat_unsignedAbs (i : Int64) : (unsignedAbs i).toNat = i.toInt.natAbs := by
  have hlow := i.le_toInt
  have hhigh := i.toInt_lt
  rw [unsignedAbs, UInt64.toNat_ofNat']
  exact Nat.mod_eq_of_lt (by omega)

/-- The bytes a negative integer's magnitude is flipped to. -/
theorem flipped_mod {m : Nat} (hm : m < 256 ^ n) (hn : n ≤ 8) :
    (2 ^ 64 - 1 - m) % 256 ^ n = 256 ^ n - 1 - m := by
  have hpow : 256 ^ n * 256 ^ (8 - n) = 2 ^ 64 := by
    rw [← Nat.pow_add, show n + (8 - n) = 8 by omega]
    rfl
  have hpos : 0 < 256 ^ (8 - n) := Nat.pow_pos (by decide)
  have hle : 256 ^ n ≤ 2 ^ 64 := by
    rw [← hpow]
    exact Nat.le_mul_of_pos_right _ hpos
  have hsplit : 2 ^ 64 - 1 - m = (256 ^ n - 1 - m) + 256 ^ n * (256 ^ (8 - n) - 1) := by
    rw [Nat.mul_sub, Nat.mul_one, hpow]
    omega
  rw [hsplit, Nat.add_mul_mod_self_left]
  exact Nat.mod_eq_of_lt (by omega)

/-- A negative integer's tag. -/
theorem toNat_tag_sub (h : n ≤ 8) : (tagIntZero - UInt8.ofNat n).toNat = 0x18 - n := by
  have hn : (UInt8.ofNat n).toNat = n := by
    rw [UInt8.toNat_ofNat']
    omega
  have hzero : tagIntZero.toNat = 0x18 := rfl
  rw [UInt8.toNat_sub, hn, hzero]
  omega

theorem fieldBytes_nonneg (h : 0 ≤ i.toInt) :
    fieldBytes (.integer i) = unsignedBytes tagIntZero i.toUInt64 := by
  simp only [fieldBytes, if_pos ((nonneg_iff i).mpr h)]

/-- A negative integer's bytes: the tag falls with the magnitude's length, and the
magnitude is flipped. -/
theorem fieldBytes_negative (h : i.toInt < 0) :
    fieldBytes (.integer i) = (tagIntZero - UInt8.ofNat (significant (unsignedAbs i))) ::
      beBytes (significant (unsignedAbs i)) (2 ^ 64 - 1 - i.toInt.natAbs) := by
  have hneg : ¬ i ≥ 0 := fun hge => by
    have hle := (nonneg_iff i).mp hge
    omega
  simp only [fieldBytes, if_neg hneg, drop_toBeBytes _ (significant_le _), UInt64.toNat_not,
    toNat_unsignedAbs]
  rfl

theorem compare_negative {j : Int64} (hi : i.toInt < 0) (hj : j.toInt < 0) (us vs : List UInt8) :
    compare (fieldBytes (.integer i) ++ us) (fieldBytes (.integer j) ++ vs) =
      (compare i j).then (compare us vs) := by
  have hmi := toNat_unsignedAbs i
  have hmj := toNat_unsignedAbs j
  have hsi := significant_le (unsignedAbs i)
  have hsj := significant_le (unsignedAbs j)
  rw [fieldBytes_negative hi, fieldBytes_negative hj, List.cons_append, List.cons_append,
    List.compare_cons_cons, compare_int64, compare_uint8, toNat_tag_sub hsi, toNat_tag_sub hsj]
  rcases Nat.lt_trichotomy (significant (unsignedAbs i)) (significant (unsignedAbs j))
    with h | h | h
  · have hlt := lt_of_significant_lt h
    rw [Nat.compare_eq_gt.mpr (by omega), Std.compare_eq_gt.mpr (show j.toInt < i.toInt by omega)]
    rfl
  · have hlt := lt_significant (unsignedAbs i)
    have hlt' := lt_significant (unsignedAbs j)
    rw [h, hmi] at hlt
    rw [hmj] at hlt'
    have hbody : compare (256 ^ significant (unsignedAbs j) - 1 - i.toInt.natAbs)
        (256 ^ significant (unsignedAbs j) - 1 - j.toInt.natAbs) = compare i.toInt j.toInt :=
      compare_eq_of_lt_iff (by omega) (by omega)
    rw [h, Nat.compare_eq_eq.mpr rfl, compare_append (by simp), compare_beBytes_mod,
      flipped_mod hlt hsj, flipped_mod hlt' hsj, hbody]
    rfl
  · have hlt := lt_of_significant_lt h
    rw [Nat.compare_eq_lt.mpr (by omega), Std.compare_eq_lt.mpr (show i.toInt < j.toInt by omega)]
    rfl

/-- A negative integer's tag is below that of one that is not. -/
theorem compare_signs {j : Int64} (hi : i.toInt < 0) (hj : 0 ≤ j.toInt) (us vs : List UInt8) :
    compare (fieldBytes (.integer i) ++ us) (fieldBytes (.integer j) ++ vs) = .lt ∧
      compare (fieldBytes (.integer j) ++ vs) (fieldBytes (.integer i) ++ us) = .gt := by
  have hpos : 0 < significant (unsignedAbs i) :=
    significant_pos (by rw [toNat_unsignedAbs]; omega)
  have hsj := significant_le j.toUInt64
  have hzero : tagIntZero.toNat = 0x18 := rfl
  have hlt : (tagIntZero - UInt8.ofNat (significant (unsignedAbs i))).toNat <
      (tagIntZero + UInt8.ofNat (significant j.toUInt64)).toNat := by
    rw [toNat_tag_sub (significant_le _), toNat_tag_add (by omega)]
    omega
  rw [fieldBytes_negative hi, fieldBytes_nonneg hj, unsignedBytes, List.cons_append,
    List.cons_append, List.compare_cons_cons, List.compare_cons_cons, compare_uint8,
    compare_uint8, Nat.compare_eq_lt.mpr hlt, Nat.compare_eq_gt.mpr hlt]
  exact ⟨rfl, rfl⟩

theorem compare_integer (i j : Int64) (us vs : List UInt8) :
    compare (fieldBytes (.integer i) ++ us) (fieldBytes (.integer j) ++ vs) =
      (compare i j).then (compare us vs) := by
  rcases Int.lt_or_le i.toInt 0 with hi | hi
  · rcases Int.lt_or_le j.toInt 0 with hj | hj
    · exact compare_negative hi hj us vs
    · rw [(compare_signs hi hj us vs).1, compare_int64,
        Std.compare_eq_lt.mpr (show i.toInt < j.toInt by omega)]
      rfl
  · rcases Int.lt_or_le j.toInt 0 with hj | hj
    · rw [(compare_signs hj hi vs us).2, compare_int64,
        Std.compare_eq_gt.mpr (show j.toInt < i.toInt by omega)]
      rfl
    · have hui := toNat_toUInt64 hi
      have huj := toNat_toUInt64 hj
      rw [fieldBytes_nonneg hi, fieldBytes_nonneg hj, compare_unsignedBytes (by decide),
        compare_uint64, compare_int64]
      congr 1
      exact compare_eq_of_lt_iff (by omega) (by omega)

theorem toNat_signBit : signBit.toNat = 2 ^ 63 := by decide

theorem toNat_shiftRight_63 (b : UInt64) : (b >>> 63).toNat = b.toNat / 2 ^ 63 := by
  rw [UInt64.toNat_shiftRight]
  simp [Nat.shiftRight_eq_div_pow]

theorem toNat_xor_signBit (b : UInt64) : (b ^^^ signBit).toNat = (b.toNat + 2 ^ 63) % 2 ^ 64 := by
  have hlt := b.toNat_lt
  have hdiv : (b ^^^ signBit).toNat / 2 ^ 63 = b.toNat / 2 ^ 63 ^^^ 1 := by
    rw [UInt64.toNat_xor, toNat_signBit, Nat.xor_div_two_pow]
    rfl
  have hmod : (b ^^^ signBit).toNat % 2 ^ 63 = b.toNat % 2 ^ 63 := by
    rw [UInt64.toNat_xor, toNat_signBit, Nat.xor_mod_two_pow, Nat.mod_self, Nat.xor_zero]
  have hbit : b.toNat / 2 ^ 63 = 0 ∨ b.toNat / 2 ^ 63 = 1 := by omega
  rcases hbit with h | h
  · rw [h] at hdiv
    have hone : (0 ^^^ 1 : Nat) = 1 := rfl
    omega
  · rw [h] at hdiv
    have hzero : (1 ^^^ 1 : Nat) = 0 := rfl
    omega

/-- Ordered bits are what `total_cmp` compares, moved to start at zero. -/
theorem toNat_orderedBits (bits : UInt64) :
    ((orderedBits bits).toNat : Int) = totalKey bits + 2 ^ 63 := by
  have hlt := bits.toNat_lt
  have hshift := toNat_shiftRight_63 bits
  unfold orderedBits totalKey
  split
  · next h =>
      rw [h, UInt64.toNat_zero] at hshift
      rw [if_pos (by omega), toNat_xor_signBit]
      omega
  · next h =>
      have hne : (bits >>> 63).toNat ≠ 0 := fun h0 => h (UInt64.toNat_inj.mp h0)
      rw [if_neg (by omega), UInt64.toNat_not, show UInt64.size = 2 ^ 64 from rfl]
      omega

theorem compare_double (a b : UInt64) (us vs : List UInt8) :
    compare (fieldBytes (.double a) ++ us) (fieldBytes (.double b) ++ vs) =
      (totalCmp a b).then (compare us vs) := by
  have ha := toNat_orderedBits a
  have hb := toNat_orderedBits b
  have htag : compare tagDouble tagDouble = .eq := rfl
  have hkey : compare (orderedBits a).toNat (orderedBits b).toNat = totalCmp a b :=
    compare_eq_of_lt_iff (by omega) (by omega)
  simp only [fieldBytes, List.cons_append, List.compare_cons_cons, htag]
  rw [toBeBytes, toBeBytes, compare_append (by simp),
    compare_beBytes (UInt64.toNat_lt _) (UInt64.toNat_lt _), hkey]
  rfl

/-- A tail that no mark of an escaped 00 begins. -/
def FieldTail (us : List UInt8) : Prop := NoEsc escapedByte us

theorem compare_string (tag : UInt8) (s t : List UInt8) {us vs : List UInt8} (hus : FieldTail us)
    (hvs : FieldTail vs) :
    compare (tag :: (escape endByte escapedByte s ++ [endByte]) ++ us)
        (tag :: (escape endByte escapedByte t ++ [endByte]) ++ vs) =
      (compare s t).then (compare us vs) := by
  have hzero : ∀ b : UInt8, b ≠ endByte → compare endByte b = .lt := by
    intro b hb
    have hne : b.toNat ≠ 0 := fun h => hb (UInt8.toNat_inj.mp h)
    rw [compare_uint8, Nat.compare_eq_lt]
    exact Nat.pos_of_ne_zero hne
  have htag : compare tag tag = .eq := Std.ReflCmp.compare_self
  rw [List.cons_append, List.cons_append, List.compare_cons_cons, htag]
  exact orderCode_escape hzero s t us vs hus hvs

/-- The tags of a type's values. -/
def tagRange : Nat → Nat × Nat
  | 0 => (0x02, 0x02)
  | 1 => (0x03, 0x04)
  | 2 => (0x10, 0x20)
  | 3 => (0x21, 0x21)
  | 4 => (0x30, 0x38)
  | 5 => (0x40, 0x40)
  | _ => (0x41, 0x41)

theorem typeRank_le (v : ValueItem) : v.typeRank ≤ 6 := by
  cases v <;> simp [ValueItem.typeRank]

/-- The tags rise with the type ranks. -/
theorem tagRange_lt : ∀ r ≤ 6, ∀ s ≤ 6, r < s → (tagRange r).2 < (tagRange s).1 := by decide

/-- A field begins with a tag of its type. -/
theorem fieldBytes_tag (v : ValueItem) :
    ∃ tag body, fieldBytes v = tag :: body ∧ (tagRange v.typeRank).1 ≤ tag.toNat ∧
      tag.toNat ≤ (tagRange v.typeRank).2 := by
  cases v with
  | null => exact ⟨_, _, rfl, by decide, by decide⟩
  | boolean b =>
    refine ⟨_, _, rfl, ?_⟩
    cases b <;> decide
  | integer i =>
    have hzero : tagIntZero.toNat = 0x18 := rfl
    rcases Int.lt_or_le i.toInt 0 with hi | hi
    · have hle := significant_le (unsignedAbs i)
      refine ⟨_, _, fieldBytes_negative hi, ?_⟩
      rw [toNat_tag_sub hle]
      simp only [ValueItem.typeRank, tagRange]
      omega
    · have hle := significant_le i.toUInt64
      refine ⟨_, _, fieldBytes_nonneg hi, ?_⟩
      rw [toNat_tag_add (by omega)]
      simp only [ValueItem.typeRank, tagRange]
      omega
  | double bits => exact ⟨_, _, rfl, Nat.le_refl _, Nat.le_refl _⟩
  | datetime t =>
    have hle := significant_le t
    have hbase : tagDatetime.toNat = 0x30 := rfl
    refine ⟨_, _, rfl, ?_⟩
    rw [toNat_tag_add (by omega)]
    simp only [ValueItem.typeRank, tagRange]
    omega
  | str s cap => exact ⟨_, _, rfl, Nat.le_refl _, Nat.le_refl _⟩
  | blob b cap => exact ⟨_, _, rfl, Nat.le_refl _, Nat.le_refl _⟩

/-- Fields of different types are told apart by their tags. -/
theorem compare_types {v w : ValueItem} (h : v.typeRank ≠ w.typeRank) (us vs : List UInt8) :
    compare (fieldBytes v ++ us) (fieldBytes w ++ vs) =
      (compare v.typeRank w.typeRank).then (compare us vs) := by
  obtain ⟨tv, bv, hv, hvlow, hvhigh⟩ := fieldBytes_tag v
  obtain ⟨tw, bw, hw, hwlow, hwhigh⟩ := fieldBytes_tag w
  rw [hv, hw, List.cons_append, List.cons_append, List.compare_cons_cons, compare_uint8]
  rcases Nat.lt_or_gt_of_ne h with hlt | hgt
  · have hr := tagRange_lt _ (typeRank_le v) _ (typeRank_le w) hlt
    rw [Nat.compare_eq_lt.mpr hlt, Nat.compare_eq_lt.mpr (by omega)]
    rfl
  · have hr := tagRange_lt _ (typeRank_le w) _ (typeRank_le v) hgt
    rw [Nat.compare_eq_gt.mpr hgt, Nat.compare_eq_gt.mpr (by omega)]
    rfl

/-- A field's bytes are an order code for `ValueItem::cmp`. -/
theorem orderCode_fieldBytes : OrderCode ValueItem.cmp FieldTail fieldBytes := by
  intro v w us vs hus hvs
  by_cases hrank : v.typeRank = w.typeRank
  · cases v with
    | null =>
      cases w <;> simp only [ValueItem.typeRank] at hrank <;> try omega
      exact compare_append_left [tagNull] us vs
    | integer i =>
      cases w <;> simp only [ValueItem.typeRank] at hrank <;> try omega
      exact compare_integer i _ us vs
    | double a =>
      cases w <;> simp only [ValueItem.typeRank] at hrank <;> try omega
      exact compare_double a _ us vs
    | datetime a =>
      cases w <;> simp only [ValueItem.typeRank] at hrank <;> try omega
      exact compare_unsignedBytes (by decide) a _ us vs
    | str s cap =>
      cases w <;> simp only [ValueItem.typeRank] at hrank <;> try omega
      exact compare_string tagStr (asBytes s) _ hus hvs
    | blob b cap =>
      cases w <;> simp only [ValueItem.typeRank] at hrank <;> try omega
      exact compare_string tagBlob b _ hus hvs
    | boolean a =>
      cases w <;> simp only [ValueItem.typeRank] at hrank <;> try omega
      rename_i b
      cases a <;> cases b <;> rfl
  · rw [compare_types hrank us vs]
    congr 1
    cases v <;> cases w <;> first | rfl | exact absurd rfl hrank

/-! ## The order of keys -/

theorem fieldBytes_ne_nil (v : ValueItem) : fieldBytes v ≠ [] := by
  obtain ⟨tag, body, h, -⟩ := fieldBytes_tag v
  rw [h]
  exact List.cons_ne_nil tag body

theorem fieldTail_fieldBytes (v : ValueItem) (us : List UInt8) :
    FieldTail (fieldBytes v ++ us) := by
  obtain ⟨tag, body, h, -, hhigh⟩ := fieldBytes_tag v
  have hle : (tagRange v.typeRank).2 < 0xFF := by
    have hall : ∀ r ≤ 6, (tagRange r).2 < 0xFF := by decide
    exact hall _ (typeRank_le v)
  intro u hu
  rw [h, List.cons_append, List.head?_cons, Option.mem_some_iff] at hu
  rw [← hu, compare_uint8, Nat.compare_eq_lt]
  exact Nat.lt_of_le_of_lt hhigh hle

/-- The bytes of two record keys' fields compare as the fields do. -/
theorem compare_fields (as bs : List ValueItem) :
    compare (as.flatMap fieldBytes) (bs.flatMap fieldBytes) = as.compareLex ValueItem.cmp bs :=
  orderCode_fieldBytes.flatMap (fun _ hu => nomatch hu) fieldTail_fieldBytes fieldBytes_ne_nil as bs

end KeyCode

open KeyCode

theorem cmpValues_eq (as bs : List ValueItem) :
    cmpValues as bs = as.compareLex ValueItem.cmp bs := by
  induction as generalizing bs with
  | nil => cases bs <;> rfl
  | cons a as ih =>
    cases bs with
    | nil => rfl
    | cons b bs =>
      rw [cmpValues, List.compareLex_cons_cons, ih]
      cases a.cmp b <;> rfl

theorem totalKey_inj {a b : UInt64} (h : totalKey a = totalKey b) : a = b := by
  have ha := a.toNat_lt
  have hb := b.toNat_lt
  unfold totalKey at h
  apply UInt64.toNat_inj.mp
  split at h <;> split at h <;> omega

/-- Values that compare equal are equal. -/
theorem ValueItem.cmp_eq_iff (v w : ValueItem) : v.cmp w = .eq ↔ v.eq w = true := by
  by_cases hrank : v.typeRank = w.typeRank
  · cases v with
    | null => cases w <;> simp_all [ValueItem.cmp, ValueItem.eq, ValueItem.typeRank]
    | integer i => cases w <;> simp_all [ValueItem.cmp, ValueItem.eq, ValueItem.typeRank]
    | double a =>
      cases w <;> simp only [ValueItem.typeRank] at hrank <;> try omega
      rename_i b
      simp only [ValueItem.cmp, ValueItem.eq, totalCmp, Std.compare_eq_iff_eq, beq_iff_eq]
      exact ⟨totalKey_inj, fun h => h ▸ rfl⟩
    | datetime t => cases w <;> simp_all [ValueItem.cmp, ValueItem.eq, ValueItem.typeRank]
    | str s cap =>
      cases w <;> simp only [ValueItem.typeRank] at hrank <;> try omega
      rename_i t cap'
      simp only [ValueItem.cmp, ValueItem.eq, Std.compare_eq_iff_eq, beq_iff_eq]
      exact ⟨asBytes_inj, fun h => h ▸ rfl⟩
    | blob b cap => cases w <;> simp_all [ValueItem.cmp, ValueItem.eq, ValueItem.typeRank]
    | boolean a => cases w <;> simp_all [ValueItem.cmp, ValueItem.eq, ValueItem.typeRank]
  · have hcmp : v.cmp w = compare v.typeRank w.typeRank := by
      cases v <;> cases w <;> first | rfl | exact absurd rfl hrank
    have heq : v.eq w = false := by
      cases v <;> cases w <;> first | rfl | exact absurd rfl hrank
    rw [hcmp, heq, Nat.compare_eq_eq]
    simp [hrank]

/-- Values are ordered as their fields' bytes are. -/
theorem ValueItem.compare_fieldBytes (v w : ValueItem) :
    compare (fieldBytes v) (fieldBytes w) = v.cmp w := by
  have hnil : FieldTail [] := by
    intro u hu
    cases hu
  have hcode := orderCode_fieldBytes v w [] [] hnil hnil
  simpa using hcode

instance : Std.TransCmp ValueItem.cmp where
  eq_swap {a b} := by
    rw [← ValueItem.compare_fieldBytes a b, ← ValueItem.compare_fieldBytes b a]
    exact Std.OrientedCmp.eq_swap
  isLE_trans {a b c} hab hbc := by
    rw [← ValueItem.compare_fieldBytes] at hab hbc ⊢
    exact Std.TransCmp.isLE_trans hab hbc

theorem cmpValues_eq_iff (as bs : List ValueItem) :
    cmpValues as bs = .eq ↔ IndexKey.eq as bs = true := by
  induction as generalizing bs with
  | nil => cases bs <;> simp [cmpValues, IndexKey.eq]
  | cons a as ih =>
    cases bs with
    | nil => simp [cmpValues, IndexKey.eq]
    | cons b bs =>
      rw [cmpValues_eq, List.compareLex_cons_cons, ← cmpValues_eq, Ordering.then_eq_eq,
        ValueItem.cmp_eq_iff, ih, IndexKey.eq, Bool.and_eq_true]

theorem encode_int (n : UInt64) (out : List UInt8) :
    encode (.int n) out = out ++ unsignedBytes tagRowId n :=
  putUnsigned_holds (show Holds out out from rfl) tagRowId n

theorem encode_record (key : IndexKey) (out : List UInt8) :
    encode (.record key) out = out ++ tagRec :: key.flatMap fieldBytes :=
  encodeRecord_eq key out

namespace DBIdType

theorem cmp_eq_iff (a b : DBIdType) : a.cmp b = .eq ↔ a.eq b = true := by
  cases a with
  | int m =>
    cases b with
    | int n => simp [cmp, IdRef.cmp, IdRef.storedBytes, IdRef.keyValues, IdRef.asInt, eq]
    | record k => simp [cmp, IdRef.cmp, IdRef.storedBytes, IdRef.keyValues, eq]
  | record j =>
    cases b with
    | int n => simp [cmp, IdRef.cmp, IdRef.storedBytes, IdRef.keyValues, eq]
    | record k => exact cmpValues_eq_iff j k

/-- The bytes of two ids compare as the ids do. -/
theorem compare_encode (a b : DBIdType) : compare (encode a []) (encode b []) = a.cmp b := by
  -- a record key's kind is below every row id's tag
  have hkind : ∀ n, compare tagRec (tagRowId + UInt8.ofNat (significant n)) = .lt := by
    intro n
    have hle := significant_le n
    have hbase : tagRowId.toNat = 0xE0 := rfl
    have hrec : tagRec.toNat = 0x01 := rfl
    rw [compare_uint8, toNat_tag_add (by omega), Nat.compare_eq_lt]
    omega
  cases a with
  | int m =>
    cases b with
    | int n =>
      have hcmp := compare_unsignedBytes (show tagRowId.toNat + 8 < 256 by decide) m n [] []
      simp only [List.append_nil] at hcmp
      rw [encode_int, encode_int, List.nil_append, List.nil_append, hcmp]
      show (compare m n).then .eq = compare (some m) (some n)
      rw [Ordering.then_eq]
      rfl
    | record k =>
      rw [encode_int, encode_record, List.nil_append, List.nil_append, unsignedBytes,
        List.compare_cons_cons, Std.OrientedOrd.eq_swap, hkind]
      rfl
  | record j =>
    cases b with
    | int n =>
      rw [encode_int, encode_record, List.nil_append, List.nil_append, unsignedBytes,
        List.compare_cons_cons, hkind]
      rfl
    | record k =>
      have hrec : compare tagRec tagRec = .eq := rfl
      rw [encode_record, encode_record, List.nil_append, List.nil_append,
        List.compare_cons_cons, hrec, compare_fields, ← cmpValues_eq]
      rfl

end DBIdType

/-- `encode` orders ids as `DBIdType::cmp` does, and gives two the same bytes
exactly if they are equal. -/
theorem encode_order (a b : DBIdType) :
    compare (encode a []) (encode b []) = a.cmp b ∧
      (encode a [] = encode b [] ↔ a.eq b = true) := by
  refine ⟨DBIdType.compare_encode a b, ?_⟩
  rw [← DBIdType.cmp_eq_iff, ← DBIdType.compare_encode, Std.compare_eq_iff_eq]

end SquealDb.Codec
