import SquealDb.Codec.KeyRoundTrip

/-!
# Tuples read back

The one-pass encoder writes what postcard would, the size counter counts it, and
the reader finds every field in it.
-/

namespace SquealDb.Codec

open Lib KeyCode

/-! ## Writing -/

private theorem toUInt8_eq (v : UInt64) : v.toUInt8 = UInt8.ofNat v.toNat := by
  apply UInt8.toNat_inj.mp
  rw [UInt64.toNat_toUInt8, UInt8.toNat_ofNat']

private theorem toNat_shiftRight_7 (v : UInt64) : (v >>> 7).toNat = v.toNat / 128 := by
  rw [UInt64.toNat_shiftRight]
  simp [Nat.shiftRight_eq_div_pow]

/-- A group with the mark that another follows. -/
private theorem toUInt8_or (v : UInt64) :
    v.toUInt8 ||| 0x80 = UInt8.ofNat (v.toNat % 128 + 128) := by
  apply UInt8.toNat_inj.mp
  have hmod : (v.toUInt8.toNat ||| 2 ^ 7) % 2 ^ 7 = v.toNat % 128 := by
    rw [Nat.or_mod_two_pow, Nat.mod_self, Nat.or_zero, UInt64.toNat_toUInt8]
    omega
  have hdiv : (v.toUInt8.toNat ||| 2 ^ 7) / 2 ^ 7 = 1 := by
    have hlt := v.toUInt8.toNat_lt
    have hbit : v.toUInt8.toNat / 2 ^ 7 = 0 ∨ v.toUInt8.toNat / 2 ^ 7 = 1 := by omega
    rw [Nat.or_div_two_pow, Nat.div_self (by decide)]
    rcases hbit with h | h <;> rw [h] <;> rfl
  have hor : (v.toUInt8 ||| 0x80).toNat = v.toUInt8.toNat ||| 2 ^ 7 := UInt8.toNat_or _ _
  rw [hor, UInt8.toNat_ofNat']
  omega

theorem putVarintLoop_eq (fuel : Nat) (out : List UInt8) (v : UInt64) :
    putVarintLoop fuel out v = out ++ leb128Fuel fuel v.toNat := by
  induction fuel generalizing out v with
  | zero => rw [putVarintLoop, leb128Fuel, toUInt8_eq]
  | succ fuel ih =>
    have hge : v ≥ 0x80 ↔ ¬ v.toNat < 128 := by
      rw [ge_iff_le, UInt64.le_iff_toNat_le, Nat.not_lt]
      rfl
    rw [putVarintLoop, leb128Fuel]
    split
    · next h =>
        rw [if_neg (hge.mp h), ih, toNat_shiftRight_7, toUInt8_or, List.append_assoc,
          List.singleton_append]
    · next h => rw [if_pos (Classical.not_not.mp (mt hge.mpr h)), toUInt8_eq]

/-- `put_varint` writes LEB128. -/
theorem putVarint_eq (out : List UInt8) (v : UInt64) :
    putVarint out v = out ++ Postcard.unsigned v := by
  have hlt : v.toNat < 128 ^ (9 + 1) := Nat.lt_of_lt_of_le v.toNat_lt (by decide)
  rw [putVarint, putVarintLoop_eq, leb128Fuel_eq_leb128 hlt]
  rfl

private theorem log2_or_one (n : Nat) : Nat.log2 (n ||| 1) = Nat.log2 n := by
  have hhalf : (n ||| 1) / 2 = n / 2 := by
    have hdiv := Nat.or_div_two (a := n) (b := 1)
    rw [hdiv]
    exact Nat.or_zero _
  have hone : 1 ≤ n ||| 1 := Nat.right_le_or
  rw [Nat.log2_def (n ||| 1), Nat.log2_def n, hhalf]
  have hiff : 2 ≤ n ||| 1 ↔ 2 ≤ n := by omega
  simp only [hiff]

/-- `varint_len` counts the groups. -/
theorem varintLen_eq (v : UInt64) : varintLen v = (Postcard.unsigned v).length := by
  have hor : (v ||| 1).toNat = v.toNat ||| 1 := UInt64.toNat_or v 1
  have hpos : 1 ≤ v.toNat ||| 1 := Nat.right_le_or
  have hne : v ||| 1 ≠ 0 := fun h => by
    rw [h, UInt64.toNat_zero] at hor
    omega
  have hlt : (v.toNat ||| 1).log2 < 64 := by
    refine (Nat.log2_lt (by omega)).mpr ?_
    rw [← hor]
    exact (v ||| 1).toNat_lt
  rw [varintLen, leadingZeros, if_neg hne, hor, Postcard.unsigned, length_leb128, groups]
  rw [log2_or_one] at hlt ⊢
  omega

theorem unsignedAbs_nonneg {i : Int64} (h : 0 ≤ i.toInt) : unsignedAbs i = i.toUInt64 := by
  have hu := toNat_toUInt64 h
  apply UInt64.toNat_inj.mp
  rw [toNat_unsignedAbs]
  omega

/-- `stored_len` counts a field that holds no 00, and refuses one that does. -/
theorem storedFieldLen_eq (v : ValueItem) :
    storedFieldLen v = if holdsEnd v then none else some (fieldBytes v).length := by
  cases v with
  | null => rfl
  | boolean b => rfl
  | integer i =>
    rcases Int.lt_or_le i.toInt 0 with hi | hi
    · rw [fieldBytes_negative hi]
      simp [storedFieldLen, holdsEnd, Nat.add_comm]
    · have hle := significant_le i.toUInt64
      rw [fieldBytes_nonneg hi, unsignedBytes, drop_toBeBytes _ hle]
      simp [storedFieldLen, holdsEnd, unsignedAbs_nonneg hi, Nat.add_comm]
  | double bits => simp [storedFieldLen, holdsEnd, fieldBytes, toBeBytes]
  | datetime t =>
    have hle := significant_le t
    simp only [fieldBytes, unsignedBytes, drop_toBeBytes _ hle]
    simp [storedFieldLen, holdsEnd, Nat.add_comm]
  | str s cap =>
    by_cases hs : endByte ∈ asBytes s
    · simp [storedFieldLen, holdsEnd, hs]
    · simp [storedFieldLen, holdsEnd, fieldBytes, hs, escape_of_not_mem hs]
  | blob b cap =>
    by_cases hb : endByte ∈ b
    · simp [storedFieldLen, holdsEnd, hb]
    · simp [storedFieldLen, holdsEnd, fieldBytes, hb, escape_of_not_mem hb]

theorem storedLen_eq (fields : List ValueItem) :
    storedLen fields =
      if Storable fields then some (fields.flatMap fieldBytes).length else none := by
  induction fields with
  | nil => rfl
  | cons f fields ih =>
    have hcons : Storable (f :: fields) ↔ holdsEnd f = false ∧ Storable fields := by
      simp [Storable]
    rw [storedLen, storedFieldLen_eq, ih, List.flatMap_cons, List.length_append]
    by_cases hf : holdsEnd f = true
    · have hnot : ¬ Storable (f :: fields) := by simp [hcons, hf]
      rw [if_pos hf, if_neg hnot]
      rfl
    · by_cases hs : Storable fields
      · have hyes : Storable (f :: fields) := hcons.mpr ⟨by simpa using hf, hs⟩
        rw [if_neg hf, if_pos hs, if_pos hyes]
        rfl
      · have hnot : ¬ Storable (f :: fields) := fun h => hs (hcons.mp h).2
        rw [if_neg hf, if_neg hs, if_neg hnot]
        rfl

/-- An id's layout, by what its key holds. -/
theorem Postcard.id_record (k : IndexKey) :
    Postcard.id (.record k) = if Storable k then 2 :: Postcard.bytes (k.flatMap fieldBytes)
      else 1 :: Postcard.key k := by
  rw [Postcard.id, storedLen_eq, stored_bytes]
  by_cases h : Storable k
  · simp [h]
  · simp [h]

theorem putOption_eq (out : List UInt8) (v : Option UInt64) :
    Tuple.putOption out v = out ++ Postcard.option v := by
  cases v with
  | none => rfl
  | some v => rw [Tuple.putOption, putVarint_eq, List.append_assoc]; rfl

theorem putId_eq (out : List UInt8) (id : DBIdType) :
    Tuple.putId out id = out ++ Postcard.id id := by
  cases id with
  | int n =>
    rw [Tuple.putId, putVarint_eq, List.append_assoc]
    rfl
  | record k =>
    by_cases h : Storable k
    · simp [Tuple.putId, storedLen_eq, h, storedInto_eq, putVarint_eq, Postcard.id_record,
        Postcard.bytes, Postcard.len]
    · simp [Tuple.putId, storedLen_eq, h]

/-- `encode_into` writes what postcard would. -/
theorem encodeInto_eq (t : Tuple) (out : List UInt8) :
    t.encodeInto out = out ++ Postcard.tuple t := by
  rw [Tuple.encodeInto, putId_eq, putOption_eq, putOption_eq, putVarint_eq, Postcard.tuple]
  simp [Postcard.bytes, Postcard.len]

theorem idLen_eq (id : DBIdType) : Tuple.idLen id = (Postcard.id id).length := by
  cases id with
  | int n =>
    rw [Tuple.idLen, varintLen_eq, Postcard.id, List.length_cons, Nat.add_comm]
  | record k =>
    by_cases h : Storable k
    · simp only [Tuple.idLen, storedLen_eq, if_pos h, Postcard.id_record, Postcard.bytes,
        Postcard.len, List.length_cons, List.length_append, varintLen_eq]
      omega
    · simp [Tuple.idLen, storedLen_eq, h]

theorem optionLen_eq (v : Option UInt64) : Tuple.optionLen v = (Postcard.option v).length := by
  cases v with
  | none => rfl
  | some v =>
    rw [Postcard.option, List.length_cons, ← varintLen_eq, Nat.add_comm]
    rfl

/-- `encoded_len` counts what postcard would write. -/
theorem encodedLen_eq (t : Tuple) : t.encodedLen = (Postcard.tuple t).length := by
  rw [Tuple.encodedLen, idLen_eq, optionLen_eq, optionLen_eq, varintLen_eq, Postcard.tuple]
  simp only [Postcard.bytes, Postcard.len, List.length_append, List.length_singleton]
  omega

/-! ## Reading -/

theorem toNat_and_7F (b : UInt8) : (b &&& 0x7F).toNat = b.toNat % 128 := by
  rw [UInt8.toNat_and]
  exact Nat.and_two_pow_sub_one_eq_mod _ 7

theorem and_80_eq_zero (b : UInt8) : b &&& 0x80 = 0 ↔ b.toNat < 128 := by
  have hlt : b.toNat < 256 := b.toNat_lt
  have hand : (b &&& 0x80).toNat = b.toNat &&& 2 ^ 7 := UInt8.toNat_and _ _
  have hmod : (b.toNat &&& 2 ^ 7) % 2 ^ 7 = 0 := by
    rw [Nat.and_mod_two_pow, Nat.mod_self, Nat.and_zero]
  have hdiv : (b.toNat &&& 2 ^ 7) / 2 ^ 7 = b.toNat / 2 ^ 7 &&& 1 := by
    rw [Nat.and_div_two_pow, Nat.div_self (by decide)]
  have hbit : b.toNat / 2 ^ 7 = 0 ∨ b.toNat / 2 ^ 7 = 1 := by omega
  rw [← UInt8.toNat_inj, hand, UInt8.toNat_zero]
  rcases hbit with h | h
  · rw [h, Nat.zero_and] at hdiv
    omega
  · rw [h, Nat.and_self] at hdiv
    omega

namespace Reader

/-- A group of seven bits goes above those read before. -/
private theorem toNat_or_shiftLeft {out : UInt64} {b : UInt8} {s : Nat} (hs : s < 64)
    (hout : out.toNat < 2 ^ s) (hfit : out.toNat + b.toNat % 128 * 2 ^ s < 2 ^ 64) :
    (out ||| ((b &&& 0x7F).toUInt64 <<< UInt64.ofNat s)).toNat =
      out.toNat + b.toNat % 128 * 2 ^ s := by
  have hshift : ((b &&& 0x7F).toUInt64 <<< UInt64.ofNat s).toNat = (b.toNat % 128) <<< s := by
    rw [UInt64.toNat_shiftLeft, UInt8.toNat_toUInt64, toNat_and_7F, UInt64.toNat_ofNat',
      Nat.mod_eq_of_lt (show s < 2 ^ 64 by omega), Nat.mod_eq_of_lt hs, Nat.shiftLeft_eq]
    exact Nat.mod_eq_of_lt (by omega)
  rw [UInt64.toNat_or, hshift, Nat.or_comm, ← Nat.shiftLeft_add_eq_or_of_lt hout,
    Nat.shiftLeft_eq, Nat.add_comm]

/-- The last `j` shifts of `varint`. -/
def lastShifts : Nat → List UInt64
  | 0 => []
  | j + 1 => UInt64.ofNat (63 - 7 * j) :: lastShifts j

theorem reads_varintLoop {j : Nat} (hj : j ≤ 8) {out : UInt64} {n : Nat}
    (hout : out.toNat < 2 ^ (63 - 7 * j)) (hfit : out.toNat + n * 2 ^ (63 - 7 * j) < 2 ^ 64) :
    Reads (varintLoop out (lastShifts (j + 1))) (leb128 n)
      (UInt64.ofNat (out.toNat + n * 2 ^ (63 - 7 * j))) := by
  induction n using Nat.strongRecOn generalizing j out with
  | ind n ih =>
    -- one byte: the low group of `n`, at this shift
    have hstep : ∀ {b : UInt8}, b.toNat % 128 = n % 128 →
        (out ||| ((b &&& 0x7F).toUInt64 <<< UInt64.ofNat (63 - 7 * j))).toNat =
          out.toNat + n % 128 * 2 ^ (63 - 7 * j) := by
      intro b hb
      have hle : n % 128 * 2 ^ (63 - 7 * j) ≤ n * 2 ^ (63 - 7 * j) :=
        Nat.mul_le_mul_right _ (Nat.mod_le n 128)
      rw [toNat_or_shiftLeft (by omega) hout (by rw [hb]; omega), hb]
    rw [leb128_eq]
    split
    · next hsmall =>
        have hbyte : (UInt8.ofNat n).toNat = n := by
          rw [UInt8.toNat_ofNat']
          omega
        have hlast : UInt8.ofNat n &&& 0x80 = 0 := (and_80_eq_zero _).mpr (by omega)
        refine Reads.byte_bind ?_
        dsimp only
        rw [if_pos hlast]
        have hval := hstep (b := UInt8.ofNat n) (by rw [hbyte])
        rw [Nat.mod_eq_of_lt hsmall] at hval
        rw [← hval, UInt64.ofNat_toNat]
        exact Reads.pure _
    · next hlarge =>
        have hbyte : (UInt8.ofNat (n % 128 + 128)).toNat = n % 128 + 128 := by
          rw [UInt8.toNat_ofNat']
          omega
        have hmore : ¬ UInt8.ofNat (n % 128 + 128) &&& 0x80 = 0 := by
          rw [and_80_eq_zero]
          omega
        refine Reads.byte_bind ?_
        dsimp only
        rw [if_neg hmore]
        have hval := hstep (b := UInt8.ofNat (n % 128 + 128)) (by rw [hbyte]; omega)
        cases j with
        | zero =>
          -- the last shift leaves one bit
          rw [show 63 - 7 * 0 = 63 from rfl] at hfit
          omega
        | succ j =>
          have hpow : 2 ^ (63 - 7 * j) = 2 ^ (63 - 7 * (j + 1)) * 128 := by
            rw [show 63 - 7 * j = (63 - 7 * (j + 1)) + 7 by omega, Nat.pow_add]
          have hsplit : out.toNat + n % 128 * 2 ^ (63 - 7 * (j + 1)) +
              n / 128 * 2 ^ (63 - 7 * j) = out.toNat + n * 2 ^ (63 - 7 * (j + 1)) := by
            conv_rhs => rw [← Nat.mod_add_div n 128]
            rw [hpow]
            ring
          have hlow : out.toNat + n % 128 * 2 ^ (63 - 7 * (j + 1)) < 2 ^ (63 - 7 * j) := by
            rw [hpow]
            have hle : n % 128 * 2 ^ (63 - 7 * (j + 1)) ≤ 127 * 2 ^ (63 - 7 * (j + 1)) :=
              Nat.mul_le_mul_right _ (by omega)
            omega
          have hnext := ih (n / 128) (by omega) (show j ≤ 8 by omega) (hval ▸ hlow)
            (by rw [hval, hsplit]; exact hfit)
          rw [hval, hsplit] at hnext
          exact hnext

/-- A varint reads back. -/
theorem reads_varint (v : UInt64) : Reads varint (Postcard.unsigned v) v := by
  have hlt := v.toNat_lt
  rw [Postcard.unsigned, leb128_eq]
  split
  · next hsmall =>
      have hbyte : (UInt8.ofNat v.toNat).toNat = v.toNat := by
        rw [UInt8.toNat_ofNat']
        omega
      have hfirst : UInt8.ofNat v.toNat < 0x80 := by
        rw [UInt8.lt_iff_toNat_lt, hbyte]
        exact hsmall
      have hval : (UInt8.ofNat v.toNat).toUInt64 = v := by
        apply UInt64.toNat_inj.mp
        rw [UInt8.toNat_toUInt64, hbyte]
      refine Reads.byte_bind ?_
      rw [if_pos hfirst, hval]
      exact Reads.pure v
  · next hlarge =>
      have hbyte : (UInt8.ofNat (v.toNat % 128 + 128)).toNat = v.toNat % 128 + 128 := by
        rw [UInt8.toNat_ofNat']
        omega
      have hfirst : ¬ UInt8.ofNat (v.toNat % 128 + 128) < 0x80 := by
        rw [UInt8.lt_iff_toNat_lt, hbyte]
        exact Nat.not_lt.mpr (Nat.le_add_left _ _)
      have hgroup : (UInt8.ofNat (v.toNat % 128 + 128) &&& 0x7F).toUInt64.toNat =
          v.toNat % 128 := by
        rw [UInt8.toNat_toUInt64, toNat_and_7F, hbyte]
        omega
      have hsum : v.toNat % 128 + v.toNat / 128 * 2 ^ (63 - 7 * 8) = v.toNat := by
        rw [show 63 - 7 * 8 = 7 from rfl]
        omega
      have hrest := reads_varintLoop (Nat.le_refl 8)
        (show (UInt8.ofNat (v.toNat % 128 + 128) &&& 0x7F).toUInt64.toNat < 2 ^ (63 - 7 * 8) by
          rw [hgroup]
          exact Nat.mod_lt _ (by decide))
        (show _ + v.toNat / 128 * 2 ^ (63 - 7 * 8) < 2 ^ 64 by
          rw [hgroup, hsum]
          exact hlt)
      rw [hgroup, hsum, UInt64.ofNat_toNat] at hrest
      refine Reads.byte_bind ?_
      rw [if_neg hfirst]
      exact hrest

/-- A zigzag code. -/
def zigzag (v : Int64) : UInt64 :=
  UInt64.ofNat (if 0 ≤ v.toInt then 2 * v.toInt.natAbs else 2 * v.toInt.natAbs - 1)

theorem toNat_zigzag (v : Int64) :
    (zigzag v).toNat = if 0 ≤ v.toInt then 2 * v.toInt.natAbs else 2 * v.toInt.natAbs - 1 := by
  have hlow := v.le_toInt
  have hhigh := v.toInt_lt
  rw [zigzag, UInt64.toNat_ofNat']
  refine Nat.mod_eq_of_lt ?_
  split <;> omega

theorem unsigned_zigzag (v : Int64) : Postcard.unsigned (zigzag v) = Postcard.signed v := by
  rw [Postcard.unsigned, toNat_zigzag, Postcard.signed]

/-- A zigzag code and the number it is for. -/
theorem unzigzag (v : Int64) :
    (zigzag v >>> 1).toInt64 ^^^ -(zigzag v &&& 1).toInt64 = v := by
  have hn := toNat_zigzag v
  have hshift : (zigzag v >>> 1).toNat = (zigzag v).toNat / 2 := by
    rw [UInt64.toNat_shiftRight]
    simp [Nat.shiftRight_eq_div_pow]
  have hand : (zigzag v &&& 1).toNat = (zigzag v).toNat % 2 := by
    rw [UInt64.toNat_and]
    exact Nat.and_one_is_mod _
  have hcast : (zigzag v >>> 1).toInt64 = Int64.ofInt ((zigzag v).toNat / 2 : Nat) := by
    rw [Int64.ofInt_eq_ofNat, ← UInt64.toInt64_ofNat', ← hshift, UInt64.ofNat_toNat]
  by_cases hv : 0 ≤ v.toInt
  · rw [if_pos hv] at hn
    have hzero : zigzag v &&& 1 = 0 :=
      UInt64.toNat_inj.mp (by rw [hand, hn, UInt64.toNat_zero]; omega)
    rw [hzero, hcast, show (((zigzag v).toNat / 2 : Nat) : Int) = v.toInt by omega,
      Int64.ofInt_toInt]
    exact Int64.xor_zero
  · rw [if_neg hv] at hn
    have hone : zigzag v &&& 1 = 1 := UInt64.toNat_inj.mp (by
      rw [hand, hn]
      show _ = 1
      omega)
    have hneg : -(1 : UInt64).toInt64 = -1 := rfl
    rw [hone, hneg, Int64.xor_neg_one, Int64.not_eq_neg_add, hcast, ← Int64.ofInt_neg,
      show (1 : Int64) = Int64.ofInt 1 from rfl, ← Int64.ofInt_sub,
      show -(((zigzag v).toNat / 2 : Nat) : Int) - 1 = v.toInt by omega, Int64.ofInt_toInt]

theorem reads_signed (v : Int64) : Reads signed (Postcard.signed v) v := by
  have hread := (reads_varint (zigzag v)).map fun n => (n >>> 1).toInt64 ^^^ -(n &&& 1).toInt64
  rw [unzigzag, unsigned_zigzag] at hread
  exact hread

/-- The eight bytes of a double. -/
theorem reads_take_double (bits : UInt64) :
    Reads (take 8) (leBytes 8 bits.toNat) (leBytes 8 bits.toNat) := by
  have hall := Reads.take (leBytes 8 bits.toNat)
  rwa [length_leBytes] at hall

theorem reads_double (bits : UInt64) :
    Reads (do
      let bytes ← take 8
      return ValueItem.double (UInt64.ofNat (ofLe bytes))) (leBytes 8 bits.toNat)
      (.double bits) := by
  have hbytes : ofLe (leBytes 8 bits.toNat) = bits.toNat := by
    rw [ofLe_leBytes]
    exact Nat.mod_eq_of_lt bits.toNat_lt
  have hread := (reads_take_double bits).map
    fun bytes => ValueItem.double (UInt64.ofNat (ofLe bytes))
  rw [hbytes, UInt64.ofNat_toNat] at hread
  exact hread

theorem reads_sized {b : List UInt8} (h : b.length < 2 ^ 64) :
    Reads sized (Postcard.bytes b) b := by
  refine (reads_varint (UInt64.ofNat b.length)).bind ?_
  rw [UInt64.toNat_ofNat', Nat.mod_eq_of_lt h]
  exact Reads.take b

theorem reads_option (v : Option UInt64) : Reads option (Postcard.option v) v := by
  cases v with
  | none => exact Reads.byte_bind (Reads.pure none)
  | some v => exact Reads.byte_bind ((reads_varint v).map some)

/-- The content of a string or blob fits a length. -/
def Fits : ValueItem → Prop
  | .str s _ => (asBytes s).length < 2 ^ 64
  | .blob b _ => b.length < 2 ^ 64
  | _ => True

variable {v : ValueItem}

theorem fits_of_length (h : (Postcard.value v).length < 2 ^ 64) : Fits v := by
  cases v with
  | str s cap =>
    simp only [Postcard.value, Postcard.bytes, List.length_cons, List.length_append] at h
    show (asBytes s).length < 2 ^ 64
    omega
  | blob b cap =>
    simp only [Postcard.value, Postcard.bytes, List.length_cons, List.length_append] at h
    show b.length < 2 ^ 64
    omega
  | null => trivial
  | integer i => trivial
  | double bits => trivial
  | datetime t => trivial
  | boolean b => trivial

/-- A value reads back, with its capacity. -/
theorem reads_value (h : Fits v) : Reads value (Postcard.value v) v := by
  cases v with
  | null => exact Reads.byte_bind (Reads.pure _)
  | integer i => exact Reads.byte_bind ((reads_signed i).map _)
  | double bits => exact Reads.byte_bind (reads_double bits)
  | datetime t => exact Reads.byte_bind ((reads_varint t).map _)
  | str s cap =>
    refine Reads.byte_bind ((reads_sized h).bind ?_)
    rw [fromUtf8_asBytes]
    have hread := (reads_varint cap.toUInt64).map fun c => ValueItem.str s c.toUInt32
    rwa [UInt32.toUInt32_toUInt64] at hread
  | blob b cap =>
    refine Reads.byte_bind ((reads_sized h).bind ?_)
    have hread := (reads_varint cap.toUInt64).map fun c => ValueItem.blob b c.toUInt32
    rwa [UInt32.toUInt32_toUInt64] at hread
  | boolean b =>
    cases b with
    | false => exact Reads.byte_bind (Reads.byte_bind (Reads.pure _))
    | true => exact Reads.byte_bind (Reads.byte_bind (Reads.pure _))

/-- A value is stepped over as it is read. -/
theorem reads_skipValue (h : Fits v) :
    Reads skipValue (Postcard.value v) () := by
  cases v with
  | null => exact Reads.byte_bind (Reads.pure _)
  | integer i =>
    have hread := reads_varint (zigzag i)
    rw [unsigned_zigzag] at hread
    exact Reads.byte_bind (hread.map _)
  | double bits => exact Reads.byte_bind ((reads_take_double bits).map _)
  | datetime t => exact Reads.byte_bind ((reads_varint t).map _)
  | str s cap =>
    exact Reads.byte_bind ((reads_sized h).bind ((reads_varint cap.toUInt64).map _))
  | blob b cap =>
    exact Reads.byte_bind ((reads_sized h).bind ((reads_varint cap.toUInt64).map _))
  | boolean b =>
    cases b with
    | false => exact Reads.byte_bind (Reads.byte_bind (Reads.pure _))
    | true => exact Reads.byte_bind (Reads.byte_bind (Reads.pure _))

theorem reads_skipValues {k : IndexKey} (h : ∀ v ∈ k, Fits v) :
    Reads (skipValues k.length) (k.flatMap Postcard.value) () := by
  induction k with
  | nil => exact Reads.pure ()
  | cons v k ih =>
    have hhead := reads_skipValue (h v List.mem_cons_self)
    have htail := ih fun w hw => h w (List.mem_cons_of_mem v hw)
    exact hhead.bind htail

/-- What a reader stepped over. -/
theorem reads_since {α : Type} {m : Reader Unit} {enc : List UInt8} (h : Reads m enc ())
    (f : List UInt8 → α) :
    Reads (do
      let start ← position
      m
      let bytes ← since start
      return f bytes) enc (f enc) := by
  intro before after
  show (m (before ++ (enc ++ after)) before.length).bind (fun p =>
    some (f (((before ++ (enc ++ after)).drop before.length).take (p.2 - before.length)), p.2)) = _
  rw [h before after, Option.bind_some, List.drop_left, Nat.add_sub_cancel_left, List.take_left]

end Reader

/-! ## The forms of an id -/

/-- The two forms a record key is kept in: its values (tag 1) or its keycode bytes
(tag 2). -/
inductive IdForm where
  | values
  | stored
  deriving DecidableEq, Repr

namespace IdForm

/-- An id's bytes in a form. -/
def bytes (form : IdForm) (id : DBIdType) : List UInt8 :=
  match id, form with
  | .int n, _ => 0 :: Postcard.unsigned n
  | .record k, values => 1 :: Postcard.key k
  | .record k, stored => 2 :: Postcard.bytes (k.flatMap fieldBytes)

/-- An id lent from its bytes in a form. -/
def wireId (form : IdForm) (id : DBIdType) : WireId :=
  match id, form with
  | .int n, _ => .int n
  | .record k, values => .record ⟨k.length, k.flatMap Postcard.value⟩
  | .record k, stored => .stored ⟨k.flatMap fieldBytes⟩

/-- The form in which an id is written. -/
def ofId : DBIdType → IdForm
  | .int _ => stored
  | .record k => if Storable k then stored else values

/-- A form an id can be kept in: as keycode bytes only a key that holds no 00. -/
def Allows (form : IdForm) (id : DBIdType) : Prop :=
  match id, form with
  | .record k, stored => Storable k
  | _, _ => True

theorem allows_ofId (id : DBIdType) : (ofId id).Allows id := by
  cases id with
  | int n => trivial
  | record k =>
    by_cases h : Storable k
    · rw [ofId, if_pos h]
      exact h
    · rw [ofId, if_neg h]
      trivial

theorem bytes_ofId (id : DBIdType) : (ofId id).bytes id = Postcard.id id := by
  cases id with
  | int n => rfl
  | record k =>
    rw [Postcard.id_record, ofId]
    split <;> rfl

end IdForm

/-- A tuple's bytes with its id in a form. -/
def Tuple.bytesAs (t : Tuple) (form : IdForm) : List UInt8 :=
  form.bytes t.id ++ (Postcard.option t.txnId ++ (Postcard.option t.preLsn ++
    (Postcard.bytes t.data ++ [t.flags])))

theorem Tuple.bytesAs_ofId (t : Tuple) : t.bytesAs (IdForm.ofId t.id) = t.encodeInto [] := by
  rw [encodeInto_eq, Tuple.bytesAs, IdForm.bytes_ofId, Postcard.tuple]
  simp

variable {k : IndexKey} {form : IdForm} {id : DBIdType}

theorem length_le_flatMap {v : ValueItem} (h : v ∈ k) :
    (Postcard.value v).length ≤ (k.flatMap Postcard.value).length := by
  induction k with
  | nil => cases h
  | cons w k ih =>
    rw [List.flatMap_cons, List.length_append]
    rcases List.mem_cons.mp h with rfl | h
    · omega
    · have hle := ih h
      omega

theorem length_le_values (k : IndexKey) : k.length ≤ (k.flatMap Postcard.value).length := by
  induction k with
  | nil => exact Nat.le_refl 0
  | cons v k ih =>
    have hpos : 0 < (Postcard.value v).length := by
      cases v <;> simp [Postcard.value]
    rw [List.flatMap_cons, List.length_append, List.length_cons]
    omega

theorem fits_of_values (h : (k.flatMap Postcard.value).length < 2 ^ 64) :
    ∀ v ∈ k, Reader.Fits v := fun _ hv =>
  Reader.fits_of_length (Nat.lt_of_le_of_lt (length_le_flatMap hv) h)

/-- An id is located in its bytes. -/
theorem reads_id (h : (form.bytes id).length < 2 ^ 64) :
    Reads Reader.id (form.bytes id) (form.wireId id) := by
  cases id with
  | int n => exact Reads.byte_bind ((Reader.reads_varint n).map _)
  | record k =>
    cases form with
    | values =>
      simp only [IdForm.bytes, Postcard.key, List.length_cons, List.length_append] at h
      have hcount := length_le_values k
      have hskip := Reader.reads_skipValues (fits_of_values (k := k) (by omega))
      refine Reads.byte_bind ((Reader.reads_varint (UInt64.ofNat k.length)).bind ?_)
      rw [UInt64.toNat_ofNat', Nat.mod_eq_of_lt (show k.length < 2 ^ 64 by omega)]
      exact Reader.reads_since hskip fun bytes => WireId.record ⟨k.length, bytes⟩
    | stored =>
      simp only [IdForm.bytes, Postcard.bytes, List.length_cons, List.length_append] at h
      exact Reads.byte_bind ((Reader.reads_sized (show _ < _ by omega)).map _)

/-- Told where an id ends, its key is located without stepping over it. -/
theorem idEnding_bytes (h : (form.bytes id).length < 2 ^ 64) (rest : List UInt8) :
    idEnding (form.bytes id ++ rest) (form.bytes id).length = some (form.wireId id) := by
  have htag : ∀ b (bs : List UInt8), Reader.byte (b :: bs) 0 = some (b, 1) := fun _ _ => rfl
  have hvarint : ∀ (b : UInt8) (v : UInt64) (bs : List UInt8),
      Reader.varint (b :: (Postcard.unsigned v ++ bs)) 1 =
        some (v, 1 + (Postcard.unsigned v).length) := fun b v bs => Reader.reads_varint v [b] bs
  cases id with
  | int n =>
    rw [IdForm.bytes, List.cons_append, idEnding, htag]
    show (Reader.varint (0 :: (Postcard.unsigned n ++ rest)) 1).bind _ = _
    rw [hvarint]
    rfl
  | record k =>
    cases form with
    | values =>
      have hcount : (UInt64.ofNat k.length).toNat = k.length := by
        have hle := length_le_values k
        simp only [IdForm.bytes, Postcard.key, List.length_cons, List.length_append] at h
        rw [UInt64.toNat_ofNat']
        exact Nat.mod_eq_of_lt (by omega)
      have hrange := getRange_append (1 :: Postcard.len k.length) (k.flatMap Postcard.value) rest
      rw [IdForm.bytes, Postcard.key, Postcard.len, List.cons_append, List.append_assoc,
        idEnding, htag]
      show (Reader.varint (1 :: (Postcard.unsigned _ ++ _)) 1).bind _ = _
      rw [hvarint]
      show (getRange _ _ _).bind _ = _
      simp only [List.length_cons, List.length_append, Postcard.len, List.cons_append] at hrange ⊢
      rw [show 1 + (Postcard.unsigned (UInt64.ofNat k.length)).length =
        (Postcard.unsigned (UInt64.ofNat k.length)).length + 1 by omega,
        show (Postcard.unsigned (UInt64.ofNat k.length)).length +
          (k.flatMap Postcard.value).length + 1 =
          (Postcard.unsigned (UInt64.ofNat k.length)).length + 1 +
            (k.flatMap Postcard.value).length by omega, hrange, hcount]
      rfl
    | stored =>
      have hrange := getRange_append (2 :: Postcard.len (k.flatMap fieldBytes).length)
        (k.flatMap fieldBytes) rest
      rw [IdForm.bytes, Postcard.bytes, Postcard.len, List.cons_append, List.append_assoc,
        idEnding, htag]
      show (Reader.varint (2 :: (Postcard.unsigned _ ++ _)) 1).bind _ = _
      rw [hvarint]
      show (getRange _ _ _).bind _ = _
      simp only [List.length_cons, List.length_append, Postcard.len, List.cons_append] at hrange ⊢
      rw [show 1 + (Postcard.unsigned (UInt64.ofNat (k.flatMap fieldBytes).length)).length =
        (Postcard.unsigned (UInt64.ofNat (k.flatMap fieldBytes).length)).length + 1 by omega,
        show (Postcard.unsigned (UInt64.ofNat (k.flatMap fieldBytes).length)).length +
          (k.flatMap fieldBytes).length + 1 =
          (Postcard.unsigned (UInt64.ofNat (k.flatMap fieldBytes).length)).length + 1 +
            (k.flatMap fieldBytes).length by omega, hrange]
      rfl

/-- A tuple lent from its bytes in a form. -/
def Tuple.wireAs (t : Tuple) (form : IdForm) : WireTuple :=
  ⟨form.wireId t.id, t.txnId, t.preLsn, t.data, t.flags⟩

/-- What follows the id reads back. -/
theorem reads_readRest (t : Tuple) (id : WireId) (h : t.data.length < 2 ^ 64) :
    Reads (WireTuple.readRest id) (Postcard.option t.txnId ++ (Postcard.option t.preLsn ++
      (Postcard.bytes t.data ++ [t.flags]))) ⟨id, t.txnId, t.preLsn, t.data, t.flags⟩ :=
  (Reader.reads_option t.txnId).bind ((Reader.reads_option t.preLsn).bind
    ((Reader.reads_sized h).bind (Reads.byte_bind (Reads.pure _))))

theorem idEnd_bytesAs {t : Tuple} (h : (t.bytesAs form).length < 2 ^ 64) :
    idEnd (t.bytesAs form) = .ok (form.bytes t.id).length := by
  have hid : (form.bytes t.id).length < 2 ^ 64 := by
    simp only [Tuple.bytesAs, List.length_append] at h
    omega
  have hread : Reader.id (t.bytesAs form) 0 =
    some (form.wireId t.id, 0 + (form.bytes t.id).length) :=
    reads_id hid [] _
  rw [idEnd, hread, Nat.zero_add]

theorem readFields_bytesAs {t : Tuple} (h : (t.bytesAs form).length < 2 ^ 64) :
    WireTuple.readFields (t.bytesAs form) (form.bytes t.id).length = some (t.wireAs form) := by
  have hlen := h
  simp only [Tuple.bytesAs, Postcard.bytes, List.length_append] at hlen
  have hid : idEnding (t.bytesAs form) (form.bytes t.id).length = some (form.wireId t.id) :=
    idEnding_bytes (show _ < _ by omega) _
  have hrest := reads_readRest t (form.wireId t.id) (show _ < _ by omega) (form.bytes t.id) []
  rw [List.append_nil] at hrest
  rw [WireTuple.readFields, hid]
  show (WireTuple.readRest (form.wireId t.id) (t.bytesAs form) (form.bytes t.id).length).bind _ = _
  rw [Tuple.bytesAs, hrest]
  rfl

theorem read_bytesAs {t : Tuple} (h : (t.bytesAs form).length < 2 ^ 64) :
    WireTuple.read (t.bytesAs form) = .ok (t.wireAs form) := by
  rw [WireTuple.read, idEnd_bytesAs h]
  show WireTuple.readAfter (t.bytesAs form) (form.bytes t.id).length = _
  rw [WireTuple.readAfter, readFields_bytesAs h]

/-! ## The id that was read -/

theorem valuesFrom_flatMap (h : ∀ v ∈ k, Reader.Fits v) (before : List UInt8) :
    WireKey.valuesFrom (before ++ k.flatMap Postcard.value) k.length before.length = k := by
  induction k generalizing before with
  | nil => rfl
  | cons v k ih =>
    have hread := Reader.reads_value (h v List.mem_cons_self) before (k.flatMap Postcard.value)
    have hrest := ih (fun w hw => h w (List.mem_cons_of_mem v hw)) (before ++ Postcard.value v)
    rw [List.length_append, List.append_assoc] at hrest
    rw [List.length_cons, List.flatMap_cons, WireKey.valuesFrom, hread]
    exact congrArg (v :: ·) hrest

theorem checkFrom_flatMap (h : ∀ v ∈ k, Reader.Fits v) (before : List UInt8) :
    WireKey.checkFrom (before ++ k.flatMap Postcard.value) k.length before.length = .ok () := by
  induction k generalizing before with
  | nil => rfl
  | cons v k ih =>
    have hread := Reader.reads_value (h v List.mem_cons_self) before (k.flatMap Postcard.value)
    have hrest := ih (fun w hw => h w (List.mem_cons_of_mem v hw)) (before ++ Postcard.value v)
    rw [List.length_append, List.append_assoc] at hrest
    rw [List.length_cons, List.flatMap_cons, WireKey.checkFrom, hread]
    exact hrest

/-- A key kept as its values gives them back. -/
theorem WireKey.values_flatMap (h : ∀ v ∈ k, Reader.Fits v) :
    WireKey.values ⟨k.length, k.flatMap Postcard.value⟩ = k :=
  valuesFrom_flatMap h []

/-- The fields of an id's key, as they come back from a form. -/
theorem keyValues_wireId (hform : form.Allows (.record k))
    (hlen : (form.bytes (.record k)).length < 2 ^ 64) :
    ∃ vs, (IdRef.wire (form.wireId (.record k))).keyValues = some vs ∧
      IndexKey.tight vs = IndexKey.tight k := by
  cases form with
  | values =>
    have hfits : ∀ v ∈ k, Reader.Fits v := by
      apply fits_of_values
      simp only [IdForm.bytes, Postcard.key, List.length_cons, List.length_append] at hlen
      omega
    exact ⟨k, congrArg some (WireKey.values_flatMap hfits), rfl⟩
  | stored =>
    refine ⟨IndexKey.tight k, congrArg some (StoredKey.values_stored hform), ?_⟩
    simp only [IndexKey.tight, List.map_map]
    congr 1
    funext v
    exact ValueItem.tight_tight v

theorem toOwned_wireId (hform : form.Allows id) (hlen : (form.bytes id).length < 2 ^ 64) :
    (IdRef.wire (form.wireId id)).toOwned.eq id = true := by
  rw [DBIdType.eq_iff_tight]
  cases id with
  | int n => cases form <;> rfl
  | record k =>
    obtain ⟨vs, hvalues, htight⟩ := keyValues_wireId hform hlen
    have howned : (IdRef.wire (form.wireId (.record k))).toOwned = .record vs := by
      cases form with
      | values => exact congrArg (fun o => DBIdType.record (o.getD [])) hvalues
      | stored => exact congrArg (fun o => DBIdType.record (o.getD [])) hvalues
    rw [howned]
    exact congrArg DBIdType.record htight

/-- Encoder, counter and reader agree with postcard's layout: the bytes appended,
their number, and every field read back from them, with the id's end where the
transaction's id begins.  A vector's length is below `2 ^ 64`. -/
theorem tuple_codec (t : Tuple) :
    (∀ out, t.encodeInto out = out ++ Postcard.tuple t) ∧
      (∀ out, (t.encodeInto out).length = out.length + t.encodedLen) ∧
      ((t.encodeInto []).length < 2 ^ 64 →
        idEnd (t.encodeInto []) = .ok (Postcard.id t.id).length ∧
          ∃ w, WireTuple.read (t.encodeInto []) = .ok w ∧
            (IdRef.wire w.id).toOwned.eq t.id = true ∧ w.txnId = t.txnId ∧
            w.preLsn = t.preLsn ∧ w.data = t.data ∧ w.flags = t.flags) := by
  refine ⟨encodeInto_eq t, fun out => ?_, fun h => ?_⟩
  · rw [encodeInto_eq, encodedLen_eq, List.length_append]
  · rw [← t.bytesAs_ofId] at h ⊢
    have hid : ((IdForm.ofId t.id).bytes t.id).length < 2 ^ 64 := by
      simp only [Tuple.bytesAs, List.length_append] at h
      omega
    constructor
    · rw [idEnd_bytesAs h, IdForm.bytes_ofId]
    · exact ⟨_, read_bytesAs h, toOwned_wireId (IdForm.allows_ofId t.id) hid, rfl, rfl, rfl, rfl⟩

/-- A row whose key's string is shorter than its capacity. -/
theorem tuple_codec_row :
    idEnd ((Tuple.mk (.record [.str "ab" 9]) (some 300) none [7] 1).encodeInto []) = .ok 6 :=
  ((tuple_codec _).2.2 (by decide)).1

end SquealDb.Codec
