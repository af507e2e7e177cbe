import SquealDb.Codec.KeyOrder
import SquealDb.Doc.Order

/-!
# The order of encoded values

The two key fields of a value, `encode` of `sq-json/src/keys.rs`, order as `compare` does, but for
documents and arrays.  A number's bytes are those of the nearest double and of how far the number
is from it; rounding keeps the order, and passes no double.
-/

namespace SquealDb.Codec.IndexKey

/-- `IndexKey::partial_cmp`: field by field, for as long as both have one. -/
def partialCmp : IndexKey → IndexKey → Option Ordering
  | a :: as, b :: bs =>
    match a.cmp b with
    | .eq => partialCmp as bs
    | o => some o
  | _, _ => some .eq

end SquealDb.Codec.IndexKey

namespace SquealDb.Doc

open Codec Lib

namespace Value

/-! ## The nearest double -/

/-- The value of the double nearest a number. -/
def nearest : Value → Int
  | int i => Binary64.units (Binary64.rounded i.toInt)
  | double d => Binary64.scaled d
  | _ => 0

/-- How far a number is from it. -/
def gap : Value → Int
  | int i => i.toInt - Binary64.rounded i.toInt
  | _ => 0

private theorem int64_natAbs_le (i : Int64) : i.toInt.natAbs ≤ 2 ^ 63 := by
  have hlow : -2 ^ 63 ≤ i.toInt := Int64.le_toInt i
  have hhigh : i.toInt < 2 ^ 63 := Int64.toInt_lt i
  omega

private theorem int64_size (i : Int64) : i.toInt.natAbs ≤ 2 ^ 64 :=
  Nat.le_trans (int64_natAbs_le i) (by decide)

theorem units_le_iff {m n : Int} : Binary64.units m ≤ Binary64.units n ↔ m ≤ n :=
  Int.mul_le_mul_right (Int.pow_pos (by decide))

/-- A number is its nearest double and the rest. -/
theorem exact_eq {v : Value} {x : Int} (h : v.exact = some x) :
    x = v.nearest + Binary64.units v.gap := by
  cases v with
  | int i =>
    rw [← Option.some.inj h, nearest, gap, Binary64.units, Binary64.units, Binary64.units]
    ring
  | double d =>
    rw [exact] at h
    split at h
    · cases h
    · rw [← Option.some.inj h]
      show Binary64.scaled d = Binary64.scaled d + 0 * 2 ^ 1074
      rw [Int.zero_mul, Int.add_zero]
  | _ => cases h

/-- Rounding keeps the order of numbers. -/
theorem nearest_mono {a b : Value} {x y : Int} (ha : a.exact = some x) (hb : b.exact = some y)
    (h : x ≤ y) : a.nearest ≤ b.nearest := by
  have hdouble : ∀ (d : UInt64) (z : Int), (double d).exact = some z → Binary64.scaled d = z := by
    intro d z hz
    rw [exact] at hz
    split at hz
    · cases hz
    · exact Option.some.inj hz
  cases a with
  | int i =>
    obtain rfl := Option.some.inj ha
    cases b with
    | int j =>
      obtain rfl := Option.some.inj hb
      exact units_le_iff.mpr (Binary64.rounded_mono (units_le_iff.mp h))
    | double d =>
      rw [← hdouble d y hb] at h
      exact Binary64.rounded_le h
    | _ => cases hb
  | double d =>
    cases b with
    | int j =>
      obtain rfl := Option.some.inj hb
      rw [← hdouble d x ha] at h
      exact Binary64.le_rounded h
    | double d' =>
      rw [← hdouble d x ha, ← hdouble d' y hb] at h
      exact h
    | _ => cases hb
  | _ => cases ha

/-- Numbers compare by their nearest doubles, and then by the rests. -/
theorem compare_nearest {a b : Value} {x y : Int} (ha : a.exact = some x) (hb : b.exact = some y) :
    Ord.compare x y = (Ord.compare a.nearest b.nearest).then (Ord.compare a.gap b.gap) := by
  have hx := exact_eq ha
  have hy := exact_eq hb
  have hunits : ∀ m n : Int, m < n → Binary64.units m < Binary64.units n := fun m n hmn =>
    Int.mul_lt_mul_of_pos_right hmn (Int.pow_pos (by decide))
  rcases Int.lt_trichotomy a.nearest b.nearest with hlt | heq | hgt
  · have hxy : x < y := by
      by_contra hle
      have hback := nearest_mono hb ha (Int.not_lt.mp hle)
      omega
    rw [Std.compare_eq_lt.mpr hlt, Std.compare_eq_lt.mpr hxy]
    rfl
  · rw [heq, Std.compare_self, hx, hy, heq]
    rcases Int.lt_trichotomy a.gap b.gap with h | h | h
    · have hu := hunits _ _ h
      rw [Std.compare_eq_lt.mpr h, Std.compare_eq_lt.mpr (by omega)]
      rfl
    · rw [h, Std.compare_self, Std.compare_self]
      rfl
    · have hu := hunits _ _ h
      rw [Std.compare_eq_gt.mpr h, Std.compare_eq_gt.mpr (by omega)]
      rfl
  · have hxy : y < x := by
      by_contra hle
      have hback := nearest_mono ha hb (Int.not_lt.mp hle)
      omega
    rw [Std.compare_eq_gt.mpr hgt, Std.compare_eq_gt.mpr hxy]
    rfl

end Value

/-! ## The bytes of a number -/

/-- The bits that `sortable_f64` writes. -/
def sortableBits (f : UInt64) : UInt64 :=
  if Binary64.isNan f then 0 else KeyCode.orderedBits (if Binary64.ieeeEq f 0 then 0 else f)

theorem or_signBit {bits : UInt64} (h : bits.toNat < 2 ^ 63) :
    (bits ||| KeyCode.signBit) = bits ^^^ KeyCode.signBit := by
  have hor : (bits ||| KeyCode.signBit).toNat = 2 ^ 63 + bits.toNat := by
    rw [UInt64.toNat_or, KeyCode.toNat_signBit, Nat.or_comm]
    exact (Nat.two_pow_add_eq_or_of_lt h 1).symm
  refine UInt64.toNat_inj.mp ?_
  rw [hor, KeyCode.toNat_xor_signBit]
  omega

theorem sortableF64_eq (f : UInt64) : sortableF64 f = KeyCode.toBeBytes (sortableBits f) := by
  rw [sortableF64, sortableBits]
  split
  · rfl
  · generalize (if Binary64.ieeeEq f 0 then 0 else f) = bits
    have hshift := KeyCode.toNat_shiftRight_63 bits
    have hlt := bits.toNat_lt
    show KeyCode.toBeBytes _ = _
    rw [KeyCode.orderedBits]
    by_cases hbit : bits >>> 63 = 1
    · have hne : ¬ bits >>> 63 = 0 := by
        rw [hbit]
        decide
      rw [if_pos hbit, if_neg hne]
    · have hsmall : bits.toNat < 2 ^ 63 := by
        by_contra hbig
        refine hbit (UInt64.toNat_inj.mp ?_)
        rw [hshift]
        show _ = 1
        omega
      have hzero : bits >>> 63 = 0 := by
        refine UInt64.toNat_inj.mp ?_
        rw [hshift]
        show _ = 0
        omega
      rw [if_neg hbit, if_pos hzero, or_signBit hsmall]

/-- Doubles that are numbers order as their bits do. -/
theorem toNat_sortableBits {f : UInt64} (h : Binary64.isNan f = false) :
    ((sortableBits f).toNat : Int) =
      totalKey (if Binary64.ieeeEq f 0 then 0 else f) + 2 ^ 63 := by
  rw [sortableBits, if_neg (by rw [h]; decide), KeyCode.toNat_orderedBits]

theorem ieeeEq_zero_iff {f : UInt64} (h : Binary64.isNan f = false) :
    Binary64.ieeeEq f 0 = true ↔ Binary64.signedBits f = 0 := by
  have hnan : Binary64.isNan 0 = false := by decide
  have hzero : Binary64.signedBits 0 = 0 := by decide
  have hcmp : Binary64.ieeeEq f 0 = true ↔ Binary64.scaled f = Binary64.scaled 0 := by
    rw [Binary64.ieeeEq, Binary64.partialCmp, h, hnan]
    simp
  have hlt := Binary64.scaled_lt_iff f 0
  have hgt := Binary64.scaled_lt_iff 0 f
  rw [hcmp]
  omega

/-- The key of a double, by its signed bits. -/
theorem totalKey_eq {f : UInt64} (h : Binary64.isNan f = false) :
    totalKey (if Binary64.ieeeEq f 0 then 0 else f) =
      if Binary64.signedBits f < 0 then Binary64.signedBits f - 1 else Binary64.signedBits f := by
  have hzero := ieeeEq_zero_iff h
  have hlt := f.toNat_lt
  have hkey : totalKey 0 = 0 := by decide
  by_cases heq : Binary64.ieeeEq f 0 = true
  · rw [if_pos heq, hzero.mp heq, hkey]
    rfl
  · rw [if_neg heq]
    rw [hzero] at heq
    rw [totalKey]
    simp only [Binary64.signedBits, Binary64.negative, Binary64.magnitudeBits] at heq ⊢
    by_cases hneg : 2 ^ 63 ≤ f.toNat
    · rw [if_neg (by omega)]
      simp only [hneg, decide_true, if_true] at heq ⊢
      rw [if_pos (by omega)]
      omega
    · rw [if_pos (by omega)]
      simp only [hneg, decide_false] at heq ⊢
      rw [if_neg (by simp; omega)]
      simp
      omega

theorem compare_sortableBits {x y : UInt64} (hx : Binary64.isNan x = false)
    (hy : Binary64.isNan y = false) :
    compare (sortableBits x) (sortableBits y) =
      compare (Binary64.scaled x) (Binary64.scaled y) := by
  have hxkey := toNat_sortableBits hx
  have hykey := toNat_sortableBits hy
  rw [totalKey_eq hx] at hxkey
  rw [totalKey_eq hy] at hykey
  have hlt := Binary64.scaled_lt_iff x y
  have hgt := Binary64.scaled_lt_iff y x
  rw [compare_uint64]
  refine compare_eq_of_lt_iff ?_ ?_
  · split at hxkey <;> split at hykey <;> omega
  · split at hxkey <;> split at hykey <;> omega

/-- NaN is below them. -/
theorem sortableBits_pos {f : UInt64} (h : Binary64.isNan f = false) :
    0 < (sortableBits f).toNat := by
  have hkey := toNat_sortableBits h
  rw [totalKey_eq h] at hkey
  have hnan : ¬ 2047 * 2 ^ 52 < Binary64.magnitudeBits f := of_decide_eq_false h
  simp only [Binary64.signedBits] at hkey
  split at hkey
  · split at hkey <;> omega
  · split at hkey <;> omega

/-- A number's bytes: its nearest double, and how far it is from that. -/
structure Coded (v : Value) (near offset : UInt64) : Prop where
  bytes : numberBytes v = KeyCode.toBeBytes near ++ KeyCode.toBeBytes offset
  gap : (offset.toNat : Int) = v.gap + 2 ^ 63

theorem toNat_signed_offset {z : Int} (hlow : -2 ^ 63 ≤ z) (hhigh : z < 2 ^ 63) :
    (((Int64.ofInt z).toUInt64 ^^^ KeyCode.signBit).toNat : Int) = z + 2 ^ 63 := by
  have hto : (Int64.ofInt z).toInt = z := Int64.toInt_ofInt_of_le hlow hhigh
  have hcond : (Int64.ofInt z).toInt = if 2 * (Int64.ofInt z).toUInt64.toNat < 2 ^ 64
      then ((Int64.ofInt z).toUInt64.toNat : Int)
      else ((Int64.ofInt z).toUInt64.toNat : Int) - (2 ^ 64 : Nat) :=
    BitVec.toInt_eq_toNat_cond (Int64.ofInt z).toUInt64.toBitVec
  have hlt := (Int64.ofInt z).toUInt64.toNat_lt
  rw [hto] at hcond
  rw [KeyCode.toNat_xor_signBit]
  split at hcond <;> omega

/-- Rounding moves an integer less than a quarter of its range. -/
theorem gap_bounds (i : Int64) : -2 ^ 63 ≤ (Value.int i).gap ∧ (Value.int i).gap < 2 ^ 63 := by
  have hsize := Value.int64_natAbs_le i
  have hround := Binary64.roundToEven_mono hsize
  have hlow : (0 : Nat) ≤ Binary64.roundToEven i.toInt.natAbs := Nat.zero_le _
  rw [(show Binary64.roundToEven (2 ^ 63) = 2 ^ 63 by decide +kernel)] at hround
  have hi := Int64.toInt_lt i
  have hi' := Int64.le_toInt i
  have hzero := Binary64.roundToEven_pos i.toInt.natAbs
  simp only [Value.gap, Binary64.rounded]
  split <;> omega

theorem coded_int (i : Int64) :
    Coded (.int i) (sortableBits (Binary64.ofInt i.toInt))
      ((Int64.ofInt (Value.int i).gap).toUInt64 ^^^ KeyCode.signBit) where
  bytes := by
    have htrunc : Binary64.trunc (Binary64.ofInt i.toInt) = Binary64.rounded i.toInt := by
      rw [Binary64.trunc, (Binary64.scaled_ofInt_rounded (Value.int64_size i)).1, Binary64.units]
      exact Int.mul_tdiv_cancel _ (Int.pow_ne_zero (by decide))
    simp only [numberBytes]
    rw [sortableF64_eq, htrunc]
    rfl
  gap := toNat_signed_offset (gap_bounds i).1 (gap_bounds i).2

theorem coded_double (d : UInt64) : Coded (.double d) (sortableBits d) KeyCode.signBit where
  bytes := by
    simp only [numberBytes]
    rw [sortableF64_eq]
  gap := by
    show (KeyCode.signBit.toNat : Int) = 0 + 2 ^ 63
    rfl

/-- A number's nearest double is one, unless it is NaN. -/
theorem coded_of_exact {v : Value} {x : Int} (h : v.exact = some x) :
    ∃ f offset, Coded v (sortableBits f) offset ∧ Binary64.isNan f = false ∧
      Binary64.scaled f = v.nearest := by
  cases v with
  | int i =>
    obtain ⟨hscaled, hnan⟩ := Binary64.scaled_ofInt_rounded (Value.int64_size i)
    exact ⟨_, _, coded_int i, hnan, hscaled⟩
  | double d =>
    rw [Value.exact] at h
    split at h
    · cases h
    · next hnan => exact ⟨_, _, coded_double d, Bool.eq_false_iff.mpr hnan, rfl⟩
  | _ => cases h

theorem coded_of_nan {v : Value} (hv : v.IsNumber) (h : v.exact = none) :
    ∃ offset, Coded v 0 offset ∧ v.gap = 0 := by
  cases v with
  | int i => cases h
  | double d =>
    rw [Value.exact] at h
    split at h
    · next hnan =>
        have hcoded := coded_double d
        rw [sortableBits, if_pos hnan] at hcoded
        exact ⟨_, hcoded, rfl⟩
    · cases h
  | _ => exact hv.elim

theorem Coded.compare {a b : Value} {near near' offset offset' : UInt64} (ha : Coded a near offset)
    (hb : Coded b near' offset') :
    Ord.compare (numberBytes a) (numberBytes b) =
      (Ord.compare near near').then (Ord.compare a.gap b.gap) := by
  have hgap : Ord.compare offset.toNat offset'.toNat = Ord.compare a.gap b.gap := by
    have hoa := ha.gap
    have hob := hb.gap
    exact compare_eq_of_lt_iff (by omega) (by omega)
  have hnear := near.toNat_lt
  have hnear' := near'.toNat_lt
  have hoff := offset.toNat_lt
  have hoff' := offset'.toNat_lt
  rw [ha.bytes, hb.bytes, KeyCode.toBeBytes, KeyCode.toBeBytes, KeyCode.toBeBytes,
    KeyCode.toBeBytes, compare_append (by simp), compare_beBytes hnear hnear',
    compare_beBytes hoff hoff', hgap, compare_uint64]

/-- A number's bytes order as the numbers do. -/
theorem compare_numberBytes {a b : Value} (ha : a.IsNumber) (hb : b.IsNumber) :
    Ord.compare (numberBytes a) (numberBytes b) = Ord.compare a.exactCode b.exactCode := by
  cases hxa : a.exact with
  | none =>
    obtain ⟨o, hca, hga⟩ := coded_of_nan ha hxa
    cases hxb : b.exact with
    | none =>
      obtain ⟨o', hcb, hgb⟩ := coded_of_nan hb hxb
      rw [hca.compare hcb, hga, hgb, Value.exactCode, Value.exactCode, hxa, hxb]
      rfl
    | some y =>
      obtain ⟨f, o', hcb, hnan, -⟩ := coded_of_exact hxb
      have hlt : Ord.compare (0 : UInt64) (sortableBits f) = .lt := by
        rw [compare_uint64]
        exact Std.compare_eq_lt.mpr (sortableBits_pos hnan)
      rw [hca.compare hcb, hlt, Value.exactCode, Value.exactCode, hxa, hxb]
      rfl
  | some x =>
    obtain ⟨f, o, hca, hnan, hf⟩ := coded_of_exact hxa
    cases hxb : b.exact with
    | none =>
      obtain ⟨o', hcb, -⟩ := coded_of_nan hb hxb
      have hgt : Ord.compare (sortableBits f) (0 : UInt64) = .gt := by
        rw [compare_uint64]
        exact Std.compare_eq_gt.mpr (sortableBits_pos hnan)
      rw [hca.compare hcb, hgt, Value.exactCode, Value.exactCode, hxa, hxb]
      rfl
    | some y =>
      obtain ⟨f', o', hcb, hnan', hf'⟩ := coded_of_exact hxb
      rw [hca.compare hcb, compare_sortableBits hnan hnan', hf, hf', Value.exactCode,
        Value.exactCode, hxa, hxb, Value.compare_one, Value.compare_nearest hxa hxb]

/-! ## Keys -/

/-- The second fields of two values of one type order as the values. -/
theorem payload_compare {a b : Value} (htype : a.typeOrder = b.typeOrder)
    (ha : ordersLikeMongo a = true) : (payload a).cmp (payload b) = a.compare b := by
  have hnumbers : a.IsNumber → b.IsNumber → payload a = blob (numberBytes a) →
      payload b = blob (numberBytes b) → (payload a).cmp (payload b) = a.compare b := by
    intro ha hb hpa hpb
    rw [hpa, hpb, Value.compare_numbers ha hb, Value.compareNumbers_eq ha hb]
    exact compare_numberBytes ha hb
  cases a with
  | null =>
    cases b with
    | null => simp [Value.compare, payload, ValueItem.cmp, Value.typeOrder]
    | _ => cases htype
  | bool x =>
    cases b with
    | bool y => simp [Value.compare, payload, ValueItem.cmp, Value.typeOrder]
    | _ => cases htype
  | int i =>
    cases b with
    | int j => exact hnumbers trivial trivial rfl rfl
    | double d => exact hnumbers trivial trivial rfl rfl
    | _ => cases htype
  | double d =>
    cases b with
    | int i => exact hnumbers trivial trivial rfl rfl
    | double d' => exact hnumbers trivial trivial rfl rfl
    | _ => cases htype
  | string s =>
    cases b with
    | string t => simp [Value.compare, payload, ValueItem.cmp, Value.typeOrder]
    | _ => cases htype
  | objectId id =>
    cases b with
    | objectId id' => simp [Value.compare, payload, blob, ValueItem.cmp, Value.typeOrder]
    | _ => cases htype
  | date ms =>
    cases b with
    | date ms' => simp [Value.compare, payload, ValueItem.cmp, Value.typeOrder]
    | _ => cases htype
  | array items => cases ha
  | document fields => cases ha

theorem bracket_compare (a b : Value) :
    (bracket a).cmp (bracket b) = compare a.typeOrder b.typeOrder := by
  have hsmall : ∀ v : Value, (Int64.ofNat v.typeOrder).toInt = v.typeOrder := by
    intro v
    cases v <;> rfl
  rw [bracket, bracket, ValueItem.cmp, compare_int64, hsmall, hsmall, Value.compare_natCast]

/-- The keys of two values order as the values, unless they are documents or arrays. -/
theorem encode_compare {a b : Value} (ha : ordersLikeMongo a = true) :
    IndexKey.partialCmp (encode a) (encode b) = some (a.compare b) := by
  rw [encode, encode, IndexKey.partialCmp, bracket_compare]
  by_cases htype : a.typeOrder = b.typeOrder
  · rw [htype, Std.compare_self]
    show (IndexKey.partialCmp [payload a] [payload b]) = _
    rw [IndexKey.partialCmp, payload_compare htype ha]
    cases a.compare b <;> rfl
  · have hne : compare a.typeOrder b.typeOrder ≠ .eq :=
      fun heq => htype (Std.LawfulEqOrd.compare_eq_iff_eq.1 heq)
    rw [Value.compare_of_typeOrder htype]
    cases hcmp : compare a.typeOrder b.typeOrder with
    | eq => exact absurd hcmp hne
    | lt => rfl
    | gt => rfl

/-- Every value has a key. -/
theorem newKey_encode {κ : Type} (v : Value) :
    (newKey (encode v) : Except (Error κ) IndexKey) = .ok (encode v) := by
  have hpayload : (payload v).validate = .ok () := by
    cases v <;> simp [payload, blob, ValueItem.validate]
  have hvalid : [bracket v, payload v].forM ValueItem.validate = .ok () := by
    simp only [List.forM, hpayload]
    rfl
  rw [newKey, encode, hvalid]

/-- The order of numbers, by their exact values, with NaN below them. -/
def compareExact : Option Int → Option Int → Ordering
  | some x, some y => compare x y
  | none, some _ => .lt
  | some _, none => .gt
  | none, none => .eq

/-- `compare` is a total preorder, on numbers that of their exact values; and the keys of values
that are not documents or arrays are in it. -/
theorem document_order :
    (∀ a b : Value, b.compare a = (a.compare b).swap) ∧
    (∀ a b c : Value, (a.compare b).isLE → (b.compare c).isLE → (a.compare c).isLE) ∧
    (∀ a b : Value, a.IsNumber → b.IsNumber → a.compare b = compareExact a.exact b.exact) ∧
    ∀ a b : Value, ordersLikeMongo a = true → ordersLikeMongo b = true →
      ∃ ka kb, (newKey (encode a) : Except (Error Unit) IndexKey) = .ok ka ∧
        (newKey (encode b) : Except (Error Unit) IndexKey) = .ok kb ∧
        IndexKey.partialCmp ka kb = some (a.compare b) := by
  refine ⟨?_, ?_, ?_, ?_⟩
  · intro a b
    exact Std.OrientedCmp.eq_swap
  · intro a b c hab hbc
    exact Std.TransCmp.isLE_trans hab hbc
  · intro a b ha hb
    rw [Value.compare_numbers ha hb, Value.compareNumbers_eq ha hb, Value.exactCode,
      Value.exactCode]
    cases a.exact with
    | none => cases b.exact <;> rfl
    | some x =>
      cases b.exact with
      | none => rfl
      | some y => exact Value.compare_one x y
  · intro a b ha hb
    exact ⟨_, _, newKey_encode a, newKey_encode b, encode_compare ha⟩

end SquealDb.Doc
