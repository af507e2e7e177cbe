import SquealDb.Codec.ValueItem
import SquealDb.Lib.Binary64

/-!
# Integers against doubles

`numeric.rs`: the order of an integer and a double by value, and what a join key
hashes as.

The comparison goes by the double's integer part and fraction; it is the order of the
two numbers, both taken in units of `2 ^ -1074`.
-/

namespace SquealDb.Sql

open Codec Lib

/-- `TWO_63`, in units of `2 ^ -1074`. -/
def two63 : Int := Binary64.units (2 ^ 63)

def cmpIntDouble (i : Int64) (d : UInt64) : Option Ordering :=
  if Binary64.isNan d then none
  else if two63 ≤ Binary64.scaled d then some .lt
  else if Binary64.scaled d < -two63 then some .gt
  else
    some <| match compare i.toInt (Binary64.trunc d) with
      | .eq =>
        if 0 < Binary64.fraction d then .lt
        else if Binary64.fraction d < 0 then .gt
        else .eq
      | other => other

/-- `cmp_mixed`: `none` for any pair but an integer and a double, `some none` where
the double is a NaN. -/
def cmpMixed : ValueItem → ValueItem → Option (Option Ordering)
  | .integer i, .double d => some (cmpIntDouble i d)
  | .double d, .integer i => some ((cmpIntDouble i d).map Ordering.swap)
  | _, _ => none

def hashNormalized : ValueItem → Option ValueItem
  | .double d =>
    if Binary64.isFinite d ∧ Binary64.fraction d = 0 ∧ -two63 ≤ Binary64.scaled d ∧
        Binary64.scaled d < two63 then
      some (.integer (Int64.ofInt (Binary64.trunc d)))
    else none
  | _ => none

/-- Whole numbers apart are a unit apart. -/
theorem units_add_one_le {m n : Int} (h : m < n) :
    Binary64.units m + Binary64.units 1 ≤ Binary64.units n := by
  unfold Binary64.units
  rw [← add_mul]
  exact Int.mul_le_mul_of_nonneg_right h (by positivity)

theorem units_one_pos : 0 < Binary64.units 1 := by
  unfold Binary64.units
  positivity

theorem units_lt {m n : Int} (h : m < n) : Binary64.units m < Binary64.units n := by
  have hle := units_add_one_le h
  have hpos := units_one_pos
  omega

theorem units_le {m n : Int} (h : m ≤ n) : Binary64.units m ≤ Binary64.units n :=
  Int.mul_le_mul_of_nonneg_right h (by positivity)

theorem lt_of_units_lt {m n : Int} (h : Binary64.units m < Binary64.units n) : m < n := by
  by_contra hnot
  exact absurd h (not_lt.mpr (units_le (not_lt.mp hnot)))

theorem le_of_units_le {m n : Int} (h : Binary64.units m ≤ Binary64.units n) : m ≤ n := by
  by_contra hnot
  exact absurd h (not_le.mpr (units_lt (not_le.mp hnot)))

theorem compare_units (m n : Int) :
    compare (Binary64.units m) (Binary64.units n) = compare m n := by
  rcases lt_trichotomy m n with h | rfl | h
  · rw [compare_lt_iff_lt.mpr h, compare_lt_iff_lt.mpr (units_lt h)]
  · rw [compare_eq_iff_eq.mpr rfl, compare_eq_iff_eq.mpr rfl]
  · rw [compare_gt_iff_gt.mpr h, compare_gt_iff_gt.mpr (units_lt h)]

theorem units_neg (n : Int) : Binary64.units (-n) = -Binary64.units n := Int.neg_mul n _

theorem fraction_lt (d : UInt64) : Binary64.fraction d < Binary64.units 1 := by
  rw [Binary64.units, one_mul]
  exact Int.tmod_lt_of_pos _ (by positivity)

theorem lt_fraction (d : UInt64) : -Binary64.units 1 < Binary64.fraction d := by
  rw [Binary64.units, one_mul]
  exact Int.lt_tmod_of_pos _ (by positivity)

private theorem ediv_bounds (s : Int) {u : Int} (hu : 0 < u) :
    s / u * u ≤ s ∧ s < (s / u + 1) * u :=
  ⟨Int.ediv_mul_le s (ne_of_gt hu), Int.lt_ediv_add_one_mul_self s hu⟩

/-- The whole number at or below a double. -/
theorem floor_bounds (d : UInt64) :
    Binary64.units (Binary64.floor d) ≤ Binary64.scaled d ∧
      Binary64.scaled d < Binary64.units (Binary64.floor d + 1) :=
  ediv_bounds (Binary64.scaled d) (pow_pos two_pos 1074)

/-- The whole number at or above a double. -/
theorem ceil_bounds (d : UInt64) :
    Binary64.units (Binary64.ceil d - 1) < Binary64.scaled d ∧
      Binary64.scaled d ≤ Binary64.units (Binary64.ceil d) := by
  obtain ⟨hle, hlt⟩ := ediv_bounds (-Binary64.scaled d) (pow_pos two_pos 1074)
  have hsub : Binary64.ceil d - 1 = -(-Binary64.scaled d / 2 ^ 1074 + 1) := by
    rw [Binary64.ceil]
    ring
  rw [hsub, units_neg]
  constructor
  · exact neg_lt.mp hlt
  · rw [Binary64.ceil, units_neg]
    exact le_neg.mp hle

/-- The comparison is exact: that of the two numbers. -/
theorem cmpIntDouble_eq (i : Int64) (d : UInt64) :
    cmpIntDouble i d =
      if Binary64.isNan d then none
      else some (compare (Binary64.units i.toInt) (Binary64.scaled d)) := by
  unfold cmpIntDouble
  by_cases hnan : Binary64.isNan d = true
  · rw [if_pos hnan, if_pos hnan]
  rw [if_neg hnan, if_neg hnan]
  have hhigh : Binary64.units i.toInt < two63 := units_lt i.toInt_lt
  have hlow : -two63 ≤ Binary64.units i.toInt := by
    rw [two63, ← units_neg]
    exact units_le i.le_toInt
  by_cases hge : two63 ≤ Binary64.scaled d
  · rw [if_pos hge, compare_lt_iff_lt.mpr (lt_of_lt_of_le hhigh hge)]
  rw [if_neg hge]
  by_cases hlt : Binary64.scaled d < -two63
  · rw [if_pos hlt, compare_gt_iff_gt.mpr (lt_of_lt_of_le hlt hlow)]
  rw [if_neg hlt]
  -- in range: the integer part decides, and the fraction where it ties
  have hsum := Binary64.scaled_eq_trunc_add d
  have hflt := fraction_lt d
  have hltf := lt_fraction d
  congr 1
  rcases lt_trichotomy i.toInt (Binary64.trunc d) with hcmp | hcmp | hcmp
  · have hle := units_add_one_le hcmp
    rw [compare_lt_iff_lt.mpr hcmp, eq_comm]
    exact compare_lt_iff_lt.mpr (by omega)
  · rw [compare_eq_iff_eq.mpr hcmp, hcmp]
    dsimp only
    split
    · rw [eq_comm]
      exact compare_lt_iff_lt.mpr (by omega)
    · split
      · rw [eq_comm]
        exact compare_gt_iff_gt.mpr (by omega)
      · rw [eq_comm]
        exact compare_eq_iff_eq.mpr (by omega)
  · have hle := units_add_one_le hcmp
    rw [compare_gt_iff_gt.mpr hcmp, eq_comm]
    exact compare_gt_iff_gt.mpr (by omega)

/-- An integer and a double compare equal where the double is the integer's value. -/
theorem cmpIntDouble_eq_iff (i : Int64) (d : UInt64) :
    cmpIntDouble i d = some .eq ↔
      Binary64.isNan d = false ∧ Binary64.units i.toInt = Binary64.scaled d := by
  rw [cmpIntDouble_eq]
  cases Binary64.isNan d with
  | true => simp
  | false => simp

private theorem cast_two_pow (n : Nat) : ((2 ^ n : Nat) : Int) = 2 ^ n := Nat.cast_pow 2 n

/-- An infinity or a NaN stands beyond every integer. -/
theorem isFinite_of_scaled_lt {d : UInt64} (hlt : Binary64.scaled d < two63)
    (hle : -two63 ≤ Binary64.scaled d) : Binary64.isFinite d = true := by
  by_contra hinf
  have hbits : 2047 * 2 ^ 52 ≤ Binary64.magnitudeBits d := by
    simpa [Binary64.isFinite] using hinf
  have hbeyond : two63 < (Binary64.unitsOf (2047 * 2 ^ 52) : Int) := by
    have hpow : (2 : Int) ^ 1137 < 2 ^ 2098 := pow_lt_pow_right₀ (by decide) (by decide)
    have htwo : two63 = 2 ^ 1137 := by
      rw [two63, Binary64.units, ← pow_add]
    have hinf : (Binary64.unitsOf (2047 * 2 ^ 52) : Int) = 2 ^ 2098 := by
      have hdiv : 2047 * 2 ^ 52 / 2 ^ 52 = 2047 := by decide
      have hmod : 2047 * 2 ^ 52 % 2 ^ 52 = 0 := by decide
      have hexp : 52 + (2047 - 1) = 2098 := by decide
      rw [Binary64.unitsOf, hdiv, hmod, if_neg (by decide), Nat.add_zero, ← pow_add, hexp]
      exact cast_two_pow 2098
    rwa [htwo, hinf]
  have hmono : Binary64.unitsOf (2047 * 2 ^ 52) ≤ Binary64.unitsOf (Binary64.magnitudeBits d) := by
    rcases Nat.eq_or_lt_of_le hbits with heq | hgt
    · rw [← heq]
    · exact Nat.le_of_lt (Binary64.unitsOf_lt hgt)
  unfold Binary64.scaled at hlt hle
  cases hs : Binary64.negative d with
  | true =>
    rw [hs, if_pos rfl] at hle
    omega
  | false =>
    rw [hs, if_neg (by decide)] at hlt
    omega

/-- Numbers in order are so by `total_cmp`. -/
theorem totalCmp_of_scaled_lt {a b : UInt64} (h : Binary64.scaled a < Binary64.scaled b) :
    totalCmp a b = .lt := by
  have hbits := (Binary64.scaled_lt_iff a b).mp h
  have ha := Binary64.toNat_eq a
  have hb := Binary64.toNat_eq b
  have hna : Binary64.negative a = true ↔ 2 ^ 63 ≤ a.toNat := by simp [Binary64.negative]
  have hnb : Binary64.negative b = true ↔ 2 ^ 63 ≤ b.toNat := by simp [Binary64.negative]
  rw [totalCmp]
  apply compare_lt_iff_lt.mpr
  unfold totalKey Binary64.signedBits at *
  split at ha <;> split at hb <;> simp_all <;> omega

theorem totalCmp_of_scaled_gt {a b : UInt64} (h : Binary64.scaled b < Binary64.scaled a) :
    totalCmp a b = .gt := by
  have hlt : totalKey b < totalKey a := compare_lt_iff_lt.mp (totalCmp_of_scaled_lt h)
  exact compare_gt_iff_gt.mpr hlt

/-- A double of an integer's value is whole, and in range. -/
structure Whole (i : Int64) (d : UInt64) : Prop where
  isFinite : Binary64.isFinite d = true
  fraction : Binary64.fraction d = 0
  trunc : Binary64.trunc d = i.toInt
  low : -two63 ≤ Binary64.scaled d
  high : Binary64.scaled d < two63

theorem whole_of_equal {i : Int64} {d : UInt64} (h : cmpIntDouble i d = some .eq) :
    Whole i d := by
  obtain ⟨-, hval⟩ := (cmpIntDouble_eq_iff i d).mp h
  have hlt : Binary64.scaled d < two63 := by
    rw [← hval]
    exact units_lt i.toInt_lt
  have hle : -two63 ≤ Binary64.scaled d := by
    rw [← hval, two63, ← units_neg]
    exact units_le i.le_toInt
  have hfrac : Binary64.fraction d = 0 := by
    rw [Binary64.fraction, ← hval, Binary64.units, Int.mul_tmod_left]
  have htrunc : Binary64.trunc d = i.toInt := by
    rw [Binary64.trunc, ← hval, Binary64.units]
    exact Int.mul_tdiv_cancel _ (by positivity)
  exact {
    isFinite := isFinite_of_scaled_lt hlt hle
    fraction := hfrac
    trunc := htrunc
    low := hle
    high := hlt }

/-- An integer and a double of its value hash as one. -/
theorem hashNormalized_of_equal {i : Int64} {d : UInt64} (h : cmpIntDouble i d = some .eq) :
    hashNormalized (.double d) = some (.integer i) := by
  have hwhole := whole_of_equal h
  rw [hashNormalized,
    if_pos ⟨hwhole.isFinite, hwhole.fraction, hwhole.low, hwhole.high⟩, hwhole.trunc,
    Int64.ofInt_toInt]

end SquealDb.Sql
