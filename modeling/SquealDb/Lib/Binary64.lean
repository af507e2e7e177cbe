import Mathlib.Data.Int.Order.Basic
import Mathlib.Order.Compare
import Mathlib.Tactic.Linarith
import Mathlib.Tactic.Ring

/-!
# Binary64 numbers by their bits

A double is its 64 bits.  Every finite one is a whole multiple of `2 ^ -1074`, so its
value is the integer `scaled`, exactly; the formula gives an infinity a value beyond
every finite one, which is all its comparisons need.  A NaN's value is never looked
at.  The bits below the sign, read as a number, order as the magnitudes do.

Nothing in this module names what the numbers are used for.
-/

namespace SquealDb.Lib.Binary64

/-- The sign bit. -/
def negative (d : UInt64) : Bool := decide (2 ^ 63 ≤ d.toNat)

/-- The bits below the sign, as a number. -/
def magnitudeBits (d : UInt64) : Nat := d.toNat % 2 ^ 63

/-- `is_nan`: the exponent all ones, and a fraction. -/
def isNan (d : UInt64) : Bool := decide (2047 * 2 ^ 52 < magnitudeBits d)

/-- `is_finite`: the exponent is not all ones. -/
def isFinite (d : UInt64) : Bool := decide (magnitudeBits d < 2047 * 2 ^ 52)

/-- The magnitude of the number whose bits below the sign are `m`, in units of
`2 ^ -1074`. -/
def unitsOf (m : Nat) : Nat :=
  if m / 2 ^ 52 = 0 then m % 2 ^ 52 else (2 ^ 52 + m % 2 ^ 52) * 2 ^ (m / 2 ^ 52 - 1)

/-- The value in units of `2 ^ -1074`. -/
def scaled (d : UInt64) : Int :=
  if negative d then -(unitsOf (magnitudeBits d) : Int) else unitsOf (magnitudeBits d)

/-- A whole number in units of `2 ^ -1074`. -/
def units (n : Int) : Int := n * 2 ^ 1074

/-- `trunc`, as an integer. -/
def trunc (d : UInt64) : Int := (scaled d).tdiv (2 ^ 1074)

/-- The number less its `trunc`, which is again a double, in units of `2 ^ -1074`. -/
def fraction (d : UInt64) : Int := (scaled d).tmod (2 ^ 1074)

/-- `partial_cmp`: a NaN compares with nothing, and the two zeros are equal. -/
def partialCmp (a b : UInt64) : Option Ordering :=
  if isNan a || isNan b then none else some (compare (scaled a) (scaled b))

/-- `==`. -/
def ieeeEq (a b : UInt64) : Bool := partialCmp a b == some .eq

/-- `+`, `-`, `*` and `/`: the exact result, rounded. -/
def add (a b : UInt64) : UInt64 := (Float.ofBits a + Float.ofBits b).toBits
@[inherit_doc add] def sub (a b : UInt64) : UInt64 := (Float.ofBits a - Float.ofBits b).toBits
@[inherit_doc add] def mul (a b : UInt64) : UInt64 := (Float.ofBits a * Float.ofBits b).toBits
@[inherit_doc add] def div (a b : UInt64) : UInt64 := (Float.ofBits a / Float.ofBits b).toBits

/-- Unary `-`: the sign bit turned over. -/
def neg (d : UInt64) : UInt64 := d ^^^ 0x8000000000000000

/-- `abs`: the sign bit cleared. -/
def abs (d : UInt64) : UInt64 := d &&& 0x7FFFFFFFFFFFFFFF

/-- The bits below the sign of the number of `n` units, where `n` has at most 53
significant bits. -/
def bitsOfUnits (n : Nat) : Nat :=
  if n < 2 ^ 52 then n
  else (n.log2 - 52 + 1) * 2 ^ 52 + (n / 2 ^ (n.log2 - 52) - 2 ^ 52)

/-- The number of 53 significant bits nearest a whole number, the even one of two. -/
def roundToEven (n : Nat) : Nat :=
  let k := n.log2 - 52
  let q := n / 2 ^ k
  let r := 2 * (n % 2 ^ k)
  if r < 2 ^ k ∨ (r = 2 ^ k ∧ q % 2 = 0) then q * 2 ^ k else (q + 1) * 2 ^ k

/-- `as f64`: the double nearest an integer below `2 ^ 1023`. -/
def ofInt (n : Int) : UInt64 :=
  UInt64.ofNat ((if n < 0 then 2 ^ 63 else 0) + bitsOfUnits (roundToEven n.natAbs * 2 ^ 1074))

/-- `floor` and `ceil`, as integers. -/
def floor (d : UInt64) : Int := scaled d / 2 ^ 1074
@[inherit_doc floor] def ceil (d : UInt64) : Int := -(-scaled d / 2 ^ 1074)

/-- `%`: what is left of the dividend, with its sign; always exact. -/
def rem (a b : UInt64) : UInt64 :=
  if isNan a || isNan b || !isFinite a || magnitudeBits b == 0 then 0x7FF8000000000000
  else if !isFinite b then a
  else
    UInt64.ofNat ((if negative a then 2 ^ 63 else 0) +
      bitsOfUnits (unitsOf (magnitudeBits a) % unitsOf (magnitudeBits b)))

variable {n u : Nat} {d : UInt64}

theorem unitsOf_lt {m : Nat} (h : m < n) : unitsOf m < unitsOf n := by
  have hm : m % 2 ^ 52 < 2 ^ 52 := Nat.mod_lt _ (by decide)
  have hdm := Nat.div_add_mod m (2 ^ 52)
  have hdn := Nat.div_add_mod n (2 ^ 52)
  have hle : m / 2 ^ 52 ≤ n / 2 ^ 52 := Nat.div_le_div_right (Nat.le_of_lt h)
  unfold unitsOf
  generalize m / 2 ^ 52 = e at *
  generalize n / 2 ^ 52 = e' at *
  generalize m % 2 ^ 52 = f at *
  generalize n % 2 ^ 52 = f' at *
  rcases Nat.eq_or_lt_of_le hle with rfl | hlt
  · have hf : f < f' := by omega
    by_cases he : e = 0
    · rw [if_pos he, if_pos he]
      exact hf
    · rw [if_neg he, if_neg he]
      exact Nat.mul_lt_mul_of_pos_right (by omega) (Nat.two_pow_pos _)
  · have he' : e' ≠ 0 := by omega
    rw [if_neg he']
    -- the exponents differ: a whole binade lies at or above the lower number's
    have hbinade : 2 ^ 52 * 2 ^ (e' - 1) ≤ (2 ^ 52 + f') * 2 ^ (e' - 1) :=
      Nat.mul_le_mul_right _ (Nat.le_add_right _ _)
    apply Nat.lt_of_lt_of_le _ hbinade
    by_cases he : e = 0
    · rw [if_pos he]
      calc f < 2 ^ 52 := hm
        _ = 2 ^ 52 * 1 := (Nat.mul_one _).symm
        _ ≤ 2 ^ 52 * 2 ^ (e' - 1) := Nat.mul_le_mul_left _ (Nat.two_pow_pos _)
    · rw [if_neg he]
      calc (2 ^ 52 + f) * 2 ^ (e - 1)
          < (2 ^ 52 + 2 ^ 52) * 2 ^ (e - 1) :=
            Nat.mul_lt_mul_of_pos_right (by omega) (Nat.two_pow_pos _)
        _ = 2 ^ 52 * 2 ^ (e - 1 + 1) := by rw [Nat.pow_succ]; ring
        _ ≤ 2 ^ 52 * 2 ^ (e' - 1) :=
            Nat.mul_le_mul_left _ (Nat.pow_le_pow_right (by decide) (by omega))

theorem unitsOf_lt_iff {m : Nat} : unitsOf m < unitsOf n ↔ m < n := by
  constructor
  · intro h
    by_contra hnot
    rcases Nat.eq_or_lt_of_le (Nat.le_of_not_lt hnot) with rfl | hlt
    · exact Nat.lt_irrefl _ h
    · exact Nat.lt_asymm h (unitsOf_lt hlt)
  · exact unitsOf_lt

theorem unitsOf_inj {m : Nat} (h : unitsOf m = unitsOf n) : m = n := by
  rcases Nat.lt_trichotomy m n with hlt | heq | hgt
  · exact absurd h (Nat.ne_of_lt (unitsOf_lt hlt))
  · exact heq
  · exact absurd h (Nat.ne_of_gt (unitsOf_lt hgt))

theorem unitsOf_zero : unitsOf 0 = 0 := rfl

/-- A double is its sign and the bits below it. -/
theorem toNat_eq (d : UInt64) :
    d.toNat = (if negative d then 2 ^ 63 else 0) + magnitudeBits d := by
  have hlt := d.toNat_lt
  simp only [negative, magnitudeBits, decide_eq_true_eq]
  split <;> omega

theorem ext_bits {a b : UInt64} (hs : negative a = negative b)
    (hm : magnitudeBits a = magnitudeBits b) : a = b := by
  apply UInt64.toNat_inj.mp
  rw [toNat_eq a, toNat_eq b, hs, hm]

/-- One value: the same bits, or both a zero. -/
theorem scaled_eq_iff (a b : UInt64) :
    scaled a = scaled b ↔ a = b ∨ (magnitudeBits a = 0 ∧ magnitudeBits b = 0) := by
  constructor
  · intro h
    by_cases hs : negative a = negative b
    · refine Or.inl (ext_bits hs (unitsOf_inj ?_))
      simp only [scaled, hs] at h
      split at h <;> omega
    · right
      have hz : unitsOf (magnitudeBits a) = 0 ∧ unitsOf (magnitudeBits b) = 0 := by
        cases ha : negative a <;> cases hb : negative b <;>
          simp only [scaled, ha, hb] at h hs <;> simp at h hs <;> omega
      exact ⟨unitsOf_inj (hz.1.trans unitsOf_zero.symm),
        unitsOf_inj (hz.2.trans unitsOf_zero.symm)⟩
  · rintro (rfl | ⟨ha, hb⟩)
    · rfl
    · simp [scaled, ha, hb, unitsOf_zero]

/-- The bits below the sign, signed. -/
def signedBits (d : UInt64) : Int :=
  if negative d then -(magnitudeBits d : Int) else magnitudeBits d

theorem scaled_lt_iff (a b : UInt64) : scaled a < scaled b ↔ signedBits a < signedBits b := by
  have hab : unitsOf (magnitudeBits a) < unitsOf (magnitudeBits b) ↔ _ := unitsOf_lt_iff
  have hba : unitsOf (magnitudeBits b) < unitsOf (magnitudeBits a) ↔ _ := unitsOf_lt_iff
  have ha : 0 < unitsOf (magnitudeBits a) ↔ 0 < magnitudeBits a := by
    have hpos := unitsOf_lt_iff (m := 0) (n := magnitudeBits a)
    rwa [unitsOf_zero] at hpos
  have hb : 0 < unitsOf (magnitudeBits b) ↔ 0 < magnitudeBits b := by
    have hpos := unitsOf_lt_iff (m := 0) (n := magnitudeBits b)
    rwa [unitsOf_zero] at hpos
  unfold scaled signedBits
  cases negative a <;> cases negative b <;> simp <;> omega

/-- A number is its `trunc` and its fraction. -/
theorem scaled_eq_trunc_add (d : UInt64) : scaled d = units (trunc d) + fraction d := by
  rw [units, trunc, fraction, mul_comm]
  exact (Int.mul_tdiv_add_tmod (scaled d) (2 ^ 1074)).symm

/-! ## Whole numbers -/

/-- The significand of a number of units with at most 53 significant bits. -/
private theorem significand_bounds (h : 2 ^ 52 ≤ u) :
    2 ^ 52 ≤ u / 2 ^ (u.log2 - 52) ∧ u / 2 ^ (u.log2 - 52) < 2 ^ 53 := by
  have hu : u ≠ 0 := by omega
  have hlog : 52 ≤ u.log2 := (Nat.le_log2 hu).mpr h
  have hk : 0 < 2 ^ (u.log2 - 52) := Nat.two_pow_pos _
  constructor
  · rw [Nat.le_div_iff_mul_le hk, ← Nat.pow_add, (show 52 + (u.log2 - 52) = u.log2 by omega)]
    exact Nat.log2_self_le hu
  · rw [Nat.div_lt_iff_lt_mul hk, ← Nat.pow_add,
      (show 53 + (u.log2 - 52) = u.log2 + 1 by omega)]
    exact Nat.lt_log2_self

theorem unitsOf_bits {k q : Nat} (hlow : 2 ^ 52 ≤ q) (hhigh : q < 2 ^ 53) :
    unitsOf ((k + 1) * 2 ^ 52 + (q - 2 ^ 52)) = q * 2 ^ k := by
  have hexp : ((k + 1) * 2 ^ 52 + (q - 2 ^ 52)) / 2 ^ 52 = k + 1 := by omega
  have hfrac : ((k + 1) * 2 ^ 52 + (q - 2 ^ 52)) % 2 ^ 52 = q - 2 ^ 52 := by omega
  rw [unitsOf, hexp, hfrac, if_neg (Nat.succ_ne_zero k), Nat.add_sub_cancel,
    Nat.add_sub_cancel' hlow]

/-- A number of units with at most 53 significant bits has the bits it is given. -/
theorem unitsOf_bitsOfUnits (h : 2 ^ (u.log2 - 52) ∣ u) : unitsOf (bitsOfUnits u) = u := by
  by_cases hsmall : u < 2 ^ 52
  · rw [bitsOfUnits, if_pos hsmall, unitsOf, Nat.div_eq_of_lt hsmall, if_pos rfl,
      Nat.mod_eq_of_lt hsmall]
  obtain ⟨hlow, hhigh⟩ := significand_bounds (Nat.le_of_not_lt hsmall)
  rw [bitsOfUnits, if_neg hsmall, unitsOf_bits hlow hhigh]
  exact Nat.div_mul_cancel h

theorem roundToEven_of_le (h : n ≤ 2 ^ 53) : roundToEven n = n := by
  rcases Nat.eq_or_lt_of_le h with rfl | hlt
  · decide
  · have hk : n.log2 - 52 = 0 := by
      by_cases hn : n = 0
      · rw [hn]
        decide
      · have hlog : n.log2 < 53 := (Nat.log2_lt hn).mpr hlt
        omega
    have hmod : n % 1 = 0 := Nat.mod_one n
    simp [roundToEven, hk, hmod]

private theorem log2_whole {e : Nat} (h : n ≤ 2 ^ 53) : (n * 2 ^ e).log2 ≤ 53 + e := by
  by_cases hn : n * 2 ^ e = 0
  · rw [hn]
    exact Nat.zero_le _
  · have hlt : n * 2 ^ e < 2 ^ (54 + e) := by
      rw [Nat.pow_add]
      exact Nat.mul_lt_mul_of_pos_right (by omega) (Nat.two_pow_pos e)
    have hlog := (Nat.log2_lt hn).mpr hlt
    omega

/-- A whole number of at most 53 bits keeps them as a number of units. -/
private theorem significant_whole (e : Nat) (h : n ≤ 2 ^ 53) :
    2 ^ ((n * 2 ^ e).log2 - 52) ∣ n * 2 ^ e := by
  rcases Nat.eq_or_lt_of_le h with rfl | hlt
  · have hlog := log2_whole (e := e) h
    rw [← Nat.pow_add] at hlog ⊢
    exact Nat.pow_dvd_pow 2 (by omega)
  · have hlog : (n * 2 ^ e).log2 - 52 ≤ e := by
      by_cases hn : n * 2 ^ e = 0
      · rw [hn]
        exact Nat.zero_le _
      · have hbound : n * 2 ^ e < 2 ^ (53 + e) := by
          rw [Nat.pow_add]
          exact Nat.mul_lt_mul_of_pos_right hlt (Nat.two_pow_pos e)
        have hlog := (Nat.log2_lt hn).mpr hbound
        omega
    exact Dvd.dvd.mul_left (Nat.pow_dvd_pow 2 hlog) n

theorem bitsOfUnits_lt : bitsOfUnits u < (u.log2 + 2) * 2 ^ 52 := by
  rw [bitsOfUnits]
  split
  · omega
  · rename_i hsmall
    obtain ⟨hlow, hhigh⟩ := significand_bounds (Nat.le_of_not_lt hsmall)
    omega

private theorem log2_mul_pow (e : Nat) (h : n ≠ 0) : (n * 2 ^ e).log2 = n.log2 + e := by
  induction e with
  | zero => rw [Nat.pow_zero, Nat.mul_one, Nat.add_zero]
  | succ e ih =>
    have hne : n * 2 ^ e ≠ 0 := Nat.mul_ne_zero h (Nat.two_pow_pos e).ne'
    rw [Nat.pow_succ, ← Nat.mul_assoc, Nat.mul_comm _ 2, Nat.log2_two_mul hne, ih]
    omega

private theorem log2_mul_pow_lt {a : Nat} (e : Nat) (ha : 0 < a) (h : n < 2 ^ a) :
    (n * 2 ^ e).log2 < a + e := by
  by_cases hn : n = 0
  · rw [hn, Nat.zero_mul]
    show 0 < a + e
    omega
  · have hlog := (Nat.log2_lt hn).mpr h
    rw [log2_mul_pow e hn]
    omega

/-! ## Rounding -/

/-- Rounding takes the multiple of the last place below a number, or the one above. -/
theorem roundToEven_cases (n : Nat) :
    roundToEven n = n / 2 ^ (n.log2 - 52) * 2 ^ (n.log2 - 52) ∨
      roundToEven n = (n / 2 ^ (n.log2 - 52) + 1) * 2 ^ (n.log2 - 52) ∧
        n % 2 ^ (n.log2 - 52) ≠ 0 := by
  simp only [roundToEven]
  split
  · exact Or.inl rfl
  · next hup =>
      refine Or.inr ⟨rfl, fun hzero => hup (Or.inl ?_)⟩
      rw [hzero]
      exact Nat.two_pow_pos _

/-- Only nought is rounded to nought. -/
theorem roundToEven_pos (n : Nat) : n = 0 ∨ 0 < roundToEven n := by
  by_cases hn : n = 0
  · exact Or.inl hn
  · have hlow : 0 < n / 2 ^ (n.log2 - 52) := by
      rw [Nat.div_pos_iff]
      refine ⟨Nat.two_pow_pos _, Nat.le_trans ?_ (Nat.log2_self_le hn)⟩
      exact Nat.pow_le_pow_right (by decide) (Nat.sub_le _ _)
    have hplace := Nat.two_pow_pos (n.log2 - 52)
    rcases roundToEven_cases n with h | ⟨h, -⟩
    · exact Or.inr (h ▸ Nat.mul_pos hlow hplace)
    · exact Or.inr (h ▸ Nat.mul_pos (Nat.succ_pos _) hplace)

private theorem quotient_lt (n : Nat) : n / 2 ^ (n.log2 - 52) < 2 ^ 53 := by
  rw [Nat.div_lt_iff_lt_mul (Nat.two_pow_pos _), ← Nat.pow_add]
  exact Nat.lt_of_lt_of_le Nat.lt_log2_self (Nat.pow_le_pow_right (by decide) (by omega))

/-- A rounded number has at most 53 significant bits. -/
theorem roundToEven_whole (n : Nat) : ∃ q ≤ 2 ^ 53, roundToEven n = q * 2 ^ (n.log2 - 52) := by
  have hq := quotient_lt n
  rcases roundToEven_cases n with h | ⟨h, -⟩
  · exact ⟨_, Nat.le_of_lt hq, h⟩
  · exact ⟨_, hq, h⟩

theorem roundToEven_significant (n e : Nat) :
    2 ^ ((roundToEven n * 2 ^ e).log2 - 52) ∣ roundToEven n * 2 ^ e := by
  obtain ⟨q, hq, h⟩ := roundToEven_whole n
  rw [h, Nat.mul_assoc, ← Nat.pow_add]
  exact significant_whole _ hq

/-- A number of 53 significant bits above a multiple of the last place is the next one at
least. -/
private theorem next_place {e : Nat} (hu : 2 ^ (u.log2 - 52) ∣ u)
    (h : n / 2 ^ (n.log2 - 52) * 2 ^ (n.log2 - 52) * 2 ^ e < u) (hn : n % 2 ^ (n.log2 - 52) ≠ 0) :
    (n / 2 ^ (n.log2 - 52) + 1) * 2 ^ (n.log2 - 52) * 2 ^ e ≤ u := by
  generalize hk : n.log2 - 52 = k at *
  have hlog : n.log2 = k + 52 := by
    by_cases hsmall : n.log2 ≤ 52
    · have hzero : k = 0 := by omega
      rw [hzero, Nat.pow_zero, Nat.mod_one] at hn
      exact absurd rfl hn
    · omega
  have hne : n ≠ 0 := by
    rintro rfl
    exact hn (Nat.zero_mod _)
  have hfloor : 2 ^ (52 + (k + e)) < u := by
    refine Nat.lt_of_le_of_lt ?_ h
    have hlow : 2 ^ 52 ≤ n / 2 ^ k := by
      rw [Nat.le_div_iff_mul_le (Nat.two_pow_pos k), ← Nat.pow_add]
      exact (Nat.le_log2 hne).mp (by omega)
    calc 2 ^ (52 + (k + e)) = 2 ^ 52 * 2 ^ k * 2 ^ e := by
          rw [Nat.pow_add, Nat.pow_add, Nat.mul_assoc]
      _ ≤ n / 2 ^ k * 2 ^ k * 2 ^ e :=
        Nat.mul_le_mul_right _ (Nat.mul_le_mul_right _ hlow)
  have hune : u ≠ 0 := by omega
  have hulog : 52 + (k + e) ≤ u.log2 := (Nat.le_log2 hune).mpr (Nat.le_of_lt hfloor)
  obtain ⟨a, ha⟩ := (Nat.pow_dvd_pow 2 (show k + e ≤ u.log2 - 52 by omega)).trans hu
  rw [Nat.mul_assoc, ← Nat.pow_add] at h ⊢
  rw [ha, Nat.mul_comm (2 ^ (k + e))] at h ⊢
  exact Nat.mul_le_mul_right _ (Nat.lt_of_mul_lt_mul_right h)

/-- Rounding passes no number of 53 significant bits. -/
theorem roundToEven_le {e : Nat} (hu : 2 ^ (u.log2 - 52) ∣ u) (h : n * 2 ^ e ≤ u) :
    roundToEven n * 2 ^ e ≤ u := by
  have hfloor : n / 2 ^ (n.log2 - 52) * 2 ^ (n.log2 - 52) ≤ n := Nat.div_mul_le_self _ _
  rcases roundToEven_cases n with hr | ⟨hr, hn⟩
  · rw [hr]
    exact Nat.le_trans (Nat.mul_le_mul_right _ hfloor) h
  · rw [hr]
    refine next_place hu (Nat.lt_of_lt_of_le ?_ h) hn
    refine Nat.mul_lt_mul_of_pos_right ?_ (Nat.two_pow_pos e)
    have hdm := Nat.div_add_mod' n (2 ^ (n.log2 - 52))
    omega

theorem le_roundToEven {e : Nat} (hu : 2 ^ (u.log2 - 52) ∣ u) (h : u ≤ n * 2 ^ e) :
    u ≤ roundToEven n * 2 ^ e := by
  have hfloor : u ≤ n / 2 ^ (n.log2 - 52) * 2 ^ (n.log2 - 52) * 2 ^ e := by
    by_contra hlt
    by_cases hn : n % 2 ^ (n.log2 - 52) = 0
    · rw [Nat.div_mul_cancel (Nat.dvd_of_mod_eq_zero hn)] at hlt
      exact hlt h
    · have hnext := next_place hu (Nat.lt_of_not_le hlt) hn
      have hbelow : n < (n / 2 ^ (n.log2 - 52) + 1) * 2 ^ (n.log2 - 52) := by
        rw [Nat.mul_comm]
        exact Nat.lt_mul_div_succ n (Nat.two_pow_pos _)
      have hscaled := Nat.mul_lt_mul_of_pos_right hbelow (Nat.two_pow_pos e)
      omega
  rcases roundToEven_cases n with hr | ⟨hr, -⟩
  · rw [hr]
    exact hfloor
  · rw [hr]
    refine Nat.le_trans hfloor (Nat.mul_le_mul_right _ (Nat.mul_le_mul_right _ ?_))
    exact Nat.le_succ _

/-- Rounding keeps the order. -/
theorem roundToEven_mono {m : Nat} (h : m ≤ n) : roundToEven m ≤ roundToEven n := by
  by_cases hm : m = 0
  · subst hm
    exact Nat.zero_le _
  have hn : n ≠ 0 := by omega
  have hlog : m.log2 ≤ n.log2 := (Nat.le_log2 hn).mpr (Nat.le_trans (Nat.log2_self_le hm) h)
  rcases Nat.eq_or_lt_of_le hlog with heq | hlt
  · -- in one binade, the quotients and then the remainders tell
    simp only [roundToEven, heq]
    have hdm := Nat.div_add_mod' m (2 ^ (n.log2 - 52))
    have hdn := Nat.div_add_mod' n (2 ^ (n.log2 - 52))
    have hq : m / 2 ^ (n.log2 - 52) ≤ n / 2 ^ (n.log2 - 52) := Nat.div_le_div_right h
    have hrm := Nat.mod_lt m (Nat.two_pow_pos (n.log2 - 52))
    have hrn := Nat.mod_lt n (Nat.two_pow_pos (n.log2 - 52))
    generalize 2 ^ (n.log2 - 52) = w at *
    generalize m / w = qm at *
    generalize n / w = qn at *
    generalize m % w = rm at *
    generalize n % w = rn at *
    rcases Nat.eq_or_lt_of_le hq with rfl | hqlt
    · have hstep : qm * w ≤ (qm + 1) * w := Nat.mul_le_mul_right _ (Nat.le_succ _)
      split
      · split
        · exact Nat.le_refl _
        · exact hstep
      · next hup =>
          rw [if_neg]
          omega
    · have hstep : (qm + 1) * w ≤ qn * w := Nat.mul_le_mul_right _ hqlt
      have hsucc : qm * w ≤ (qm + 1) * w := Nat.mul_le_mul_right _ (Nat.le_succ _)
      have hlast : qn * w ≤ (qn + 1) * w := Nat.mul_le_mul_right _ (Nat.le_succ _)
      split
      · split
        · omega
        · omega
      · split
        · omega
        · omega
  · -- a power of two lies between
    have hpow : 2 ^ ((2 ^ (m.log2 + 1)).log2 - 52) ∣ 2 ^ (m.log2 + 1) := by
      rw [Nat.log2_two_pow]
      exact Nat.pow_dvd_pow 2 (by omega)
    have hlow := roundToEven_le (n := m) (e := 0) hpow (by
      rw [Nat.pow_zero, Nat.mul_one]
      exact Nat.le_of_lt Nat.lt_log2_self)
    have hhigh := le_roundToEven (n := n) (e := 0) hpow (by
      rw [Nat.pow_zero, Nat.mul_one]
      exact (Nat.le_log2 hn).mp hlt)
    rw [Nat.pow_zero, Nat.mul_one] at hlow hhigh
    exact Nat.le_trans hlow hhigh
/-- The bits of the double nearest an integer: its sign and its rounded magnitude's. -/
theorem ofInt_bits_rounded {n : Int} (hsize : n.natAbs ≤ 2 ^ 64) :
    negative (ofInt n) = decide (n < 0) ∧
      magnitudeBits (ofInt n) = bitsOfUnits (roundToEven n.natAbs * 2 ^ 1074) ∧
      bitsOfUnits (roundToEven n.natAbs * 2 ^ 1074) < 1140 * 2 ^ 52 := by
  have hround : roundToEven n.natAbs < 2 ^ 65 := by
    have hmono := roundToEven_mono hsize
    rw [(show roundToEven (2 ^ 64) = 2 ^ 64 by decide +kernel)] at hmono
    exact Nat.lt_of_le_of_lt hmono (by decide)
  have hlog := log2_mul_pow_lt 1074 (by decide) hround
  have hlt : bitsOfUnits (roundToEven n.natAbs * 2 ^ 1074) < 1140 * 2 ^ 52 :=
    Nat.lt_of_lt_of_le bitsOfUnits_lt (Nat.mul_le_mul_right _ (by omega))
  have hword : UInt64.size = 2 ^ 64 := rfl
  rw [ofInt]
  generalize bitsOfUnits (roundToEven n.natAbs * 2 ^ 1074) = m at *
  by_cases hn : n < 0
  · have hnat : (UInt64.ofNat (2 ^ 63 + m)).toNat = 2 ^ 63 + m :=
      UInt64.toNat_ofNat_of_lt' (by omega)
    simp only [hn, if_true, negative, magnitudeBits, hnat, decide_true, decide_eq_true_eq]
    refine ⟨?_, ?_, hlt⟩ <;> omega
  · have hnat : (UInt64.ofNat (0 + m)).toNat = 0 + m := UInt64.toNat_ofNat_of_lt' (by omega)
    simp only [hn, if_false, negative, magnitudeBits, hnat, decide_false, decide_eq_false_iff_not]
    refine ⟨?_, ?_, hlt⟩ <;> omega

/-- A magnitude rounded, with its sign. -/
def rounded (n : Int) : Int := if n < 0 then -(roundToEven n.natAbs : Int) else roundToEven n.natAbs

theorem scaled_ofInt_rounded {n : Int} (hsize : n.natAbs ≤ 2 ^ 64) :
    scaled (ofInt n) = units (rounded n) ∧ isNan (ofInt n) = false := by
  obtain ⟨hs, hm, hlt⟩ := ofInt_bits_rounded hsize
  constructor
  · rw [scaled, hs, hm, unitsOf_bitsOfUnits (roundToEven_significant _ _), units, rounded]
    by_cases hn : n < 0
    · rw [decide_eq_true hn, if_pos rfl, if_pos hn, Nat.cast_mul, Nat.cast_pow, Nat.cast_ofNat,
        neg_mul]
    · rw [decide_eq_false hn, if_neg (by decide), if_neg hn, Nat.cast_mul, Nat.cast_pow,
        Nat.cast_ofNat]
  · rw [isNan, hm, decide_eq_false_iff_not]
    generalize bitsOfUnits (roundToEven n.natAbs * 2 ^ 1074) = m at *
    omega

theorem rounded_of_exact {n : Int} (hround : roundToEven n.natAbs = n.natAbs) : rounded n = n := by
  rw [rounded, hround]
  split <;> omega

/-- The double of an integer that rounding leaves is that number. -/
theorem scaled_ofInt_of_exact {n : Int} (hround : roundToEven n.natAbs = n.natAbs)
    (hsize : n.natAbs < 2 ^ 64) : scaled (ofInt n) = units n ∧ isNan (ofInt n) = false := by
  have h := scaled_ofInt_rounded (Nat.le_of_lt hsize)
  rwa [rounded_of_exact hround] at h

private theorem small_lt (h : n ≤ 2 ^ 53) : n < 2 ^ 64 :=
  Nat.lt_of_le_of_lt h (by decide)

/-- An integer of at most 53 bits is a double exactly. -/
theorem scaled_ofInt {n : Int} (h : n.natAbs ≤ 2 ^ 53) : scaled (ofInt n) = units n :=
  (scaled_ofInt_of_exact (roundToEven_of_le h) (small_lt h)).1

theorem isNan_ofInt {n : Int} (h : n.natAbs ≤ 2 ^ 53) : isNan (ofInt n) = false :=
  (scaled_ofInt_of_exact (roundToEven_of_le h) (small_lt h)).2

/-- The units of a double have at most 53 significant bits. -/
theorem unitsOf_significant (m : Nat) : 2 ^ ((unitsOf m).log2 - 52) ∣ unitsOf m := by
  rw [unitsOf]
  split
  · have hlt : m % 2 ^ 52 < 2 ^ 52 := Nat.mod_lt _ (by decide)
    have hlog : (m % 2 ^ 52).log2 - 52 = 0 := by
      by_cases hm : m % 2 ^ 52 = 0
      · rw [hm]
        decide
      · have hlog := (Nat.log2_lt hm).mpr hlt
        omega
    rw [hlog]
    exact one_dvd _
  · generalize m / 2 ^ 52 - 1 = k
    have hlt : m % 2 ^ 52 < 2 ^ 52 := Nat.mod_lt _ (by decide)
    have hpos : (2 ^ 52 + m % 2 ^ 52) * 2 ^ k ≠ 0 := by positivity
    have hbound : (2 ^ 52 + m % 2 ^ 52) * 2 ^ k < 2 ^ (53 + k) := by
      rw [Nat.pow_add]
      exact Nat.mul_lt_mul_of_pos_right (by omega) (Nat.two_pow_pos k)
    have hlog := (Nat.log2_lt hpos).mpr hbound
    exact Dvd.dvd.mul_left (Nat.pow_dvd_pow 2 (by omega)) _

/-- A whole number that is a double has at most 53 significant bits itself. -/
theorem roundToEven_of_unitsOf {m : Nat} (h : n * 2 ^ 1074 = unitsOf m) : roundToEven n = n := by
  by_cases hsmall : n ≤ 2 ^ 53
  · exact roundToEven_of_le hsmall
  have hn : n ≠ 0 := by omega
  have hlog := log2_mul_pow 1074 hn
  have hbig : 53 ≤ n.log2 := (Nat.le_log2 hn).mpr (by omega)
  have hdvd := unitsOf_significant m
  rw [← h, hlog, (show n.log2 + 1074 - 52 = (n.log2 - 52) + 1074 by omega), Nat.pow_add] at hdvd
  have hwhole : 2 ^ (n.log2 - 52) ∣ n := Nat.dvd_of_mul_dvd_mul_right (Nat.two_pow_pos 1074) hdvd
  have hrest : n % 2 ^ (n.log2 - 52) = 0 := Nat.mod_eq_zero_of_dvd hwhole
  rw [roundToEven]
  simp only [hrest, Nat.mul_zero, Nat.two_pow_pos, true_or, if_true]
  exact Nat.div_mul_cancel hwhole

theorem scaled_natAbs (d : UInt64) : (scaled d).natAbs = unitsOf (magnitudeBits d) := by
  rw [scaled]
  split
  · rw [Int.natAbs_neg, Int.natAbs_natCast]
  · rw [Int.natAbs_natCast]

/-- An integer that is a double's value is the value of the double nearest it. -/
theorem ofInt_of_scaled {n : Int} (hsize : n.natAbs < 2 ^ 64) (h : units n = scaled d) :
    scaled (ofInt n) = scaled d ∧ isNan (ofInt n) = false := by
  have habs : n.natAbs * 2 ^ 1074 = unitsOf (magnitudeBits d) := by
    have hnat := congrArg Int.natAbs h
    rw [units, Int.natAbs_mul, Int.natAbs_pow] at hnat
    exact hnat.trans (scaled_natAbs d)
  obtain ⟨hscaled, hnan⟩ := scaled_ofInt_of_exact (roundToEven_of_unitsOf habs) hsize
  exact ⟨hscaled.trans h, hnan⟩

/-- A double's magnitude has at most 53 significant bits. -/
theorem scaled_significant (d : UInt64) :
    2 ^ ((scaled d).natAbs.log2 - 52) ∣ (scaled d).natAbs := by
  rw [scaled_natAbs]
  exact unitsOf_significant _

/-- Rounding an integer passes no double. -/
theorem rounded_le {n : Int} (h : units n ≤ scaled d) :
    units (rounded n) ≤ scaled d := by
  have hsig := scaled_significant d
  have hcast : ∀ r : Nat, units r = ((r * 2 ^ 1074 : Nat) : Int) := fun r => by
    rw [units, Nat.cast_mul, Nat.cast_pow, Nat.cast_ofNat]
  rw [rounded]
  split
  · next hneg =>
      -- the magnitude of a negative double is at most that of the integer
      have hn : units n = -((n.natAbs * 2 ^ 1074 : Nat) : Int) := by
        rw [← hcast, Int.natCast_natAbs, abs_of_neg hneg, units, units, neg_mul, neg_neg]
      have hr : units (-(roundToEven n.natAbs : Int)) =
          -((roundToEven n.natAbs * 2 ^ 1074 : Nat) : Int) := by
        rw [← hcast, units, units, neg_mul]
      rw [hr]
      by_cases hd : 0 ≤ scaled d
      · omega
      · have hle := le_roundToEven (n := n.natAbs) (e := 1074) hsig (by omega)
        omega
  · next hpos =>
      have hn : units n = ((n.natAbs * 2 ^ 1074 : Nat) : Int) := by
        rw [← hcast, Int.natCast_natAbs, abs_of_nonneg (by omega)]
      rw [hcast]
      have hle := roundToEven_le (n := n.natAbs) (e := 1074) hsig (by omega)
      omega

theorem le_rounded {n : Int} (h : scaled d ≤ units n) :
    scaled d ≤ units (rounded n) := by
  have hsig := scaled_significant d
  have hcast : ∀ r : Nat, units r = ((r * 2 ^ 1074 : Nat) : Int) := fun r => by
    rw [units, Nat.cast_mul, Nat.cast_pow, Nat.cast_ofNat]
  rw [rounded]
  split
  · next hneg =>
      have hn : units n = -((n.natAbs * 2 ^ 1074 : Nat) : Int) := by
        rw [← hcast, Int.natCast_natAbs, abs_of_neg hneg, units, units, neg_mul, neg_neg]
      have hr : units (-(roundToEven n.natAbs : Int)) =
          -((roundToEven n.natAbs * 2 ^ 1074 : Nat) : Int) := by
        rw [← hcast, units, units, neg_mul]
      rw [hr]
      have hle := roundToEven_le (n := n.natAbs) (e := 1074) hsig (by omega)
      omega
  · next hpos =>
      have hn : units n = ((n.natAbs * 2 ^ 1074 : Nat) : Int) := by
        rw [← hcast, Int.natCast_natAbs, abs_of_nonneg (by omega)]
      rw [hcast]
      by_cases hd : scaled d ≤ 0
      · omega
      · have hle := le_roundToEven (n := n.natAbs) (e := 1074) hsig (by omega)
        omega

theorem rounded_mono {m n : Int} (h : m ≤ n) : rounded m ≤ rounded n := by
  rw [rounded, rounded]
  split
  · split
    · have hmono := roundToEven_mono (show n.natAbs ≤ m.natAbs by omega)
      omega
    · omega
  · rw [if_neg (by omega)]
    have hmono := roundToEven_mono (show m.natAbs ≤ n.natAbs by omega)
    omega

end SquealDb.Lib.Binary64
