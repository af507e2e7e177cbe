import SquealDb.Lib.Bytes
import Mathlib.Data.Nat.Log

/-!
# LEB128

A number as groups of seven bits, lowest first, each in a byte whose high bit
says that another follows.

Nothing in this module names a particular format.
-/

namespace SquealDb.Lib

/-- The groups of a number, with fuel for that many and one more. -/
def leb128Fuel : Nat → Nat → List UInt8
  | 0, n => [UInt8.ofNat n]
  | fuel + 1, n =>
    if n < 128 then [UInt8.ofNat n]
    else UInt8.ofNat (n % 128 + 128) :: leb128Fuel fuel (n / 128)

/-- A number as LEB128. -/
def leb128 (n : Nat) : List UInt8 := leb128Fuel n n

/-- More fuel than there are groups changes nothing. -/
theorem leb128Fuel_eq {k m n : Nat} (hk : n < 128 ^ (k + 1)) (hm : n < 128 ^ (m + 1)) :
    leb128Fuel k n = leb128Fuel m n := by
  induction k generalizing m n with
  | zero =>
    have hn : n < 128 := by simpa using hk
    cases m with
    | zero => rfl
    | succ m => simp [leb128Fuel, hn]
  | succ k ih =>
    cases m with
    | zero =>
      have hn : n < 128 := by simpa using hm
      simp [leb128Fuel, hn]
    | succ m =>
      rw [leb128Fuel, leb128Fuel]
      split
      · rfl
      · have hk' : n / 128 < 128 ^ (k + 1) :=
          Nat.div_lt_of_lt_mul (by rw [← Nat.pow_succ']; exact hk)
        have hm' : n / 128 < 128 ^ (m + 1) :=
          Nat.div_lt_of_lt_mul (by rw [← Nat.pow_succ']; exact hm)
        rw [ih hk' hm']

private theorem lt_pow_succ (n : Nat) : n < 128 ^ (n + 1) :=
  Nat.lt_of_lt_of_le (Nat.lt_pow_self (by decide)) (Nat.pow_le_pow_right (by decide) (by omega))

theorem leb128Fuel_eq_leb128 {k n : Nat} (hk : n < 128 ^ (k + 1)) : leb128Fuel k n = leb128 n :=
  leb128Fuel_eq hk (lt_pow_succ n)

theorem leb128_eq (n : Nat) :
    leb128 n = if n < 128 then [UInt8.ofNat n]
      else UInt8.ofNat (n % 128 + 128) :: leb128 (n / 128) := by
  cases n with
  | zero => rfl
  | succ n =>
    rw [leb128, leb128Fuel]
    split
    · rfl
    · rw [leb128Fuel_eq_leb128]
      have hle : (n + 1) / 128 ≤ n := by omega
      exact Nat.lt_of_le_of_lt hle (lt_pow_succ n)

/-- How many groups of seven bits a number takes: at least one. -/
def groups (n : Nat) : Nat := (Nat.log2 n + 7) / 7

theorem groups_of_lt {n : Nat} (h : n < 128) : groups n = 1 := by
  have hlog : Nat.log2 n < 7 := by
    by_cases h0 : n = 0
    · rw [h0]
      decide
    · exact (Nat.log2_lt h0).mpr h
  rw [groups]
  omega

theorem groups_div {n : Nat} (h : 128 ≤ n) : groups n = groups (n / 128) + 1 := by
  have hne : n / 128 ≠ 0 := by omega
  have hlog : Nat.log2 n = Nat.log2 (n / 128) + 7 := by
    refine (Nat.log2_eq_iff (by omega)).mpr ?_
    have hlow : 2 ^ Nat.log2 (n / 128) ≤ n / 128 := Nat.log2_self_le hne
    have hhigh : n / 128 < 2 ^ (Nat.log2 (n / 128) + 1) := Nat.lt_log2_self
    have hpow : ∀ k, 2 ^ (k + 7) = 128 * 2 ^ k := fun k => by rw [Nat.pow_add, Nat.mul_comm]
    rw [show Nat.log2 (n / 128) + 7 + 1 = Nat.log2 (n / 128) + 1 + 7 by omega, hpow, hpow]
    omega
  rw [groups, groups, hlog]
  omega

theorem length_leb128 (n : Nat) : (leb128 n).length = groups n := by
  induction n using Nat.strongRecOn with
  | ind n ih =>
    rw [leb128_eq]
    split
    · next h => rw [groups_of_lt h, List.length_singleton]
    · next h => rw [List.length_cons, ih (n / 128) (by omega), ← groups_div (by omega)]

end SquealDb.Lib
