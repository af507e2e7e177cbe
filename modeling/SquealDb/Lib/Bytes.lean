import Mathlib.Data.Nat.Basic
import Mathlib.Tactic.Ring

/-!
# Numbers as bytes

Fixed-width big-endian and little-endian numbers over `UInt8`, the order of byte
strings, and LEB128.  A number of `n` bytes keeps the value modulo `256 ^ n`,
and big-endian ones compare, as byte strings, as their values do.

Nothing in this module names a particular format.

## Main results

* `compare_append` — byte strings of one length decide before what follows.
* `compare_beBytes`, `ofBe_beBytes` — big-endian numbers order and read back.
* `compare_firstBytes` — how strings begin decides their order.
* `ofLe_leBytes` — little-endian numbers read back.
-/

namespace SquealDb.Lib

/-! ## Comparing byte strings -/

section Compare

variable {β : Type*} [Ord β]

/-- Two strings of one length decide before what follows them. -/
theorem compare_append {xs ys : List β} (hlen : xs.length = ys.length) (us vs : List β) :
    compare (xs ++ us) (ys ++ vs) = (compare xs ys).then (compare us vs) := by
  induction xs generalizing ys with
  | nil =>
    cases ys with
    | nil => rfl
    | cons y ys => simp at hlen
  | cons x xs ih =>
    cases ys with
    | nil => simp at hlen
    | cons y ys =>
      simp only [List.cons_append, List.compare_cons_cons]
      rw [ih (by simpa using hlen), Ordering.then_assoc]

/-- What two strings begin with alike decides nothing. -/
theorem compare_append_left [Std.ReflOrd β] (xs us vs : List β) :
    compare (xs ++ us) (xs ++ vs) = compare us vs := by
  have hrefl : compare xs xs = .eq := Std.ReflCmp.compare_self
  rw [compare_append rfl, hrefl]
  rfl

end Compare

/-- Comparisons agree where the strict orders do. -/
theorem compare_eq_of_lt_iff {α β : Type*} [LE α] [LT α] [Ord α] [Std.LawfulOrderOrd α]
    [Std.LawfulOrderLT α] [LE β] [LT β] [Ord β] [Std.LawfulOrderOrd β] [Std.LawfulOrderLT β]
    {a b : α} {c d : β} (hlt : a < b ↔ c < d) (hgt : b < a ↔ d < c) :
    compare a b = compare c d := by
  cases h : compare c d with
  | lt => exact Std.compare_eq_lt.mpr (hlt.mpr (Std.compare_eq_lt.mp h))
  | gt => exact Std.compare_eq_gt.mpr (hgt.mpr (Std.compare_eq_gt.mp h))
  | eq =>
    cases h' : compare a b with
    | eq => rfl
    | lt =>
      rw [Std.compare_eq_lt.mpr (hlt.mp (Std.compare_eq_lt.mp h'))] at h
      cases h
    | gt =>
      rw [Std.compare_eq_gt.mpr (hgt.mp (Std.compare_eq_gt.mp h'))] at h
      cases h

theorem compare_uint8 (a b : UInt8) : compare a b = compare a.toNat b.toNat :=
  compare_eq_of_lt_iff UInt8.lt_iff_toNat_lt UInt8.lt_iff_toNat_lt

theorem compare_uint64 (a b : UInt64) : compare a b = compare a.toNat b.toNat :=
  compare_eq_of_lt_iff UInt64.lt_iff_toNat_lt UInt64.lt_iff_toNat_lt

theorem compare_int64 (a b : Int64) : compare a b = compare a.toInt b.toInt :=
  compare_eq_of_lt_iff Int64.lt_iff_toInt_lt Int64.lt_iff_toInt_lt

private theorem compare_byte {m n : Nat} (hm : m < 256) (hn : n < 256) :
    compare (UInt8.ofNat m) (UInt8.ofNat n) = compare m n := by
  rw [compare_uint8, UInt8.toNat_ofNat', UInt8.toNat_ofNat', Nat.mod_eq_of_lt hm,
    Nat.mod_eq_of_lt hn]

/-- Numbers compare by their high parts first. -/
private theorem compare_mul_add {B q q' r r' : Nat} (hr : r < B) (hr' : r' < B) :
    compare (r + B * q) (r' + B * q') = (compare q q').then (compare r r') := by
  rcases Nat.lt_trichotomy q q' with h | h | h
  · have hlt : r + B * q < r' + B * q' := by
      calc r + B * q < B * (q + 1) := by
            rw [Nat.mul_succ]
            omega
        _ ≤ B * q' := Nat.mul_le_mul_left B h
        _ ≤ r' + B * q' := Nat.le_add_left _ _
    rw [Nat.compare_eq_lt.mpr hlt, Nat.compare_eq_lt.mpr h]
    rfl
  · subst h
    rw [Nat.compare_eq_eq.mpr rfl]
    simp only [Ordering.then]
    exact compare_eq_of_lt_iff (by omega) (by omega)
  · have hlt : r' + B * q' < r + B * q := by
      calc r' + B * q' < B * (q' + 1) := by
            rw [Nat.mul_succ]
            omega
        _ ≤ B * q := Nat.mul_le_mul_left B h
        _ ≤ r + B * q := Nat.le_add_left _ _
    rw [Nat.compare_eq_gt.mpr hlt, Nat.compare_eq_gt.mpr h]
    rfl

/-! ## Big-endian numbers -/

/-- The `n` low bytes of `v`, highest first. -/
def beBytes : Nat → Nat → List UInt8
  | 0, _ => []
  | n + 1, v => UInt8.ofNat (v / 256 ^ n % 256) :: beBytes n v

/-- The number a big-endian byte string is. -/
def ofBe (bytes : List UInt8) : Nat := bytes.foldl (fun v b => v * 256 + b.toNat) 0

@[simp] theorem length_beBytes (n v : Nat) : (beBytes n v).length = n := by
  induction n with
  | zero => rfl
  | succ n ih => simp [beBytes, ih]

theorem drop_beBytes {m n : Nat} (h : n ≤ m) (v : Nat) :
    (beBytes m v).drop (m - n) = beBytes n v := by
  induction m with
  | zero =>
    obtain rfl : n = 0 := by omega
    rfl
  | succ m ih =>
    by_cases hn : n = m + 1
    · rw [hn, Nat.sub_self, List.drop_zero]
    · rw [show m + 1 - n = (m - n) + 1 by omega, beBytes, List.drop_succ_cons]
      exact ih (by omega)

theorem ofBe_foldl (acc : Nat) (bytes : List UInt8) :
    bytes.foldl (fun v b => v * 256 + b.toNat) acc = acc * 256 ^ bytes.length + ofBe bytes := by
  induction bytes generalizing acc with
  | nil => simp [ofBe]
  | cons b bytes ih =>
    simp only [ofBe, List.foldl_cons, Nat.zero_mul, Nat.zero_add, List.length_cons]
    rw [ih, ih (b.toNat), Nat.pow_succ]
    ring

theorem ofBe_beBytes (n v : Nat) : ofBe (beBytes n v) = v % 256 ^ n := by
  induction n with
  | zero => simp [beBytes, ofBe, Nat.mod_one]
  | succ n ih =>
    have hbyte : (UInt8.ofNat (v / 256 ^ n % 256)).toNat = v / 256 ^ n % 256 := by simp
    rw [beBytes, ofBe, List.foldl_cons, ofBe_foldl, ih, length_beBytes, hbyte,
      Nat.mod_pow_succ (b := 256)]
    ring

/-- Big-endian numbers compare as their values do. -/
theorem compare_beBytes_mod (n v w : Nat) :
    compare (beBytes n v) (beBytes n w) = compare (v % 256 ^ n) (w % 256 ^ n) := by
  induction n with
  | zero => simp [beBytes, Nat.mod_one]
  | succ n ih =>
    have hpos : 0 < 256 ^ n := Nat.pow_pos (by decide)
    rw [beBytes, beBytes, List.compare_cons_cons, ih,
      compare_byte (Nat.mod_lt _ (by decide)) (Nat.mod_lt _ (by decide)),
      Nat.mod_pow_succ, Nat.mod_pow_succ]
    exact (compare_mul_add (Nat.mod_lt v hpos) (Nat.mod_lt w hpos)).symm

theorem compare_beBytes {n v w : Nat} (hv : v < 256 ^ n) (hw : w < 256 ^ n) :
    compare (beBytes n v) (beBytes n w) = compare v w := by
  rw [compare_beBytes_mod, Nat.mod_eq_of_lt hv, Nat.mod_eq_of_lt hw]

theorem ofBe_cons (b : UInt8) (bytes : List UInt8) :
    ofBe (b :: bytes) = ofBe bytes + 256 ^ bytes.length * b.toNat := by
  rw [ofBe, List.foldl_cons, ofBe_foldl]
  ring

theorem ofBe_lt (bytes : List UInt8) : ofBe bytes < 256 ^ bytes.length := by
  induction bytes with
  | nil => decide
  | cons b bytes ih =>
    have hb : b.toNat < 256 := b.toNat_lt
    rw [ofBe_cons, List.length_cons, Nat.pow_succ]
    calc ofBe bytes + 256 ^ bytes.length * b.toNat
        < 256 ^ bytes.length + 256 ^ bytes.length * b.toNat := by omega
      _ = 256 ^ bytes.length * (b.toNat + 1) := by ring
      _ ≤ 256 ^ bytes.length * 256 := Nat.mul_le_mul_left _ hb

/-- Byte strings of one length compare as the numbers they are. -/
theorem compare_ofBe {xs ys : List UInt8} (hlen : xs.length = ys.length) :
    compare (ofBe xs) (ofBe ys) = compare xs ys := by
  induction xs generalizing ys with
  | nil =>
    cases ys with
    | nil => rfl
    | cons y ys => simp at hlen
  | cons x xs ih =>
    cases ys with
    | nil => simp at hlen
    | cons y ys =>
      have hrest : xs.length = ys.length := by simpa using hlen
      have hx := ofBe_lt xs
      have hy := ofBe_lt ys
      rw [hrest] at hx
      rw [ofBe_cons, ofBe_cons, hrest, compare_mul_add hx hy, ih hrest, List.compare_cons_cons,
        compare_uint8]

/-! ## The beginning of a byte string -/

/-- The first `n` bytes of a string, zeros where it ends before. -/
def firstBytes : Nat → List UInt8 → List UInt8
  | 0, _ => []
  | n + 1, [] => 0 :: firstBytes n []
  | n + 1, b :: bytes => b :: firstBytes n bytes

@[simp] theorem length_firstBytes (n : Nat) (bytes : List UInt8) :
    (firstBytes n bytes).length = n := by
  induction n generalizing bytes with
  | zero => rfl
  | succ n ih => cases bytes <;> simp [firstBytes, ih]

theorem firstBytes_eq (n : Nat) (bytes : List UInt8) :
    firstBytes n bytes = bytes.take n ++ List.replicate (n - (bytes.take n).length) 0 := by
  induction n generalizing bytes with
  | zero => rfl
  | succ n ih =>
    cases bytes with
    | nil =>
      have hrest := ih []
      rw [List.take_nil, List.nil_append, List.length_nil, Nat.sub_zero] at hrest
      rw [firstBytes, hrest]
      rfl
    | cons b bytes =>
      rw [firstBytes, ih, List.take_succ_cons, List.length_cons, Nat.add_sub_add_right]
      rfl

/-- Strings whose beginnings differ compare as these do. -/
theorem compare_firstBytes {n : Nat} {xs ys : List UInt8}
    (h : compare (firstBytes n xs) (firstBytes n ys) ≠ .eq) :
    compare (firstBytes n xs) (firstBytes n ys) = compare xs ys := by
  induction n generalizing xs ys with
  | zero => exact absurd rfl h
  | succ n ih =>
    cases xs with
    | nil =>
      cases ys with
      | nil =>
        have hrefl : compare (firstBytes (n + 1) []) (firstBytes (n + 1) []) = .eq :=
          Std.ReflCmp.compare_self
        exact absurd hrefl h
      | cons y ys =>
        rw [firstBytes, firstBytes, List.compare_cons_cons] at h ⊢
        by_cases hy : y = 0
        · subst hy
          have hzero : compare (0 : UInt8) 0 = .eq := rfl
          rw [hzero, Ordering.eq_then] at h ⊢
          have hrest := ih h
          rw [hrest] at h ⊢
          cases ys with
          | nil => exact absurd rfl h
          | cons z zs => rfl
        · have hlt : compare (0 : UInt8) y = .lt := by
            have hne : y.toNat ≠ 0 := fun h0 => hy (UInt8.toNat_inj.mp h0)
            rw [compare_uint8, Nat.compare_eq_lt]
            exact Nat.pos_of_ne_zero hne
          rw [hlt]
          rfl
    | cons x xs =>
      cases ys with
      | nil =>
        rw [firstBytes, firstBytes, List.compare_cons_cons] at h ⊢
        by_cases hx : x = 0
        · subst hx
          have hzero : compare (0 : UInt8) 0 = .eq := rfl
          rw [hzero, Ordering.eq_then] at h ⊢
          have hrest := ih h
          rw [hrest] at h ⊢
          cases xs with
          | nil => exact absurd rfl h
          | cons z zs => rfl
        · have hgt : compare x (0 : UInt8) = .gt := by
            have hne : x.toNat ≠ 0 := fun h0 => hx (UInt8.toNat_inj.mp h0)
            rw [compare_uint8, Nat.compare_eq_gt]
            exact Nat.pos_of_ne_zero hne
          rw [hgt]
          rfl
      | cons y ys =>
        rw [firstBytes, firstBytes, List.compare_cons_cons] at h ⊢
        rw [List.compare_cons_cons]
        cases hxy : compare x y with
        | lt => rfl
        | gt => rfl
        | eq =>
          rw [hxy, Ordering.eq_then] at h
          rw [Ordering.eq_then, Ordering.eq_then]
          exact ih h

/-! ## Little-endian numbers -/

/-- The `n` low bytes of `v`, lowest first. -/
def leBytes : Nat → Nat → List UInt8
  | 0, _ => []
  | n + 1, v => UInt8.ofNat (v % 256) :: leBytes n (v / 256)

/-- The number a little-endian byte string is. -/
def ofLe (bytes : List UInt8) : Nat := bytes.foldr (fun b v => b.toNat + 256 * v) 0

@[simp] theorem length_leBytes (n v : Nat) : (leBytes n v).length = n := by
  induction n generalizing v with
  | zero => rfl
  | succ n ih => simp [leBytes, ih]

theorem ofLe_leBytes (n v : Nat) : ofLe (leBytes n v) = v % 256 ^ n := by
  induction n generalizing v with
  | zero => simp [leBytes, ofLe, Nat.mod_one]
  | succ n ih =>
    have hrest : (leBytes n (v / 256)).foldr (fun b v => b.toNat + 256 * v) 0 =
        v / 256 % 256 ^ n := ih (v / 256)
    rw [leBytes, ofLe, List.foldr_cons, hrest, UInt8.toNat_ofNat', Nat.mod_mod,
      Nat.pow_succ', Nat.mod_mul]

theorem ofLe_lt (bytes : List UInt8) : ofLe bytes < 256 ^ bytes.length := by
  induction bytes with
  | nil => decide
  | cons b bytes ih =>
    have hb := b.toNat_lt
    have hrest : bytes.foldr (fun b v => b.toNat + 256 * v) 0 < 256 ^ bytes.length := ih
    rw [ofLe, List.foldr_cons, List.length_cons, Nat.pow_succ]
    omega

end SquealDb.Lib
