import SquealDb.Doc.Keys
import SquealDb.Lib.OrderCode

/-!
# The order of values

MongoDB's comparison of values is that of their codes, lists of integers: the type first, then a
number's exact value, a string's bytes, or the codes of what an array or a document holds, each
with a mark before it.  So it is a linear preorder, and `values_equal` an equivalence.
-/

namespace SquealDb.Doc.Value

open Lib

/-! ## Numbers -/

/-- A number's exact value in units of `2 ^ -1074`; none for NaN. -/
def exact : Value → Option Int
  | int i => some (Binary64.units i.toInt)
  | double d => if Binary64.isNan d then none else some (Binary64.scaled d)
  | _ => none

/-- Below every number for NaN, then by value. -/
def exactCode (v : Value) : List Int :=
  match v.exact with
  | none => [0, 0]
  | some n => [1, n]

theorem compare_units (m n : Int) : Ord.compare (Binary64.units m) (Binary64.units n) =
    Ord.compare m n := by
  have hpos : (0 : Int) < 2 ^ 1074 := Int.pow_pos (by decide)
  have hlt : ∀ a b : Int, Binary64.units a < Binary64.units b ↔ a < b :=
    fun a b => Int.mul_lt_mul_right hpos
  rcases Int.lt_trichotomy m n with h | h | h
  · rw [Std.compare_eq_lt.mpr h, Std.compare_eq_lt.mpr ((hlt m n).mpr h)]
  · rw [h, Std.compare_self, Std.compare_self]
  · rw [Std.compare_eq_gt.mpr h, Std.compare_eq_gt.mpr ((hlt n m).mpr h)]

theorem scaled_two63 : Binary64.scaled two63 = Binary64.units (2 ^ 63) := by decide +kernel

theorem scaled_minusTwo63 : Binary64.scaled minusTwo63 = Binary64.units (-2 ^ 63) := by
  decide +kernel

/-- The sign of the fraction is that of the number less its whole part. -/
theorem fraction_lt (d : UInt64) : (Binary64.fraction d).natAbs < 2 ^ 1074 := by
  have h := Int.natAbs_tmod (Binary64.scaled d) (2 ^ 1074)
  rw [Binary64.fraction, h]
  exact Nat.mod_lt _ (Int.natAbs_pos.mpr (Int.pow_ne_zero (by decide)))

variable {d : UInt64} {a b : Value}

/-- An integer and a double compare exactly. -/
theorem cmpIntDouble_eq (i : Int64) (h : Binary64.isNan d = false) :
    cmpIntDouble i d = Ord.compare (Binary64.units i.toInt) (Binary64.scaled d) := by
  have hlow : -2 ^ 63 ≤ i.toInt := Int64.le_toInt i
  have hhigh : i.toInt < 2 ^ 63 := Int64.toInt_lt i
  have hpos : (0 : Int) < 2 ^ 1074 := Int.pow_pos (by decide)
  have hnan : Binary64.isNan two63 = false := by decide
  have hnan' : Binary64.isNan minusTwo63 = false := by decide
  unfold cmpIntDouble
  simp only [h, Binary64.partialCmp, hnan, hnan', Bool.or_self, Bool.false_eq_true, if_false,
    scaled_two63, scaled_minusTwo63, Option.some.injEq, ne_eq, Std.compare_eq_lt, Int.not_lt]
  split
  · next hbig =>
      -- at or above every integer
      have hlt : Binary64.units i.toInt < Binary64.units (2 ^ 63) :=
        (Int.mul_lt_mul_right hpos).mpr hhigh
      exact (Std.compare_eq_lt.mpr (Int.lt_of_lt_of_le hlt hbig)).symm
  · split
    · next hsmall =>
        have hle : Binary64.units (-2 ^ 63) ≤ Binary64.units i.toInt :=
          Int.mul_le_mul_of_nonneg_right hlow (Int.le_of_lt hpos)
        exact (Std.compare_eq_gt.mpr (Int.lt_of_lt_of_le hsmall hle)).symm
    · -- the whole parts decide, and then the fraction
      have hfrac := fraction_lt d
      have hsplit := Binary64.scaled_eq_trunc_add d
      generalize Binary64.trunc d = whole at *
      generalize Binary64.fraction d = frac at *
      rw [hsplit]
      have hunits : ∀ a b : Int, a < b → Binary64.units a + 2 ^ 1074 ≤ Binary64.units b := by
        intro a b hab
        have hstep : Binary64.units (a + 1) ≤ Binary64.units b :=
          Int.mul_le_mul_of_nonneg_right hab (Int.le_of_lt hpos)
        have hone : Binary64.units (a + 1) = Binary64.units a + 2 ^ 1074 := by
          rw [Binary64.units, Binary64.units, Int.add_mul, Int.one_mul]
        rwa [hone] at hstep
      have habs : -2 ^ 1074 < frac ∧ frac < 2 ^ 1074 := by
        generalize hunit : (2 : Nat) ^ 1074 = unit at hfrac
        have hcast : (2 : Int) ^ 1074 = (unit : Int) := by
          rw [← hunit, Int.natCast_pow]
          rfl
        rw [hcast]
        omega
      generalize (2 : Int) ^ 1074 = unit at *
      rcases Int.lt_trichotomy i.toInt whole with hlt | heq | hgt
      · have hstep := hunits _ _ hlt
        rw [Std.compare_eq_lt.mpr hlt]
        exact (Std.compare_eq_lt.mpr (by omega)).symm
      · rw [heq, Std.compare_self]
        dsimp only
        split
        · exact (Std.compare_eq_lt.mpr (by omega)).symm
        · split
          · exact (Std.compare_eq_gt.mpr (by omega)).symm
          · have hzero : frac = 0 := by omega
            rw [hzero, Int.add_zero, Std.compare_self]
      · have hstep := hunits _ _ hgt
        rw [Std.compare_eq_gt.mpr hgt]
        exact (Std.compare_eq_gt.mpr (by omega)).symm

theorem exactCode_int (i : Int64) : (int i).exactCode = [1, Binary64.units i.toInt] := rfl

theorem exactCode_nan (h : Binary64.isNan d = true) :
    (double d).exactCode = [0, 0] := by
  rw [exactCode, exact, if_pos h]

theorem exactCode_double (h : Binary64.isNan d = false) :
    (double d).exactCode = [1, Binary64.scaled d] := by
  rw [exactCode, exact, if_neg (by rw [h]; decide)]

theorem compare_one (m n : Int) : Ord.compare [1, m] [1, n] = Ord.compare m n := by
  rw [List.compare_cons_cons, List.compare_cons_cons, Std.compare_self]
  simp

theorem cmpF64_eq (x y : UInt64) :
    cmpF64 x y = Ord.compare (double x).exactCode (double y).exactCode := by
  unfold cmpF64
  cases hx : Binary64.isNan x with
  | true =>
    rw [exactCode_nan hx]
    cases hy : Binary64.isNan y with
    | true =>
      rw [exactCode_nan hy]
      rfl
    | false =>
      rw [exactCode_double hy]
      rfl
  | false =>
    rw [exactCode_double hx]
    cases hy : Binary64.isNan y with
    | true =>
      rw [exactCode_nan hy]
      rfl
    | false =>
      rw [exactCode_double hy, compare_one]
      simp [Binary64.partialCmp, hx, hy]

/-- A number. -/
def IsNumber : Value → Prop
  | int _ | double _ => True
  | _ => False

/-- Numbers compare by their exact values. -/
theorem compareNumbers_eq (ha : a.IsNumber) (hb : b.IsNumber) :
    compareNumbers a b = Ord.compare a.exactCode b.exactCode := by
  have hmixed : ∀ (i : Int64) (d : UInt64), cmpIntDouble i d =
      Ord.compare (int i).exactCode (double d).exactCode := by
    intro i d
    cases hd : Binary64.isNan d with
    | true =>
      rw [exactCode_int, exactCode_nan hd, cmpIntDouble, if_pos hd]
      rfl
    | false => rw [exactCode_int, exactCode_double hd, compare_one, cmpIntDouble_eq i hd]
  cases a with
  | int i =>
    cases b with
    | int j =>
      rw [compareNumbers, compare_int64, ← compare_units, exactCode_int, exactCode_int,
        compare_one]
    | double d => exact hmixed i d
    | _ => exact hb.elim
  | double d =>
    cases b with
    | int i =>
      rw [compareNumbers, hmixed, ← Std.OrientedOrd.eq_swap]
    | double d' => exact cmpF64_eq d d'
    | _ => exact hb.elim
  | _ => exact ha.elim

/-! ## Codes -/

/-- Bytes, and an end below every byte. -/
def bytesCode (bytes : List UInt8) : List Int := bytes.map (fun b => (b.toNat : Int) + 1) ++ [0]

mutual

/-- The code of a value: its type, and then what it is. -/
def code : Value → List Int
  | null => [2]
  | int i => 3 :: (int i).exactCode
  | double d => 3 :: (double d).exactCode
  | string s => 4 :: bytesCode (Codec.asBytes s)
  | document fields => 5 :: codeFields fields
  | array items => 6 :: codeItems items
  | objectId id => 8 :: bytesCode id.bytes
  | bool b => [9, if b then 1 else 0]
  | date ms => [10, ms.toInt]

def codeItems : List Value → List Int
  | [] => [0]
  | v :: rest => 1 :: (code v ++ codeItems rest)

def codeFields : List (String × Value) → List Int
  | [] => [0]
  | (key, v) :: rest => 1 :: (code v ++ (bytesCode (Codec.asBytes key) ++ codeFields rest))

end

theorem compare_natCast (m n : Nat) : Ord.compare (m : Int) n = Ord.compare m n := by
  rcases Nat.lt_trichotomy m n with h | h | h
  · rw [Std.compare_eq_lt.mpr h, Std.compare_eq_lt.mpr (Int.ofNat_lt.mpr h)]
  · rw [h, Std.compare_self, Std.compare_self]
  · rw [Std.compare_eq_gt.mpr h, Std.compare_eq_gt.mpr (Int.ofNat_lt.mpr h)]

theorem orderCode_bytes : OrderCode Ord.compare (fun _ => True) bytesCode := by
  intro s t us vs _ _
  unfold bytesCode
  induction s generalizing t with
  | nil =>
    cases t with
    | nil => simp [List.compare_cons_cons]
    | cons b t =>
      have hlt : (0 : Int) < (b.toNat : Int) + 1 := by omega
      simp [List.compare_cons_cons, Std.compare_eq_lt.mpr hlt]
  | cons a s ih =>
    cases t with
    | nil =>
      have hgt : (0 : Int) < (a.toNat : Int) + 1 := by omega
      simp [List.compare_cons_cons, Std.compare_eq_gt.mpr hgt]
    | cons b t =>
      have hhead : Ord.compare ((a.toNat : Int) + 1) ((b.toNat : Int) + 1) =
          Ord.compare a b := by
        rw [compare_uint8, ← compare_natCast]
        rcases Int.lt_trichotomy (a.toNat : Int) b.toNat with h | h | h
        · rw [Std.compare_eq_lt.mpr h, Std.compare_eq_lt.mpr (by omega)]
        · rw [h, Std.compare_self, Std.compare_self]
        · rw [Std.compare_eq_gt.mpr h, Std.compare_eq_gt.mpr (by omega)]
      simp only [List.map_cons, List.cons_append, List.compare_cons_cons, hhead, ih,
        Ordering.then_assoc]

theorem code_cons (v : Value) : ∃ rest, v.code = (v.typeOrder : Int) :: rest := by
  cases v with
  | _ => exact ⟨_, rfl⟩

theorem exactCode_length (v : Value) : v.exactCode.length = 2 := by
  unfold exactCode
  split <;> rfl

/-- Codes of one length compare before what is behind them. -/
private theorem compare_append_of_length {as bs : List Int} (h : as.length = bs.length)
    (us vs : List Int) : Ord.compare (as ++ us) (bs ++ vs) =
      (Ord.compare as bs).then (Ord.compare us vs) := by
  induction as generalizing bs with
  | nil =>
    cases bs with
    | nil => rfl
    | cons b bs => cases h
  | cons a as ih =>
    cases bs with
    | nil => cases h
    | cons b bs =>
      rw [List.cons_append, List.cons_append, List.compare_cons_cons,
        List.compare_cons_cons, ih (Nat.succ.inj h), Ordering.then_assoc]

theorem compare_of_typeOrder (h : a.typeOrder ≠ b.typeOrder) :
    a.compare b = Ord.compare a.typeOrder b.typeOrder := by
  unfold compare
  rw [if_pos h]

private theorem compare_cons_same (n : Int) (us vs : List Int) :
    Ord.compare (n :: us) (n :: vs) = Ord.compare us vs := by
  rw [List.compare_cons_cons, Std.compare_self]
  rfl

theorem compare_numbers (ha : a.IsNumber) (hb : b.IsNumber) :
    a.compare b = compareNumbers a b := by
  cases a with
  | int i =>
    cases b with
    | int j => simp [compare, typeOrder]
    | double d => simp [compare, typeOrder]
    | _ => exact hb.elim
  | double d =>
    cases b with
    | int i => simp [compare, typeOrder]
    | double d' => simp [compare, typeOrder]
    | _ => exact hb.elim
  | _ => exact ha.elim

theorem IsNumber.code_eq {v : Value} (h : v.IsNumber) : v.code = 3 :: v.exactCode := by
  cases v with
  | int i => rfl
  | double d => rfl
  | _ => exact h.elim

/-- Numbers compare as their codes do. -/
theorem compare_code_numbers (ha : a.IsNumber) (hb : b.IsNumber) (us vs : List Int) :
    Ord.compare (a.code ++ us) (b.code ++ vs) =
      (a.compare b).then (Ord.compare us vs) := by
  rw [ha.code_eq, hb.code_eq, List.cons_append, List.cons_append, compare_cons_same,
    compare_append_of_length (by rw [exactCode_length, exactCode_length]), compare_numbers ha hb,
    compareNumbers_eq ha hb]

mutual

/-- Values compare as their codes do, before anything behind them. -/
theorem compare_code (a b : Value) (us vs : List Int) :
    Ord.compare (a.code ++ us) (b.code ++ vs) = (a.compare b).then (Ord.compare us vs) := by
  by_cases h : a.typeOrder = b.typeOrder
  · match a, b with
    | null, null => simp [code, compare]
    | bool x, bool y =>
      cases x <;> cases y <;> simp [code, compare, List.compare_cons_cons] <;> rfl
    | int i, int j =>
      exact compare_code_numbers (a := int i) (b := int j) trivial trivial us vs
    | int i, double d =>
      exact compare_code_numbers (a := int i) (b := double d) trivial trivial us vs
    | double d, int i =>
      exact compare_code_numbers (a := double d) (b := int i) trivial trivial us vs
    | double d, double d' =>
      exact compare_code_numbers (a := double d) (b := double d') trivial trivial us vs
    | string s, string t =>
      rw [code, code, List.cons_append, List.cons_append, compare_cons_same,
        orderCode_bytes _ _ _ _ trivial trivial]
      simp [compare, typeOrder]
    | objectId x, objectId y =>
      rw [code, code, List.cons_append, List.cons_append, compare_cons_same,
        orderCode_bytes _ _ _ _ trivial trivial]
      simp [compare, typeOrder]
    | date x, date y =>
      simp [code, compare, typeOrder, List.compare_cons_cons, compare_int64]
    | array xs, array ys =>
      rw [code, code, List.cons_append, List.cons_append, compare_cons_same,
        compare_codeItems xs ys us vs]
      simp [compare, typeOrder]
    | document xs, document ys =>
      rw [code, code, List.cons_append, List.cons_append, compare_cons_same,
        compare_codeFields xs ys us vs]
      simp [compare, typeOrder]
  · obtain ⟨as, ha⟩ := code_cons a
    obtain ⟨bs, hb⟩ := code_cons b
    have hne : Ord.compare a.typeOrder b.typeOrder ≠ .eq := by
      intro heq
      exact h (Nat.compare_eq_eq.mp heq)
    rw [ha, hb, List.cons_append, List.cons_append, List.compare_cons_cons, compare_natCast,
      compare_of_typeOrder h]
    generalize Ord.compare a.typeOrder b.typeOrder = o at *
    cases o with
    | eq => exact absurd rfl hne
    | lt => rfl
    | gt => rfl

theorem compare_codeItems (xs ys : List Value) (us vs : List Int) :
    Ord.compare (codeItems xs ++ us) (codeItems ys ++ vs) =
      (compareItems xs ys).then (Ord.compare us vs) := by
  match xs, ys with
  | [], [] => simp [codeItems, compareItems]
  | [], y :: ys => rfl
  | x :: xs, [] => rfl
  | x :: xs, y :: ys =>
    rw [codeItems, codeItems, compareItems, List.cons_append, List.cons_append,
      compare_cons_same, List.append_assoc, List.append_assoc, compare_code x y,
      compare_codeItems xs ys us vs, Ordering.then_assoc]

theorem compare_codeFields (xs ys : List (String × Value)) (us vs : List Int) :
    Ord.compare (codeFields xs ++ us) (codeFields ys ++ vs) =
      (compareFields xs ys).then (Ord.compare us vs) := by
  match xs, ys with
  | [], [] => simp [codeFields, compareFields]
  | [], (ky, vy) :: ys => rfl
  | (kx, vx) :: xs, [] => rfl
  | (kx, vx) :: xs, (ky, vy) :: ys =>
    rw [codeFields, codeFields, compareFields, List.cons_append, List.cons_append,
      compare_cons_same]
    simp only [List.append_assoc]
    rw [compare_code vx vy, orderCode_bytes _ _ _ _ trivial trivial,
      compare_codeFields xs ys us vs, Ordering.then_assoc, Ordering.then_assoc]

end

/-- Values compare as their codes. -/
theorem compare_eq (a b : Value) : a.compare b = Ord.compare a.code b.code := by
  have h := compare_code a b [] []
  rw [List.append_nil, List.append_nil, Std.compare_self] at h
  rw [h]
  cases a.compare b <;> rfl

instance : Std.TransCmp compare where
  eq_swap := by
    intro a b
    rw [compare_eq, compare_eq]
    exact Std.OrientedOrd.eq_swap
  isLE_trans := by
    intro a b c hab hbc
    rw [compare_eq] at hab hbc ⊢
    exact Std.TransOrd.isLE_trans hab hbc

/-- Values are equal when their codes are. -/
theorem valuesEqual_iff (a b : Value) : a.valuesEqual b = true ↔ a.code = b.code := by
  rw [valuesEqual, compare_eq, beq_iff_eq]
  exact Std.LawfulEqOrd.compare_eq_iff_eq

/-- Equal values are of one type. -/
theorem typeOrder_of_valuesEqual (h : a.valuesEqual b = true) :
    a.typeOrder = b.typeOrder := by
  obtain ⟨as, ha⟩ := code_cons a
  obtain ⟨bs, hb⟩ := code_cons b
  rw [valuesEqual_iff, ha, hb] at h
  exact Int.ofNat_inj.mp (List.cons.inj h).1

/-! ## Equal values in a key -/

/-- The double of a number's exact value has the bytes of any other double of it. -/
theorem sortableF64_of_scaled {x y : UInt64} (hx : Binary64.isNan x = false)
    (hy : Binary64.isNan y = false) (h : Binary64.scaled x = Binary64.scaled y) :
    sortableF64 x = sortableF64 y := by
  have hzero : ∀ d : UInt64, Binary64.magnitudeBits d = 0 → Binary64.ieeeEq d 0 = true := by
    intro d hd
    have hnan : Binary64.isNan d = false := by
      rw [Binary64.isNan, hd]
      decide
    have hsame : Binary64.scaled d = Binary64.scaled 0 :=
      (Binary64.scaled_eq_iff d 0).mpr (Or.inr ⟨hd, rfl⟩)
    rw [Binary64.ieeeEq, Binary64.partialCmp, hnan, hsame, Std.compare_self]
    rfl
  rcases (Binary64.scaled_eq_iff x y).mp h with heq | ⟨hx0, hy0⟩
  · rw [heq]
  · simp only [sortableF64, hx, hy, hzero x hx0, hzero y hy0, if_true]

theorem bytesCode_injective {as bs : List UInt8} (h : bytesCode as = bytesCode bs) : as = bs := by
  have hmap := List.append_cancel_right h
  refine List.map_injective_iff.mpr (fun x y hxy => ?_) hmap
  have hnat : x.toNat = y.toNat := by
    have hxy : (x.toNat : Int) + 1 = y.toNat + 1 := hxy
    omega
  exact UInt8.toNat_inj.mp hnat

theorem numberBytes_int_double {i : Int64} (hd : Binary64.isNan d = false)
    (h : Binary64.units i.toInt = Binary64.scaled d) :
    numberBytes (.int i) = numberBytes (.double d) := by
  have hsize : i.toInt.natAbs < 2 ^ 64 := by
    have hlow : -2 ^ 63 ≤ i.toInt := Int64.le_toInt i
    have hhigh : i.toInt < 2 ^ 63 := Int64.toInt_lt i
    omega
  obtain ⟨hscaled, hnan⟩ := Binary64.ofInt_of_scaled hsize h
  have htrunc : Binary64.trunc (Binary64.ofInt i.toInt) = i.toInt := by
    rw [Binary64.trunc, hscaled, ← h, Binary64.units]
    exact Int.mul_tdiv_cancel _ (Int.pow_ne_zero (by decide))
  simp only [numberBytes]
  rw [sortableF64_of_scaled hnan hd hscaled, htrunc, Int.sub_self]
  rfl

/-- Equal numbers have the same bytes. -/
theorem numberBytes_of_exactCode (ha : a.IsNumber) (hb : b.IsNumber)
    (h : a.exactCode = b.exactCode) : numberBytes a = numberBytes b := by
  have hdouble : ∀ x y : UInt64, (double x).exactCode = (double y).exactCode →
      numberBytes (.double x) = numberBytes (.double y) := by
    intro x y hxy
    simp only [numberBytes]
    cases hx : Binary64.isNan x with
    | true =>
      cases hy : Binary64.isNan y with
      | true => simp only [sortableF64, hx, hy, if_true]
      | false =>
        rw [exactCode_nan hx, exactCode_double hy] at hxy
        cases hxy
    | false =>
      cases hy : Binary64.isNan y with
      | true =>
        rw [exactCode_double hx, exactCode_nan hy] at hxy
        cases hxy
      | false =>
        rw [exactCode_double hx, exactCode_double hy] at hxy
        rw [sortableF64_of_scaled hx hy (List.cons.inj (List.cons.inj hxy).2).1]
  have hmixed : ∀ (i : Int64) (d : UInt64), (int i).exactCode = (double d).exactCode →
      numberBytes (.int i) = numberBytes (.double d) := by
    intro i d hid
    cases hd : Binary64.isNan d with
    | true =>
      rw [exactCode_int, exactCode_nan hd] at hid
      cases hid
    | false =>
      rw [exactCode_int, exactCode_double hd] at hid
      exact numberBytes_int_double hd (List.cons.inj (List.cons.inj hid).2).1
  cases a with
  | int i =>
    cases b with
    | int j =>
      have hunits := (List.cons.inj (List.cons.inj h).2).1
      rw [Binary64.units, Binary64.units] at hunits
      have hij := Int.eq_of_mul_eq_mul_right (Int.pow_ne_zero (by decide)) hunits
      rw [Int64.toInt_inj.mp hij]
    | double d => exact hmixed i d h
    | _ => exact hb.elim
  | double d =>
    cases b with
    | int i => exact (hmixed i d h.symm).symm
    | double d' => exact hdouble d d' h
    | _ => exact hb.elim
  | _ => exact ha.elim

/-- Equal values have one code, unless they are documents or arrays. -/
theorem encode_of_valuesEqual (h : a.valuesEqual b = true) (hplain : ordersLikeMongo a = true) :
    encode a = encode b := by
  have htype := typeOrder_of_valuesEqual h
  rw [valuesEqual_iff] at h
  have hpayload : payload a = payload b := by
    have hnumbers : a.IsNumber → b.IsNumber → numberBytes a = numberBytes b := by
      intro ha hb
      rw [ha.code_eq, hb.code_eq] at h
      exact numberBytes_of_exactCode ha hb (List.cons.inj h).2
    cases a with
    | array items => cases hplain
    | document fields => cases hplain
    | int i =>
      cases b with
      | int j => exact congrArg blob (hnumbers trivial trivial)
      | double d => exact congrArg blob (hnumbers trivial trivial)
      | _ => cases htype
    | double d =>
      cases b with
      | int j => exact congrArg blob (hnumbers trivial trivial)
      | double d' => exact congrArg blob (hnumbers trivial trivial)
      | _ => cases htype
    | null =>
      cases b with
      | null => rfl
      | _ => cases htype
    | bool x =>
      cases b with
      | bool y =>
        have hxy := (List.cons.inj (List.cons.inj h).2).1
        cases x <;> cases y <;> first | rfl | cases hxy
      | _ => cases htype
    | string s =>
      cases b with
      | string s' => rw [Codec.asBytes_inj (bytesCode_injective (List.cons.inj h).2)]
      | _ => cases htype
    | objectId id =>
      cases b with
      | objectId id' =>
        exact congrArg blob (bytesCode_injective (List.cons.inj h).2)
      | _ => cases htype
    | date ms =>
      cases b with
      | date ms' => rw [Int64.toInt_inj.mp (List.cons.inj (List.cons.inj h).2).1]
      | _ => cases htype
  rw [encode, encode, hpayload, bracket, bracket, htype]
end SquealDb.Doc.Value
