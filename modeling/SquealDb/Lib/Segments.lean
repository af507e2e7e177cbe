import Mathlib.Data.List.Basic

/-!
# Parts of a concatenation

Parts put one behind another are found again by where each of them ends: a part starts
where the one before it ends.

A bitmap is a list of bytes; bit `i` is bit `i % 8` of byte `i / 8`.

Nothing in this module names a particular format.
-/

namespace SquealDb.Lib

variable {α : Type}

/-- How far the first `i` parts reach. -/
def reach (parts : List (List α)) (i : Nat) : Nat := (parts.take i).flatten.length

/-- Where each part ends, the first starting at `start`. -/
def ends : Nat → List (List α) → List Nat
  | _, [] => []
  | start, p :: parts => (start + p.length) :: ends (start + p.length) parts

@[simp] theorem reach_zero (parts : List (List α)) : reach parts 0 = 0 := rfl

theorem reach_length (parts : List (List α)) : reach parts parts.length = parts.flatten.length := by
  rw [reach, List.take_length]

variable {parts : List (List α)} {i : Nat}

theorem reach_succ {p : List α} (h : parts[i]? = some p) :
    reach parts (i + 1) = reach parts i + p.length := by
  rw [reach, reach, List.take_add_one, h, Option.toList_some, List.flatten_append,
    List.length_append, List.flatten_singleton]

theorem reach_mono (parts : List (List α)) {j : Nat} (h : i ≤ j) :
    reach parts i ≤ reach parts j := by
  have hprefix : (parts.take i).flatten <+: (parts.take j).flatten := by
    have htake : (parts.take j).take i = parts.take i := by
      rw [List.take_take, Nat.min_eq_left h]
    rw [← htake]
    exact ⟨((parts.take j).drop i).flatten, by rw [← List.flatten_append, List.take_append_drop]⟩
  exact hprefix.length_le

theorem reach_le (parts : List (List α)) (i : Nat) : reach parts i ≤ parts.flatten.length := by
  rcases Nat.le_total i parts.length with h | h
  · rw [← reach_length]
    exact reach_mono parts h
  · exact Nat.le_of_eq (by rw [reach, List.take_of_length_le h])

/-- The cells between where a part starts and where it ends are the part. -/
theorem drop_take_reach {p : List α} (h : parts[i]? = some p) :
    (parts.flatten.drop (reach parts i)).take p.length = p := by
  obtain ⟨hi, hget⟩ := List.getElem?_eq_some_iff.mp h
  have hsplit : parts.flatten =
      (parts.take i).flatten ++ (p ++ (parts.drop (i + 1)).flatten) := by
    conv_lhs => rw [← List.take_append_drop i parts, List.drop_eq_getElem_cons hi, hget]
    rw [List.flatten_append, List.flatten_cons]
  rw [hsplit, reach, List.drop_left, List.take_left]

@[simp] theorem length_ends (start : Nat) (parts : List (List α)) :
    (ends start parts).length = parts.length := by
  induction parts generalizing start with
  | nil => rfl
  | cons p parts ih => rw [ends, List.length_cons, List.length_cons, ih]

/-- The list of ends says where each part ends. -/
theorem getElem?_ends {start : Nat} (h : i < parts.length) :
    (ends start parts)[i]? = some (start + reach parts (i + 1)) := by
  induction parts generalizing start i with
  | nil => exact absurd h (Nat.not_lt_zero i)
  | cons p parts ih =>
    cases i with
    | zero => simp [ends, reach]
    | succ i =>
      have hi : i < parts.length := Nat.lt_of_succ_lt_succ h
      rw [ends, List.getElem?_cons_succ, ih hi, reach, reach, List.take_succ_cons,
        List.flatten_cons, List.length_append, Nat.add_assoc]

theorem ends_append (start : Nat) (parts more : List (List α)) :
    ends start (parts ++ more) =
      ends start parts ++ ends (start + parts.flatten.length) more := by
  induction parts generalizing start with
  | nil => rfl
  | cons p parts ih =>
    rw [List.cons_append, ends, ih, ends, List.cons_append, List.flatten_cons,
      List.length_append, Nat.add_assoc]

/-! ## Bitmaps -/

/-- Bit `i`. -/
def bit (bytes : List UInt8) (i : Nat) : Bool :=
  bytes.getD (i / 8) 0 &&& (1 <<< UInt8.ofNat (i % 8)) != 0

/-- Bit `i` set. -/
def setBit (bytes : List UInt8) (i : Nat) : List UInt8 :=
  bytes.modify (i / 8) (· ||| (1 <<< UInt8.ofNat (i % 8)))

@[simp] theorem length_setBit (bytes : List UInt8) (i : Nat) :
    (setBit bytes i).length = bytes.length := List.length_modify ..

theorem bit_replicate (n i : Nat) : bit (List.replicate n 0) i = false := by
  have hbyte : (List.replicate n (0 : UInt8)).getD (i / 8) 0 = 0 := by
    rw [List.getD_eq_getElem?_getD, List.getElem?_replicate]
    split <;> rfl
  rw [bit, hbyte, UInt8.zero_and]
  rfl

/-- Of two bits of one byte, setting one sets it and leaves the other. -/
private theorem or_and_bit (x : UInt8) {a b : Nat} (ha : a < 8) (hb : b < 8) :
    ((x ||| (1 <<< UInt8.ofNat a)) &&& (1 <<< UInt8.ofNat b) != 0) =
      (decide (a = b) || (x &&& (1 <<< UInt8.ofNat b) != 0)) := by
  have hmasks : ∀ a b : Fin 8,
      ((1 : UInt8) <<< UInt8.ofNat a) &&& (1 <<< UInt8.ofNat b) =
        if a = b then 1 <<< UInt8.ofNat b else 0 := by decide
  have hmask := hmasks ⟨a, ha⟩ ⟨b, hb⟩
  have hne : ∀ b : Fin 8, (1 : UInt8) <<< UInt8.ofNat b ≠ 0 := by decide
  have hdistrib : ∀ y z : UInt8, (x ||| y) &&& z = (x &&& z) ||| (y &&& z) :=
    fun y z => UInt8.toBitVec_inj.mp BitVec.and_or_distrib_right
  rw [hdistrib, hmask]
  by_cases hab : a = b
  · subst hab
    have hset : (x &&& (1 <<< UInt8.ofNat a)) ||| (1 <<< UInt8.ofNat a) ≠ (0 : UInt8) :=
      fun hzero => hne ⟨a, ha⟩ (UInt8.or_eq_zero_iff.mp hzero).2
    rw [if_pos rfl, decide_eq_true rfl, Bool.true_or]
    exact bne_iff_ne.mpr hset
  · rw [if_neg (fun h => hab (congrArg Fin.val h)), UInt8.or_zero, decide_eq_false hab,
      Bool.false_or]

/-- Setting a bit sets that bit and leaves the others. -/
theorem bit_setBit {bytes : List UInt8} (h : i / 8 < bytes.length) (j : Nat) :
    bit (setBit bytes i) j = (decide (i = j) || bit bytes j) := by
  have hbyte : (setBit bytes i).getD (j / 8) 0 =
      if i / 8 = j / 8 then bytes.getD (j / 8) 0 ||| (1 <<< UInt8.ofNat (i % 8))
      else bytes.getD (j / 8) 0 := by
    rw [setBit, List.getD_eq_getElem?_getD, List.getD_eq_getElem?_getD, List.getElem?_modify]
    split
    · next heq =>
        rw [← heq, List.getElem?_eq_getElem h]
        rfl
    · simp
  by_cases hsame : i / 8 = j / 8
  · have hiff : (i % 8 = j % 8) ↔ (i = j) := by omega
    rw [bit, hbyte, if_pos hsame,
      or_and_bit _ (Nat.mod_lt i (by decide)) (Nat.mod_lt j (by decide)), bit,
      decide_eq_decide.mpr hiff]
  · have hne : i ≠ j := fun heq => hsame (by rw [heq])
    rw [bit, hbyte, if_neg hsame, decide_eq_false hne, Bool.false_or, bit]

end SquealDb.Lib
