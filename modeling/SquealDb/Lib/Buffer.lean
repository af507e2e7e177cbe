import Mathlib.Data.List.Basic

/-!
# Buffers

A buffer is a list of cells; a span of it is read as a slice and written over in
place.  What is read behind a write is decided by where the two spans lie.

Nothing in this module names a particular layout.
-/

namespace SquealDb.Lib

variable {α : Type*}

/-- The `n` cells from `start` on. -/
def slice (b : List α) (start n : Nat) : List α := (b.drop start).take n

/-- `b` with `bs` written over the cells from `start` on, as far as `b` has them. -/
def overwrite (b : List α) (start : Nat) (bs : List α) : List α :=
  b.mapIdx fun i x => if i < start then x else bs[i - start]?.getD x

theorem getElem?_slice (b : List α) (start n i : Nat) :
    (slice b start n)[i]? = if i < n then b[start + i]? else none := by
  rw [slice, List.getElem?_take]
  split
  · rw [List.getElem?_drop]
  · rfl

variable {b bs : List α} {start : Nat}

theorem length_slice {n : Nat} (h : start + n ≤ b.length) :
    (slice b start n).length = n := by
  rw [slice, List.length_take, List.length_drop]
  omega

@[simp] theorem length_overwrite (b : List α) (start : Nat) (bs : List α) :
    (overwrite b start bs).length = b.length := List.length_mapIdx

theorem getElem?_overwrite_outside {i : Nat} (h : i < start ∨ start + bs.length ≤ i) :
    (overwrite b start bs)[i]? = b[i]? := by
  rw [overwrite, List.getElem?_mapIdx]
  cases hb : b[i]? with
  | none => rfl
  | some x =>
    by_cases hi : i < start
    · rw [Option.map_some, if_pos hi]
    · have hnone : bs[i - start]? = none := List.getElem?_eq_none (by omega)
      rw [Option.map_some, if_neg hi, hnone]
      rfl

theorem getElem?_overwrite_inside {i : Nat} (h : start + bs.length ≤ b.length) (hlow : start ≤ i)
    (hhigh : i < start + bs.length) :
    (overwrite b start bs)[i]? = bs[i - start]? := by
  have hb : b[i]? = some b[i] := List.getElem?_eq_getElem (by omega)
  have hbs : bs[i - start]? = some bs[i - start] := List.getElem?_eq_getElem (by omega)
  rw [overwrite, List.getElem?_mapIdx, hb, Option.map_some, if_neg (by omega), hbs]
  rfl

/-- A part of a slice. -/
theorem slice_slice {n i m : Nat} (h : i + m ≤ n) :
    slice (slice b start n) i m = slice b (start + i) m := by
  apply List.ext_getElem?
  intro k
  simp only [getElem?_slice]
  split
  · rw [if_pos (by omega), Nat.add_assoc]
  · rfl

theorem slice_eq_self (b : List α) : slice b 0 b.length = b := by
  rw [slice, List.drop_zero, List.take_length]

/-- A part of what was written. -/
theorem slice_overwrite_inside {i n : Nat} (h : start + bs.length ≤ b.length)
    (hin : i + n ≤ bs.length) :
    slice (overwrite b start bs) (start + i) n = slice bs i n := by
  apply List.ext_getElem?
  intro k
  simp only [getElem?_slice]
  split
  · rw [getElem?_overwrite_inside h (by omega) (by omega)]
    congr 1
    omega
  · rfl

/-- What was written reads back. -/
theorem slice_overwrite_self (h : start + bs.length ≤ b.length) :
    slice (overwrite b start bs) start bs.length = bs := by
  have hin := slice_overwrite_inside h (show 0 + bs.length ≤ bs.length by omega)
  rw [Nat.add_zero, slice_eq_self] at hin
  exact hin

/-- What lies apart from a write is unchanged. -/
theorem slice_overwrite_of_disjoint {i n : Nat} (hapart : i + n ≤ start ∨ start + bs.length ≤ i) :
    slice (overwrite b start bs) i n = slice b i n := by
  apply List.ext_getElem?
  intro k
  simp only [getElem?_slice]
  split
  · exact getElem?_overwrite_outside (by omega)
  · rfl

/-- Two writes side by side are one. -/
theorem overwrite_overwrite_append {xs ys : List α} (h : start + xs.length + ys.length ≤ b.length) :
    overwrite (overwrite b start xs) (start + xs.length) ys = overwrite b start (xs ++ ys) := by
  have hboth : start + (xs ++ ys).length ≤ b.length := by
    rw [List.length_append]
    omega
  apply List.ext_getElem?
  intro k
  by_cases hin : start ≤ k ∧ k < start + (xs ++ ys).length
  · rw [getElem?_overwrite_inside hboth hin.1 hin.2, List.getElem?_append]
    rw [List.length_append] at hin
    by_cases hxs : k < start + xs.length
    · rw [getElem?_overwrite_outside (Or.inl hxs),
        getElem?_overwrite_inside (by omega) hin.1 hxs, if_pos (by omega)]
    · rw [getElem?_overwrite_inside (by rw [length_overwrite]; exact h) (by omega) (by omega),
        if_neg (by omega)]
      congr 1
      omega
  · rw [List.length_append] at hin
    rw [getElem?_overwrite_outside (by omega), getElem?_overwrite_outside (by omega),
      getElem?_overwrite_outside (by rw [List.length_append]; omega)]

theorem overwrite_nil (b : List α) (start : Nat) : overwrite b start [] = b := by
  apply List.ext_getElem?
  intro k
  exact getElem?_overwrite_outside (by rw [List.length_nil]; omega)

end SquealDb.Lib
