import Mathlib.Data.Nat.Basic

/-!
# Binary search

A search of the positions `[lo, hi)` by a probe that says, of a position, that it is
the one looked for or on which side of it that one lies.  A probe may fail.

Nothing in this module names what is searched.
-/

namespace SquealDb.Lib

/-- What a probe says of its position. -/
inductive Turn where
  | found
  | left
  | right
  deriving DecidableEq, Repr

/-- Where a search ends. -/
inductive Place where
  | found (i : Nat)
  | gap (i : Nat)
  deriving DecidableEq, Repr

variable {ε : Type}

/-- The loop: a search of `[lo, hi)` takes at most `hi - lo` turns. -/
def bisect (probe : Nat → Except ε Turn) : Nat → Nat → Nat → Except ε Place
  | 0, lo, _ => .ok (.gap lo)
  | fuel + 1, lo, hi =>
    if lo < hi then
      let mid := lo + (hi - lo) / 2
      match probe mid with
      | .ok .found => .ok (.found mid)
      | .ok .left => bisect probe fuel lo mid
      | .ok .right => bisect probe fuel (mid + 1) hi
      | .error e => .error e
    else .ok (.gap lo)

variable {probe : Nat → Except ε Turn} {fuel lo hi k : Nat}

theorem bisect_gap (hfuel : hi - lo ≤ fuel) (hlo : lo ≤ k) (hhi : k ≤ hi)
    (hright : ∀ i < k, probe i = .ok .right)
    (hleft : ∀ i, k ≤ i → i < hi → probe i = .ok .left) :
    bisect probe fuel lo hi = .ok (.gap k) := by
  induction fuel generalizing lo hi with
  | zero =>
    obtain rfl : lo = k := by omega
    rfl
  | succ fuel ih =>
    rw [bisect]
    split
    · next hlt =>
        dsimp only
        rcases Nat.lt_or_ge (lo + (hi - lo) / 2) k with hmid | hmid
        · rw [hright _ hmid]
          exact ih (by omega) hmid hhi hleft
        · rw [hleft _ hmid (by omega)]
          exact ih (by omega) hlo hmid fun i hk hi => hleft i hk (by omega)
    · obtain rfl : lo = k := by omega
      rfl

theorem bisect_found (hfuel : hi - lo ≤ fuel) (hlo : lo ≤ k) (hhi : k < hi)
    (hright : ∀ i < k, probe i = .ok .right) (hk : probe k = .ok .found)
    (hleft : ∀ i, k < i → i < hi → probe i = .ok .left) :
    bisect probe fuel lo hi = .ok (.found k) := by
  induction fuel generalizing lo hi with
  | zero => omega
  | succ fuel ih =>
    rw [bisect, if_pos (by omega)]
    dsimp only
    rcases Nat.lt_trichotomy (lo + (hi - lo) / 2) k with hmid | hmid | hmid
    · rw [hright _ hmid]
      exact ih (by omega) hmid hhi hleft
    · rw [hmid, hk]
    · rw [hleft _ hmid (by omega)]
      exact ih (by omega) hlo hmid fun i hki hi => hleft i hki (by omega)

/-- A search ends in its range, unless one of its probes fails. -/
theorem bisect_range (hle : lo ≤ hi) :
    (∃ i < hi, bisect probe fuel lo hi = .ok (.found i)) ∨
      (∃ i ≤ hi, bisect probe fuel lo hi = .ok (.gap i)) ∨
      ∃ i < hi, ∃ e, probe i = .error e ∧ bisect probe fuel lo hi = .error e := by
  induction fuel generalizing lo hi with
  | zero => exact Or.inr (Or.inl ⟨lo, hle, rfl⟩)
  | succ fuel ih =>
    rw [bisect]
    split
    · next hlt =>
        dsimp only
        cases hprobe : probe (lo + (hi - lo) / 2) with
        | error e => exact Or.inr (Or.inr ⟨lo + (hi - lo) / 2, by omega, e, hprobe, rfl⟩)
        | ok turn =>
          cases turn with
          | found => exact Or.inl ⟨lo + (hi - lo) / 2, by omega, rfl⟩
          | right => exact ih (by omega)
          | left =>
            rcases ih (show lo ≤ lo + (hi - lo) / 2 by omega) with
              ⟨i, hi, h⟩ | ⟨i, hi, h⟩ | ⟨i, hi, e, he, h⟩
            · exact Or.inl ⟨i, by omega, h⟩
            · exact Or.inr (Or.inl ⟨i, by omega, h⟩)
            · exact Or.inr (Or.inr ⟨i, by omega, e, he, h⟩)
    · exact Or.inr (Or.inl ⟨lo, hle, rfl⟩)

end SquealDb.Lib
