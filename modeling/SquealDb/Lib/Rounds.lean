import Mathlib.Data.Nat.Notation

/-!
# Computations given rounds

A loop whose end has to be proved takes the number of rounds it may make, and has no outcome
where they run out. `Comes x a` says that it comes to `a` once it is given enough of them.
-/

namespace SquealDb.Lib

/-- A computation without an outcome where it ran out of rounds, else one that may fail. -/
abbrev Rounds (ε : Type) := ExceptT ε Option

variable {ε α β : Type}

/-- The computation comes to `a`, given enough rounds. -/
def Comes (x : Nat → Rounds ε α) (a : α) : Prop := ∃ n, ∀ fuel, n ≤ fuel → x fuel = pure a

namespace Comes

theorem pure (a : α) : Comes (fun _ => (Pure.pure a : Rounds ε α)) a := ⟨0, fun _ _ => rfl⟩

theorem congr {x y : Nat → Rounds ε α} {a : α} (h : Comes x a) (heq : ∀ fuel, y fuel = x fuel) :
    Comes y a := by
  obtain ⟨n, hn⟩ := h
  exact ⟨n, fun fuel hfuel => (heq fuel).trans (hn fuel hfuel)⟩

theorem bind {x : Nat → Rounds ε α} {f : Nat → α → Rounds ε β} {a : α} {b : β} (h : Comes x a)
    (hf : Comes (fun fuel => f fuel a) b) : Comes (fun fuel => x fuel >>= f fuel) b := by
  obtain ⟨n, hn⟩ := h
  obtain ⟨m, hm⟩ := hf
  refine ⟨max n m, fun fuel hfuel => ?_⟩
  show x fuel >>= f fuel = _
  rw [hn fuel (by omega)]
  exact hm fuel (by omega)

/-- A loop that makes a round of what it is given comes to what the round does. -/
theorem loop {x y : Nat → Rounds ε α} {a : α} (hstep : ∀ fuel, x (fuel + 1) = y fuel)
    (h : Comes y a) : Comes x a := by
  obtain ⟨n, hn⟩ := h
  refine ⟨n + 1, fun fuel hfuel => ?_⟩
  obtain ⟨more, rfl⟩ := Nat.exists_eq_add_of_le' hfuel
  rw [← Nat.add_assoc, hstep]
  exact hn (more + n) (Nat.le_add_left n more)

end Comes

end SquealDb.Lib
