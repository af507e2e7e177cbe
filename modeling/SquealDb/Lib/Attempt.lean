import Mathlib.Data.Nat.Basic

/-!
# Computations that keep their state when they fail

A computation on a state gives a value or stops with an error; either way the state
it had reached is the state after it.

Nothing in this module names a particular state.
-/

namespace SquealDb.Lib

variable {σ ε α β : Type}

/-- A computation on states `σ` that may stop with an `ε`. -/
abbrev Attempt (σ ε : Type) := ExceptT ε (StateM σ)

namespace Attempt

/-- What the state says, or the error in reading it. -/
def read (f : σ → Except ε α) : Attempt σ ε α := fun s => (f s, s)

/-- A new state, or the error in making it: the old state stays. -/
def update (f : σ → Except ε σ) : Attempt σ ε Unit := fun s =>
  match f s with
  | .ok s' => (.ok (), s')
  | .error e => (.error e, s)

variable {m : Attempt σ ε α} {f : α → Attempt σ ε β} {s s' : σ} {a : α} {e : ε}

theorem bind_ok (h : m s = (.ok a, s')) : (m >>= f) s = f a s' := by
  show ExceptT.bindCont f (m s).1 (m s).2 = _
  rw [h]
  rfl

theorem bind_error (h : m s = (.error e, s')) : (m >>= f) s = (.error e, s') := by
  show ExceptT.bindCont f (m s).1 (m s).2 = _
  rw [h]
  rfl

/-- What follows a reading of the state. -/
theorem read_bind (f : σ → Except ε α) (g : α → Attempt σ ε β) (s : σ) :
    (read f >>= g) s = match f s with
      | .ok a => g a s
      | .error e => (.error e, s) := by
  cases h : f s with
  | ok a => exact bind_ok (show read f s = (.ok a, s) by rw [read, h])
  | error e => exact bind_error (show read f s = (.error e, s) by rw [read, h])

/-- What follows an update of the state. -/
theorem update_bind (f : σ → Except ε σ) (g : Unit → Attempt σ ε β) (s : σ) :
    (update f >>= g) s = match f s with
      | .ok s' => g () s'
      | .error e => (.error e, s) := by
  cases h : f s with
  | ok s' => exact bind_ok (show update f s = (.ok (), s') by rw [update, h])
  | error e => exact bind_error (show update f s = (.error e, s) by rw [update, h])

/-- Giving up the value leaves the state as it is. -/
theorem discard_ok (h : m s = (.ok a, s')) :
    (do let _ ← m; return () : Attempt σ ε Unit) s = (.ok (), s') := by
  rw [bind_ok h]
  rfl

theorem discard_error (h : m s = (.error e, s')) :
    (do let _ ← m; return () : Attempt σ ε Unit) s = (.error e, s') := bind_error h

theorem discard_state (m : Attempt σ ε α) (s : σ) :
    ((do let _ ← m; return () : Attempt σ ε Unit) s).2 = (m s).2 := by
  cases h : m s with
  | mk r s' =>
    cases r with
    | ok a => rw [discard_ok h]
    | error e => rw [discard_error h]

theorem update_apply (f : σ → Except ε σ) (s : σ) :
    update f s = match f s with
      | .ok s' => (.ok (), s')
      | .error e => (.error e, s) := rfl

end Attempt

end SquealDb.Lib
