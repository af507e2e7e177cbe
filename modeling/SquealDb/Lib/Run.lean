import Mathlib.Data.List.Basic

/-!
# Runs of a step function

A machine here is a total step function `step : σ → α → σ` on a state type:
an action that is not enabled leaves the state alone.  A run is then a list
of actions, and "every interleaving" is "every list of actions".  Runs may be
restricted by a condition `ok` that each action has to meet in the state it
is taken from.

Nothing in this module names a particular machine.

## Main results

* `Reachable.invariant` — what holds initially and is kept by every allowed
  step holds in every reachable state.
* `reachable_run` — the states of an allowed schedule are reachable.
* `Reachable.history_prefix` — if a machine's history only grows, by at most
  one entry a step, then every prefix of it that is no shorter than the last
  mark was the whole history of some earlier reachable state in which the
  marked part of the state was already what it is now.
-/

namespace SquealDb.Lib

variable {σ α β γ : Type*}

/-- The state a schedule leads to. -/
def run (step : σ → α → σ) (s : σ) (as : List α) : σ := as.foldl step s

@[simp] theorem run_nil (step : σ → α → σ) (s : σ) : run step s [] = s := rfl

@[simp] theorem run_cons (step : σ → α → σ) (s : σ) (a : α) (as : List α) :
    run step s (a :: as) = run step (step s a) as := rfl

theorem run_append (step : σ → α → σ) (s : σ) (as bs : List α) :
    run step s (as ++ bs) = run step (run step s as) bs := by
  simp [run]

/-- Every action of the schedule meets `ok` where it is taken. -/
def Allowed (step : σ → α → σ) (ok : σ → α → Prop) : σ → List α → Prop
  | _, [] => True
  | s, a :: as => ok s a ∧ Allowed step ok (step s a) as

instance decidableAllowed (step : σ → α → σ) (ok : σ → α → Prop) [∀ s a, Decidable (ok s a)] :
    (s : σ) → (as : List α) → Decidable (Allowed step ok s as)
  | _, [] => .isTrue trivial
  | s, a :: as =>
    have := decidableAllowed step ok (step s a) as
    inferInstanceAs (Decidable (ok s a ∧ Allowed step ok (step s a) as))

theorem allowed_append_iff {step : σ → α → σ} {ok : σ → α → Prop} {s : σ} {as bs : List α} :
    Allowed step ok s (as ++ bs) ↔
      Allowed step ok s as ∧ Allowed step ok (run step s as) bs := by
  induction as generalizing s with
  | nil => simp [Allowed]
  | cons a as ih => simp [Allowed, ih, and_assoc]

theorem Allowed.append {step : σ → α → σ} {ok : σ → α → Prop} {s : σ} {as bs : List α}
    (has : Allowed step ok s as) (hbs : Allowed step ok (run step s as) bs) :
    Allowed step ok s (as ++ bs) :=
  allowed_append_iff.mpr ⟨has, hbs⟩

/-- The states reached from `init` by steps that all meet `ok`. -/
inductive Reachable (step : σ → α → σ) (ok : σ → α → Prop) (init : σ) : σ → Prop
  | init : Reachable step ok init init
  | step {s : σ} (a : α) : Reachable step ok init s → ok s a →
      Reachable step ok init (step s a)

variable {step : σ → α → σ} {ok : σ → α → Prop} {init : σ}

/-- The invariant rule. -/
theorem Reachable.invariant {I : σ → Prop} (h0 : I init)
    (hstep : ∀ s a, I s → ok s a → I (step s a))
    {s : σ} (h : Reachable step ok init s) : I s := by
  induction h with
  | init => exact h0
  | step a _ hok ih => exact hstep _ a ih hok

/-- An allowed schedule taken from a reachable state ends in one. -/
theorem Reachable.run {s : σ} (h : Reachable step ok init s) (as : List α)
    (hok : Allowed step ok s as) : Reachable step ok init (run step s as) := by
  induction as generalizing s with
  | nil => exact h
  | cons a as ih => exact ih (h.step a hok.1) hok.2

theorem reachable_run (as : List α) (hok : Allowed step ok init as) :
    Reachable step ok init (Lib.run step init as) :=
  Reachable.init.run as hok

/-- A schedule is allowed where nothing is asked of it. -/
theorem allowed_true (s : σ) (as : List α) :
    Allowed step (fun _ _ => True) s as := by
  induction as generalizing s with
  | nil => trivial
  | cons a as ih => exact ⟨trivial, ih _⟩

/-- What one step keeps, a whole run keeps. -/
theorem run_induction {P : σ → Prop} (hstep : ∀ s a, P s → P (step s a))
    {s : σ} (h : P s) (as : List α) : P (Lib.run step s as) := by
  induction as generalizing s with
  | nil => exact h
  | cons a as ih => exact ih (hstep s a h)

section History

variable (hist : σ → List β) (mark : σ → Nat) (frame : σ → γ)

/-- Every prefix of the history back to the last mark is the history of an
earlier reachable state with the same frame. -/
theorem Reachable.history_prefix
    (hinit : hist init = [])
    (hgrow : ∀ s a, Reachable step ok init s → ok s a →
      hist (step s a) = hist s ∨ ∃ b, hist (step s a) = hist s ++ [b])
    (hframe : ∀ s a, Reachable step ok init s →
      (frame (step s a) = frame s ∧ mark s ≤ mark (step s a)) ∨
        mark (step s a) = (hist (step s a)).length)
    {s : σ} (h : Reachable step ok init s) (n : Nat)
    (hmark : mark s ≤ n) (hn : n ≤ (hist s).length) :
    ∃ s', Reachable step ok init s' ∧ hist s' = (hist s).take n ∧
      frame s' = frame s := by
  induction h with
  | init =>
    refine ⟨init, Reachable.init, ?_, rfl⟩
    rw [hinit, List.take_nil]
  | @step s a hs hok ih =>
    by_cases hfull : n = (hist (step s a)).length
    · exact ⟨_, hs.step a hok, by rw [hfull, List.take_length], rfl⟩
    · rcases hframe s a hs with ⟨hfr, hmk⟩ | hmk
      · have hle : n ≤ (hist s).length ∧
            (hist (step s a)).take n = (hist s).take n := by
          rcases hgrow s a hs hok with heq | ⟨b, hb⟩
          · rw [heq] at hn ⊢
            exact ⟨hn, rfl⟩
          · rw [hb] at hn hfull ⊢
            simp only [List.length_append, List.length_singleton] at hn hfull
            have hle : n ≤ (hist s).length := by omega
            exact ⟨hle, List.take_append_of_le_length hle⟩
        obtain ⟨s', hr, htake, hfr'⟩ := ih (Nat.le_trans hmk hmark) hle.1
        exact ⟨s', hr, htake.trans hle.2.symm, hfr'.trans hfr.symm⟩
      · omega

end History

end SquealDb.Lib
