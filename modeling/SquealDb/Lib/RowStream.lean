import Mathlib.Data.Nat.Basic

/-!
# Streams of items

A source of items is a state and a step that gives the next item, or says that there is
none; either may fail.

Nothing in this module names a particular source.
-/

namespace SquealDb.Lib

variable {σ ε α : Type}

/-- Calls of `next` give the items of a list one by one, and then none. -/
def Delivers (next : σ → Except ε (Option α × σ)) : σ → List α → Prop
  | s, [] => ∃ s', next s = .ok (none, s')
  | s, a :: as => ∃ s', next s = .ok (some a, s') ∧ Delivers next s' as

theorem Delivers.unique {next : σ → Except ε (Option α × σ)} {s : σ} {as bs : List α}
    (ha : Delivers next s as) (hb : Delivers next s bs) : as = bs := by
  induction as generalizing s bs with
  | nil =>
    obtain ⟨s', hs'⟩ := ha
    cases bs with
    | nil => rfl
    | cons b bs =>
      obtain ⟨t, ht, -⟩ := hb
      rw [hs'] at ht
      cases ht
  | cons a as ih =>
    obtain ⟨s', hs', hrest⟩ := ha
    cases bs with
    | nil =>
      obtain ⟨t, ht⟩ := hb
      rw [hs'] at ht
      cases ht
    | cons b bs =>
      obtain ⟨t, ht, hrest'⟩ := hb
      rw [hs'] at ht
      obtain ⟨ha, rfl⟩ := Prod.mk.inj (Except.ok.inj ht)
      rw [Option.some.inj ha, ih hrest hrest']

/-- A source each of whose steps takes the first item of what its state has left delivers
what is left. -/
theorem Delivers.of_view {next : σ → Option α × σ} (view : σ → List α) {P : σ → Prop}
    (hfirst : ∀ s, P s → (next s).1 = (view s).head?)
    (hrest : ∀ s a as, P s → view s = a :: as → view (next s).2 = as ∧ P (next s).2)
    {s : σ} (hs : P s) : Delivers (fun s => (.ok (next s) : Except ε _)) s (view s) := by
  generalize hview : view s = items
  induction items generalizing s with
  | nil =>
    have h := hfirst s hs
    rw [hview] at h
    exact ⟨(next s).2, congrArg Except.ok (Prod.ext h rfl)⟩
  | cons a as ih =>
    have h := hfirst s hs
    rw [hview] at h
    have hafter := hrest s a as hs hview
    exact ⟨(next s).2, congrArg Except.ok (Prod.ext h rfl), ih hafter.2 hafter.1⟩

end SquealDb.Lib
