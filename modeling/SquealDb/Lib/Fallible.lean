import Mathlib.Data.List.Forall2
import Mathlib.Data.Nat.Basic

/-!
# Computations that may fail

What a computation that gives a value or stops with an error gives, whichever error it
would stop with.

Nothing in this module names a particular error.

## Main results

* `bind_ok_iff` — one computation after another.
* `forall₂_of_mapM` — one computation for each of a list.
* `Settles` — when a computation gives a value, and what it gives.
* `foldlM_through_iff`, `foldlM_pair_iff` — a fold over what a value is built of.
-/

namespace SquealDb.Lib

variable {ε δ α β : Type}

theorem map_ok_iff {r : Except ε α} {f : α → β} {b : β} :
    r.map f = .ok b ↔ ∃ a, r = .ok a ∧ f a = b := by
  cases r with
  | error e => simp [Except.map]
  | ok a => simp [Except.map]

@[simp] theorem bind_ok_iff {x : Except ε α} {f : α → Except ε β} {b : β} :
    (x >>= f) = .ok b ↔ ∃ a, x = .ok a ∧ f a = .ok b := by
  cases x with
  | error e => simp [bind, Except.bind]
  | ok a => simp [bind, Except.bind]

@[simp] theorem pure_ok_iff {a b : α} : (pure a : Except ε α) = .ok b ↔ a = b := by
  simp [pure, Except.pure]

theorem forall₂_of_mapM {f : α → Except ε β} {l : List α} {out : List β} (h : l.mapM f = .ok out) :
    List.Forall₂ (fun a b => f a = .ok b) l out := by
  induction l generalizing out with
  | nil =>
    obtain rfl := Except.ok.inj h
    exact List.Forall₂.nil
  | cons a l ih =>
    rw [List.mapM_cons] at h
    obtain ⟨b, hb, hafter⟩ := bind_ok_iff.mp h
    obtain ⟨others, hothers, heq⟩ := bind_ok_iff.mp hafter
    obtain rfl := Except.ok.inj heq
    exact List.Forall₂.cons hb (ih hothers)

/-- A fold of which no step fails. -/
theorem foldlM_eq_foldl {ε σ α : Type*} {f : σ → α → Except ε σ} {g : σ → α → σ} {l : List α}
    (h : ∀ a ∈ l, ∀ s, f s a = .ok (g s a)) (s : σ) : l.foldlM f s = .ok (l.foldl g s) := by
  induction l generalizing s with
  | nil => rfl
  | cons a l ih =>
    rw [List.foldlM_cons, h a List.mem_cons_self]
    exact ih (fun b hb => h b (List.mem_cons_of_mem a hb)) _

/-- A fold keeps what each of its steps keeps. -/
theorem foldlM_keeps {P : α → Prop} {f : α → β → Except ε α} {l : List β} {a b : α}
    (hstep : ∀ x ∈ l, ∀ a b, P a → f a x = .ok b → P b) (ha : P a)
    (h : l.foldlM f a = .ok b) : P b := by
  induction l generalizing a with
  | nil =>
    rw [← Except.ok.inj h]
    exact ha
  | cons x rest ih =>
    rw [List.foldlM_cons] at h
    obtain ⟨mid, hmid, hrest⟩ := bind_ok_iff.mp h
    rw [List.forall_mem_cons] at hstep
    exact ih hstep.2 (hstep.1 a mid ha hmid) hrest

theorem mem_of_forall₂ {R : α → β → Prop} {l : List α} {out : List β} (h : List.Forall₂ R l out)
    {b : β} (hb : b ∈ out) : ∃ a ∈ l, R a b := by
  induction h with
  | nil => cases hb
  | cons hfirst _ ih =>
    rcases List.mem_cons.mp hb with rfl | hb
    · exact ⟨_, List.mem_cons_self, hfirst⟩
    · obtain ⟨a, ha, hr⟩ := ih hb
      exact ⟨a, List.mem_cons_of_mem _ ha, hr⟩

/-! ## When a computation gives a value -/

/-- A computation gives a value just when `W` holds, and then one that meets `P`. -/
def Settles (x : Except ε α) (W : Prop) (P : α → Prop) : Prop :=
  match x with
  | .ok a => W ∧ P a
  | .error _ => ¬ W

namespace Settles

variable {x : Except ε α} {P : α → Prop}

theorem of_ok {W : Prop} {a : α} (h : Settles x W P) (hx : x = .ok a) : W ∧ P a := by
  subst hx
  exact h

theorem exists_of {W : Prop} (h : Settles x W P) (hw : W) :
    ∃ a, x = .ok a ∧ P a := by
  cases x with
  | error e => exact absurd hw h
  | ok a => exact ⟨a, rfl, h.2⟩

theorem ok {a : α} {W : Prop} (hw : W) (h : P a) :
    Settles (.ok a : Except ε α) W P :=
  ⟨hw, h⟩

theorem pure {a : α} {W : Prop} {P : α → Prop} (hw : W) (h : P a) :
    Settles (pure a : Except ε α) W P :=
  ⟨hw, h⟩

theorem congr {W W' : Prop} {P' : α → Prop} (h : Settles x W P) (hw : W ↔ W')
    (hp : ∀ a, P a → P' a) : Settles x W' P' := by
  cases x with
  | error e => exact fun hw' => h (hw.mpr hw')
  | ok a => exact ⟨hw.mp h.1, hp a h.2⟩

/-- One computation after another gives a value where both do. -/
theorem bind {f : α → Except ε β} {W W' : Prop} {Q : β → Prop} (h : Settles x W P)
    (hf : ∀ a, P a → Settles (f a) W' Q) :
    Settles (x >>= f) (W ∧ W') Q := by
  cases x with
  | error e => exact fun hw => h hw.1
  | ok a =>
    have ha := hf a h.2
    show Settles (f a) (W ∧ W') Q
    exact ha.congr ⟨fun hw => ⟨h.1, hw⟩, fun hw => hw.2⟩ fun b hb => hb

end Settles

/-! ## Folds -/

variable {γ ρ : Type}

/-- A fold that steps through a constructor is one of what it is applied to. -/
theorem foldlM_through_iff {f : β → ρ → Except ε β} {g : α → ρ → Except ε α} {c : α → β}
    (h : ∀ a r, f (c a) r = (do return c (← g a r))) (rows : List ρ) (a : α) (b : β) :
    rows.foldlM f (c a) = .ok b ↔ ∃ a', rows.foldlM g a = .ok a' ∧ c a' = b := by
  induction rows generalizing a with
  | nil => simp
  | cons r rows ih =>
    simp only [List.foldlM_cons, h, bind_ok_iff, pure_ok_iff]
    constructor
    · rintro ⟨_, ⟨a₁, ha₁, rfl⟩, hrest⟩
      obtain ⟨a', ha', hb⟩ := (ih a₁).mp hrest
      exact ⟨a', ⟨a₁, ha₁, ha'⟩, hb⟩
    · rintro ⟨a', ⟨a₁, ha₁, ha'⟩, hb⟩
      exact ⟨c a₁, ⟨a₁, ha₁, rfl⟩, (ih a₁).mpr ⟨a', ha', hb⟩⟩

/-- A fold that steps through a constructor of two is a fold of each. -/
theorem foldlM_pair_iff {f : γ → ρ → Except ε γ} {g : α → ρ → Except ε α}
    {k : β → ρ → Except ε β} {c : α → β → γ}
    (h : ∀ a b r, f (c a b) r = (do return c (← g a r) (← k b r))) (rows : List ρ) (a : α)
    (b : β) (out : γ) :
    rows.foldlM f (c a b) = .ok out ↔
      ∃ a' b', rows.foldlM g a = .ok a' ∧ rows.foldlM k b = .ok b' ∧ c a' b' = out := by
  induction rows generalizing a b with
  | nil => simp
  | cons r rows ih =>
    simp only [List.foldlM_cons, h, bind_ok_iff, pure_ok_iff]
    constructor
    · rintro ⟨_, ⟨a₁, ha₁, b₁, hb₁, rfl⟩, hrest⟩
      obtain ⟨a', b', ha', hb', hout⟩ := (ih a₁ b₁).mp hrest
      exact ⟨a', b', ⟨a₁, ha₁, ha'⟩, ⟨b₁, hb₁, hb'⟩, hout⟩
    · rintro ⟨a', b', ⟨a₁, ha₁, ha'⟩, ⟨b₁, hb₁, hb'⟩, hout⟩
      exact ⟨c a₁ b₁, ⟨a₁, ha₁, b₁, hb₁, rfl⟩, (ih a₁ b₁).mpr ⟨a', b', ha', hb', hout⟩⟩

/-- A fold that leaves what it starts from. -/
theorem foldlM_fixed {f : α → ρ → Except ε α} {a : α} (h : ∀ r, f a r = .ok a)
    (rows : List ρ) : rows.foldlM f a = .ok a := by
  induction rows with
  | nil => rfl
  | cons r rows ih =>
    rw [List.foldlM_cons, h]
    exact ih

end SquealDb.Lib
