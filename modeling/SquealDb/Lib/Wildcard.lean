import Mathlib.Data.List.Forall2

/-!
# Patterns of runs and single elements

A pattern is a list of symbols.  A symbol either takes any run of elements or exactly one
element, of those it admits.  A list matches a pattern when it can be cut into one piece
for each symbol.
-/

namespace SquealDb.Lib.Wildcard

variable {σ α : Type}

/-- What a symbol takes: any run, or one element it admits. -/
def Takes (admits : σ → Option (α → Prop)) (symbol : σ) (piece : List α) : Prop :=
  match admits symbol with
  | none => True
  | some q => ∃ a, piece = [a] ∧ q a

/-- The list can be cut into one piece for each symbol of the pattern. -/
def Matches (admits : σ → Option (α → Prop)) (pattern : List σ) (list : List α) : Prop :=
  ∃ pieces, List.Forall₂ (Takes admits) pattern pieces ∧ pieces.flatten = list

variable {admits : σ → Option (α → Prop)} {s : σ} {ps : List σ} {q : α → Prop}

variable {list : List α}

theorem matches_cons :
    Matches admits (s :: ps) list ↔
      ∃ piece rest, list = piece ++ rest ∧ Takes admits s piece ∧ Matches admits ps rest := by
  constructor
  · rintro ⟨pieces, htakes, rfl⟩
    cases htakes with
    | cons hpiece hrest => exact ⟨_, _, rfl, hpiece, _, hrest, rfl⟩
  · rintro ⟨piece, rest, rfl, hpiece, pieces, hrest, rfl⟩
    exact ⟨piece :: pieces, .cons hpiece hrest, rfl⟩

theorem matches_nil_pattern : Matches admits [] list ↔ list = [] := by
  constructor
  · rintro ⟨pieces, htakes, rfl⟩
    cases htakes
    rfl
  · rintro rfl
    exact ⟨[], .nil, rfl⟩

/-- A symbol of one element takes the first. -/
theorem matches_single (hs : admits s = some q) :
    Matches admits (s :: ps) list ↔
      ∃ a rest, list = a :: rest ∧ q a ∧ Matches admits ps rest := by
  rw [matches_cons]
  simp only [Takes, hs]
  constructor
  · rintro ⟨_, rest, rfl, ⟨a, rfl, ha⟩, hrest⟩
    exact ⟨a, rest, rfl, ha, hrest⟩
  · rintro ⟨a, rest, rfl, ha, hrest⟩
    exact ⟨[a], rest, rfl, ⟨a, rfl, ha⟩, hrest⟩

/-- A run takes some of the first elements. -/
theorem matches_run (hs : admits s = none) :
    Matches admits (s :: ps) list ↔
      ∃ k, k ≤ list.length ∧ Matches admits ps (list.drop k) := by
  rw [matches_cons]
  simp only [Takes, hs, true_and]
  constructor
  · rintro ⟨piece, rest, rfl, hrest⟩
    refine ⟨piece.length, ?_, by rwa [List.drop_left]⟩
    rw [List.length_append]
    omega
  · rintro ⟨k, -, hrest⟩
    exact ⟨list.take k, list.drop k, (List.take_append_drop k list).symm, hrest⟩

/-- A run takes nothing, or the first element and then more. -/
theorem matches_run_step (hs : admits s = none) :
    Matches admits (s :: ps) list ↔
      Matches admits ps list ∨ 0 < list.length ∧ Matches admits (s :: ps) (list.drop 1) := by
  rw [matches_run hs, matches_run hs]
  constructor
  · rintro ⟨k, hlen, hk⟩
    cases k with
    | zero => exact Or.inl hk
    | succ k =>
      refine Or.inr ⟨by omega, k, ?_, ?_⟩
      · rw [List.length_drop]
        omega
      · rwa [List.drop_drop, Nat.add_comm]
  · rintro (h | ⟨hpos, k, hlen, hk⟩)
    · exact ⟨0, Nat.zero_le _, h⟩
    · rw [List.length_drop] at hlen
      rw [List.drop_drop] at hk
      exact ⟨1 + k, by omega, hk⟩

/-- A pattern that starts with a run matches every longer list. -/
theorem Matches.extend (hs : admits s = none) {k : Nat} (hk : k ≤ list.length)
    (h : Matches admits (s :: ps) (list.drop k)) :
    Matches admits (s :: ps) list := by
  obtain ⟨j, hj, hrest⟩ := (matches_run hs).1 h
  rw [List.drop_drop] at hrest
  rw [List.length_drop] at hj
  exact (matches_run hs).2 ⟨k + j, by omega, hrest⟩

/-- Nothing is left for a pattern exactly when all its symbols take runs. -/
theorem matches_nil : Matches admits ps [] ↔ ∀ s ∈ ps, admits s = none := by
  induction ps with
  | nil => simp [matches_nil_pattern]
  | cons s ps ih =>
    rw [List.forall_mem_cons, ← ih]
    cases hs : admits s with
    | none => simp [matches_run hs]
    | some q => simp [matches_single hs]

/-- Symbols of one element take as many elements as they are. -/
theorem Matches.singles {seg : List σ} (hseg : ∀ s ∈ seg, (admits s).isSome)
    (h : Matches admits (seg ++ ps) list) :
    seg.length ≤ list.length ∧ Matches admits ps (list.drop seg.length) := by
  induction seg generalizing list with
  | nil => exact ⟨Nat.zero_le _, h⟩
  | cons s seg ih =>
    obtain ⟨q, hq⟩ := Option.isSome_iff_exists.1 (hseg s List.mem_cons_self)
    obtain ⟨a, rest, rfl, -, hrest⟩ := (matches_single hq).1 h
    have hrec := ih (fun s hs => hseg s (List.mem_cons_of_mem _ hs)) hrest
    exact ⟨Nat.succ_le_succ hrec.1, hrec.2⟩

end SquealDb.Lib.Wildcard
