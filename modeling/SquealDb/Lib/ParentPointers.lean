import Mathlib.Data.List.Cycle
import Mathlib.Logic.Relation

/-!
# Parent pointers of a search

A search from a root that records, for each node it meets, the node it met it from.
Following the pointers leads back to the root along distinct nodes, and a pointer recorded
for the root itself closes a simple cycle.
-/

namespace SquealDb.Lib.ParentPointers

variable {α : Type*} {edge : α → α → Prop} {root : α} {via : List (α × α)}

/-- What a search from `root` records, newest first: each node once, with a node recorded
before it, or the root, from which an edge leads to it. -/
inductive Recorded (edge : α → α → Prop) (root : α) : List (α × α) → Prop
  | nil : Recorded edge root []
  | cons {via : List (α × α)} {a b : α} : Recorded edge root via → b ∉ via.map Prod.fst →
      (a = root ∨ a ∈ via.map Prod.fst) → edge a b → Recorded edge root ((b, a) :: via)

/-- Every node of a cycle leads to itself. -/
theorem transGen_of_mem_cycle {c : Cycle α} (hc : c.Chain edge) {a : α} (ha : a ∈ c) :
    Relation.TransGen edge a a := by
  have htrans : c.Chain (Relation.TransGen edge) :=
    hc.imp fun _ _ h => Relation.TransGen.single h
  exact Cycle.chain_iff_pairwise.1 htrans a ha a ha

variable [DecidableEq α]

/-- The pointers lead from a node to the root through these nodes, the node itself first
and the root left out. -/
inductive Climbs (via : List (α × α)) (root : α) : α → List α → Prop
  | done : Climbs via root root []
  | step {x a : α} {path : List α} : x ≠ root → via.lookup x = some a →
      Climbs via root a path → Climbs via root x (x :: path)

private theorem mem_of_lookup {x a : α} (h : via.lookup x = some a) : x ∈ via.map Prod.fst := by
  obtain ⟨l₁, l₂, rfl, -⟩ := List.lookup_eq_some_iff.1 h
  simp

theorem exists_lookup {x : α} (h : x ∈ via.map Prod.fst) : ∃ a, via.lookup x = some a := by
  rw [← Option.isSome_iff_exists, Option.isSome_iff_ne_none, ne_eq, List.lookup_eq_none_iff]
  obtain ⟨p, hp, rfl⟩ := List.mem_map.1 h
  intro hnone
  simpa using hnone p hp

theorem Climbs.cons {x b a : α} {path : List α} (hb : b ∉ via.map Prod.fst)
    (h : Climbs via root x path) : Climbs ((b, a) :: via) root x path := by
  induction h with
  | done => exact .done
  | step hne hlookup _ ih =>
    apply Climbs.step hne _ ih
    rw [List.lookup_cons, ← hlookup, beq_false_of_ne]
    rintro rfl
    exact hb (mem_of_lookup hlookup)

theorem Climbs.head {x : α} {path : List α} (h : Climbs via root x path) :
    ∃ rest, path ++ [root] = x :: rest := by
  cases h with
  | done => exact ⟨[], rfl⟩
  | step _ _ _ => exact ⟨_, rfl⟩

/-- From the root and from every recorded node the pointers lead to the root, against the
edges and along distinct nodes. -/
theorem Recorded.climb (h : Recorded edge root via) {x : α}
    (hx : x = root ∨ x ∈ via.map Prod.fst) :
    ∃ path, Climbs via root x path ∧ (root :: path).Nodup ∧
      (∀ y ∈ path, y ∈ via.map Prod.fst) ∧
      (path ++ [root]).IsChain fun a b => edge b a := by
  induction h generalizing x with
  | nil =>
    obtain rfl : x = root := by simpa using hx
    exact ⟨[], .done, by simp, by simp, by simp⟩
  | @cons via a b _ hnew ha hedge ih =>
    by_cases hroot : x = root
    · subst hroot
      exact ⟨[], .done, by simp, by simp, by simp⟩
    by_cases hxb : x = b
    · subst hxb
      obtain ⟨path, hclimbs, hnodup, hmem, hchain⟩ := ih ha
      have hx : x ∉ path := fun h => hnew (hmem x h)
      refine ⟨x :: path, .step hroot ?_ (hclimbs.cons hnew), ?_, ?_, ?_⟩
      · simp
      · simp only [List.nodup_cons, List.mem_cons, not_or] at hnodup ⊢
        exact ⟨⟨Ne.symm hroot, hnodup.1⟩, hx, hnodup.2⟩
      · intro y hy
        rcases List.mem_cons.1 hy with rfl | hy
        · exact List.mem_cons_self
        · exact List.mem_cons_of_mem _ (hmem y hy)
      · obtain ⟨rest, hrest⟩ := hclimbs.head
        rw [hrest] at hchain
        rw [List.cons_append, hrest]
        exact List.isChain_cons_cons.2 ⟨hedge, hchain⟩
    · have hold : x ∈ via.map Prod.fst := by
        simpa [hroot, hxb] using hx
      obtain ⟨path, hclimbs, hnodup, hmem, hchain⟩ := ih (Or.inr hold)
      exact ⟨path, hclimbs.cons hnew, hnodup,
        fun y hy => List.mem_cons_of_mem _ (hmem y hy), hchain⟩

theorem Recorded.edge_of_lookup (h : Recorded edge root via) {x a : α}
    (hx : via.lookup x = some a) : edge a x ∧ (a = root ∨ a ∈ via.map Prod.fst) := by
  induction h with
  | nil => simp at hx
  | @cons via a' b _ _ ha hedge ih =>
    rw [List.lookup_cons] at hx
    split at hx
    · rename_i heq
      cases hx
      rw [beq_iff_eq] at heq
      subst heq
      exact ⟨hedge, ha.imp_right (List.mem_cons_of_mem _)⟩
    · exact (ih hx).imp_right (Or.imp_right (List.mem_cons_of_mem _))

/-- A pointer of the root closes a simple cycle. -/
theorem Recorded.cycle (h : Recorded edge root via) {a : α} (ha : via.lookup root = some a) :
    ∃ path, Climbs via root a path ∧ path.length + 1 ≤ via.length ∧
      (root :: path).Nodup ∧ Cycle.Chain edge (root :: path.reverse : List α) := by
  have hlast := h.edge_of_lookup ha
  obtain ⟨path, hclimbs, hnodup, hmem, hchain⟩ := h.climb hlast.2
  refine ⟨path, hclimbs, ?_, hnodup, ?_⟩
  · have hsub : root :: path ⊆ via.map Prod.fst :=
      List.cons_subset.2 ⟨mem_of_lookup ha, hmem⟩
    have hlen := (hnodup.subperm hsub).length_le
    rwa [List.length_cons, List.length_map] at hlen
  · rw [Cycle.chain_coe_cons]
    have hclosed : (root :: (path ++ [root])).IsChain fun a b => edge b a := by
      obtain ⟨rest, hrest⟩ := hclimbs.head
      rw [hrest] at hchain
      rw [hrest]
      exact List.isChain_cons_cons.2 ⟨hlast.1, hchain⟩
    have hrev := List.isChain_reverse.2 hclosed
    simpa using hrev

end SquealDb.Lib.ParentPointers
