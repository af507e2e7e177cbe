import Mathlib.Algebra.GroupWithZero.Nat
import Mathlib.Data.List.Perm.Basic
import Mathlib.Order.Interval.Finset.Nat

/-!
# Spans of a heap

A heap fills a buffer of `size` cells from its end down to `floor`.  `Packed` says
that the spans lie in it apart from each other, and how many of its cells belong to
none.  In what order the spans are listed does not matter.

Nothing in this module names a particular heap.
-/

namespace SquealDb.Lib

/-- `len` cells from `start` on. -/
structure Span where
  start : Nat
  len : Nat
  deriving DecidableEq, Repr

namespace Span

/-- Where it ends. -/
def stop (s : Span) : Nat := s.start + s.len

/-- The two share no cell. -/
def Apart (s t : Span) : Prop := s.stop ≤ t.start ∨ t.stop ≤ s.start

theorem Apart.symm {s t : Span} (h : s.Apart t) : t.Apart s := Or.symm h

/-- How many cells a list of spans has. -/
def total (spans : List Span) : Nat := (spans.map len).sum

@[simp] theorem total_nil : total [] = 0 := rfl

@[simp] theorem total_cons (s : Span) (spans : List Span) :
    total (s :: spans) = s.len + total spans := rfl

/-- The cells of a list of spans. -/
def cells : List Span → Finset Nat
  | [] => ∅
  | s :: spans => Finset.Ico s.start s.stop ∪ cells spans

theorem mem_cells {spans : List Span} {i : Nat} :
    i ∈ cells spans ↔ ∃ s ∈ spans, s.start ≤ i ∧ i < s.stop := by
  induction spans with
  | nil => simp [cells]
  | cons s spans ih => simp [cells, ih]

theorem card_cells {spans : List Span} (h : spans.Pairwise Apart) :
    (cells spans).card = total spans := by
  induction spans with
  | nil => rfl
  | cons s spans ih =>
    obtain ⟨hhead, htail⟩ := List.pairwise_cons.mp h
    have hdisjoint : Disjoint (Finset.Ico s.start s.stop) (cells spans) := by
      rw [Finset.disjoint_left]
      intro i hi hmem
      obtain ⟨t, ht, hlow, hhigh⟩ := mem_cells.mp hmem
      have hin := Finset.mem_Ico.mp hi
      rcases hhead t ht with hst | hts
      · omega
      · omega
    rw [cells, Finset.card_union_of_disjoint hdisjoint, ih htail, Nat.card_Ico, total_cons, stop,
      Nat.add_sub_cancel_left]

/-- Spans apart from each other have no more cells than what they lie in. -/
theorem total_le {spans : List Span} {low high : Nat} (h : spans.Pairwise Apart)
    (hin : ∀ s ∈ spans, low ≤ s.start ∧ s.stop ≤ high) : total spans ≤ high - low := by
  have hsubset : cells spans ⊆ Finset.Ico low high := by
    intro i hi
    obtain ⟨s, hs, hlow, hhigh⟩ := mem_cells.mp hi
    have hspan := hin s hs
    rw [Finset.mem_Ico]
    omega
  have hcard := Finset.card_le_card hsubset
  rw [card_cells h, Nat.card_Ico] at hcard
  exact hcard

theorem total_perm {spans spans' : List Span} (h : spans.Perm spans') :
    total spans = total spans' := (h.map len).sum_eq

end Span

/-- The spans lie apart in `[floor, size)`, and `dead` cells of it are in none. -/
structure Packed (size floor dead : Nat) (spans : List Span) : Prop where
  floor_le : floor ≤ size
  inside : ∀ s ∈ spans, floor ≤ s.start ∧ s.stop ≤ size
  apart : spans.Pairwise Span.Apart
  dead_eq : dead + Span.total spans = size - floor

namespace Packed

variable {size floor dead : Nat} {spans spans' : List Span} {s t : Span}

theorem empty (size : Nat) : Packed size size 0 [] where
  floor_le := Nat.le_refl size
  inside _ h := nomatch h
  apart := .nil
  dead_eq := by rw [Span.total_nil, Nat.sub_self]

theorem perm (h : Packed size floor dead spans) (hperm : spans.Perm spans') :
    Packed size floor dead spans' where
  floor_le := h.floor_le
  inside s hs := h.inside s (hperm.mem_iff.mpr hs)
  apart := (hperm.pairwise_iff Span.Apart.symm).mp h.apart
  dead_eq := by
    rw [← Span.total_perm hperm]
    exact h.dead_eq

/-- A span taken right below the floor. -/
theorem cons {n : Nat} (h : Packed size floor dead spans) (hn : n ≤ floor) :
    Packed size (floor - n) dead (⟨floor - n, n⟩ :: spans) where
  floor_le := Nat.le_trans (Nat.sub_le floor n) h.floor_le
  inside s hs := by
    have hfloor := h.floor_le
    rcases List.mem_cons.mp hs with rfl | hs
    · refine ⟨Nat.le_refl _, ?_⟩
      show floor - n + n ≤ size
      omega
    · have hold := h.inside s hs
      exact ⟨by omega, hold.2⟩
  apart := by
    refine List.pairwise_cons.mpr ⟨fun s hs => Or.inl ?_, h.apart⟩
    have hold := h.inside s hs
    show floor - n + n ≤ s.start
    omega
  dead_eq := by
    have hdead := h.dead_eq
    have hfloor := h.floor_le
    rw [Span.total_cons]
    dsimp only
    omega

/-- A span behind the end. -/
theorem above (h : Packed size floor dead spans) (n : Nat) :
    Packed (size + n) floor dead (⟨size, n⟩ :: spans) where
  floor_le := Nat.le_trans h.floor_le (Nat.le_add_right size n)
  inside s hs := by
    rcases List.mem_cons.mp hs with rfl | hs
    · exact ⟨h.floor_le, Nat.le_refl _⟩
    · have hold := h.inside s hs
      exact ⟨hold.1, by omega⟩
  apart := List.pairwise_cons.mpr ⟨fun s hs => Or.inr (h.inside s hs).2, h.apart⟩
  dead_eq := by
    have hdead := h.dead_eq
    have hfloor := h.floor_le
    rw [Span.total_cons]
    dsimp only
    omega

/-- A span that is part of one, in its place. -/
theorem shrink (h : Packed size floor dead (s :: spans)) (hstart : t.start = s.start)
    (hlen : t.len ≤ s.len) : Packed size floor (dead + (s.len - t.len)) (t :: spans) where
  floor_le := h.floor_le
  inside u hu := by
    rcases List.mem_cons.mp hu with rfl | hu
    · have hold := h.inside s List.mem_cons_self
      simp only [Span.stop] at hold ⊢
      omega
    · exact h.inside u (List.mem_cons_of_mem s hu)
  apart := by
    obtain ⟨hhead, htail⟩ := List.pairwise_cons.mp h.apart
    refine List.pairwise_cons.mpr ⟨fun u hu => ?_, htail⟩
    have hold := hhead u hu
    simp only [Span.Apart, Span.stop] at hold ⊢
    omega
  dead_eq := by
    have hdead := h.dead_eq
    rw [Span.total_cons] at hdead ⊢
    omega

/-- A span given up. -/
theorem tail (h : Packed size floor dead (s :: spans)) :
    Packed size floor (dead + s.len) spans where
  floor_le := h.floor_le
  inside u hu := h.inside u (List.mem_cons_of_mem s hu)
  apart := (List.pairwise_cons.mp h.apart).2
  dead_eq := by
    have hdead := h.dead_eq
    rw [Span.total_cons] at hdead
    omega

/-- The spans behind some of them given up. -/
theorem append_left {after : List Span} (h : Packed size floor dead (spans ++ after)) :
    Packed size floor (dead + Span.total after) spans := by
  induction after generalizing dead with
  | nil =>
    rw [List.append_nil] at h
    exact h
  | cons s after ih =>
    have hrest := ih (h.perm List.perm_middle).tail
    rw [Span.total_cons, ← Nat.add_assoc]
    exact hrest

/-- The floor may be raised to any place no span is below. -/
theorem raise {floor' : Nat} (h : Packed size floor dead spans) (hle : floor ≤ floor')
    (hsize : floor' ≤ size) (habove : ∀ s ∈ spans, floor' ≤ s.start) :
    Packed size floor' (dead - (floor' - floor)) spans where
  floor_le := hsize
  inside s hs := ⟨habove s hs, (h.inside s hs).2⟩
  apart := h.apart
  dead_eq := by
    have hdead := h.dead_eq
    have hroom := Span.total_le h.apart fun s hs => ⟨habove s hs, (h.inside s hs).2⟩
    omega

end Packed

end SquealDb.Lib
