import Mathlib.Data.List.Basic

/-!
# Version chains

A version of a row may name, by the number of a record, the version it
replaced; the record keeps that older version until it is discarded.  Record
numbers only go down along such a chain, so a walk along it ends.

`Path` is the walk itself, from one version to another.  `Chain` is a walk
that has come to its end, in one of two ways: at a version that replaced
nothing, or at one whose record was discarded, which is allowed only where
nobody walks past it (`settled`).

Versions, records and what `settled` means are parameters: nothing in this
module names a particular store.
-/

namespace SquealDb.Lib

variable {V : Type*} (link : V → Option Nat) (store : Nat → Option V)

/-- The walk from `x` along `vs` to `y`. -/
inductive Path : Option V → List V → Option V → Prop
  | nil (x : Option V) : Path x [] x
  | first {v : V} : link v = none → Path (some v) [v] none
  | cons {v p : V} {l : Nat} {vs : List V} {y : Option V} :
      link v = some l → store l = some p → (∀ l', link p = some l' → l' < l) →
      Path (some p) vs y → Path (some v) (v :: vs) y

/-- All that a walk from `x` meets. -/
inductive Chain (settled : V → Prop) : Option V → List V → Prop
  | nil : Chain settled none []
  | first {v : V} : link v = none → Chain settled (some v) [v]
  | cut {v : V} {l : Nat} :
      link v = some l → store l = none → settled v → Chain settled (some v) [v]
  | cons {v p : V} {l : Nat} {vs : List V} :
      link v = some l → store l = some p → (∀ l', link p = some l' → l' < l) →
      Chain settled (some p) vs → Chain settled (some v) (v :: vs)

variable {link store} {settled : V → Prop} {x y : Option V} {vs : List V}

namespace Path

theorem head_eq (h : Path link store x vs y) (hne : vs ≠ []) : x = vs.head? := by
  cases h with
  | nil => exact absurd rfl hne
  | first => rfl
  | cons => rfl

theorem eq_of_nil (h : Path link store x [] y) : x = y := by
  cases h
  rfl

/-- A walk that reaches a chain extends it. -/
theorem append_chain (h : Path link store x vs y) {ws : List V}
    (hc : Chain link store settled y ws) : Chain link store settled x (vs ++ ws) := by
  induction h with
  | nil => exact hc
  | first hl =>
    cases hc
    exact Chain.first hl
  | cons hl hs hlt _ ih => exact Chain.cons hl hs hlt (ih hc)

/-- A walk depends only on the records its versions name. -/
theorem mono_store {store' : Nat → Option V} (h : Path link store x vs y)
    (hmono : ∀ v, (x = some v ∨ ∃ l, store l = some v) → v ∈ vs →
      ∀ l p, link v = some l → store l = some p → store' l = some p) :
    Path link store' x vs y := by
  induction h with
  | nil => exact Path.nil _
  | first hl => exact Path.first hl
  | @cons v p l vs y hl hs hlt _ ih =>
    have hl' : store' l = some p := hmono v (Or.inl rfl) (by simp) l p hl hs
    refine Path.cons hl hl' hlt (ih fun u hu hmem => hmono u ?_ (List.mem_cons_of_mem _ hmem))
    rcases hu with hu | hu
    · cases hu
      exact Or.inr ⟨l, hs⟩
    · exact Or.inr hu

end Path

namespace Chain

theorem head_eq (h : Chain link store settled x vs) : x = vs.head? := by
  cases h with
  | nil => rfl
  | first => rfl
  | cut => rfl
  | cons => rfl

/-- A chain depends only on the records its versions name. -/
theorem congr_store {store' : Nat → Option V} (h : Chain link store settled x vs)
    (heq : ∀ v ∈ vs, ∀ l, link v = some l → store' l = store l) :
    Chain link store' settled x vs := by
  induction h with
  | nil => exact Chain.nil
  | first hl => exact Chain.first hl
  | @cut v l hl hs hset => exact Chain.cut hl ((heq v (by simp) l hl).trans hs) hset
  | @cons v p l vs hl hs hlt _ ih =>
    have hl' : store' l = some p := (heq v (by simp) l hl).trans hs
    exact Chain.cons hl hl' hlt (ih fun u hu => heq u (List.mem_cons_of_mem _ hu))

theorem mono {settled' : V → Prop} (h : Chain link store settled x vs)
    (hset : ∀ v ∈ vs, settled v → settled' v) : Chain link store settled' x vs := by
  induction h with
  | nil => exact Chain.nil
  | first hl => exact Chain.first hl
  | cut hl hs hv => exact Chain.cut hl hs (hset _ (by simp) hv)
  | cons hl hs hlt _ ih =>
    exact Chain.cons hl hs hlt (ih fun u hu => hset u (List.mem_cons_of_mem _ hu))

theorem mem_stored (h : Chain link store settled x vs) {v : V} (hv : v ∈ vs) :
    x = some v ∨ ∃ l, store l = some v := by
  induction h with
  | nil => cases hv
  | first =>
    rw [List.mem_singleton] at hv
    exact Or.inl (congrArg some hv.symm)
  | cut =>
    rw [List.mem_singleton] at hv
    exact Or.inl (congrArg some hv.symm)
  | @cons u p l vs hl hs hlt _ ih =>
    rcases List.mem_cons.mp hv with rfl | hv
    · exact Or.inl rfl
    · rcases ih hv with heq | hst
      · cases heq
        exact Or.inr ⟨l, hs⟩
      · exact Or.inr hst

/-- Discarding records leaves a chain that ends at the first version whose
record is gone. -/
theorem discard (h : Chain link store settled x vs) (store' : Nat → Option V)
    (hdis : ∀ v ∈ vs, ∀ l, link v = some l →
      store' l = store l ∨ (store' l = none ∧ settled v)) :
    ∃ kept gone, vs = kept ++ gone ∧ Chain link store' settled x kept ∧
      (gone = [] ∨ ∃ v, kept.getLast? = some v ∧ settled v) := by
  induction h with
  | nil => exact ⟨[], [], rfl, Chain.nil, Or.inl rfl⟩
  | @first v hl => exact ⟨[v], [], rfl, Chain.first hl, Or.inl rfl⟩
  | @cut v l hl hs hset =>
    have hs' : store' l = none := by
      rcases hdis v (by simp) l hl with heq | ⟨hnone, -⟩
      · exact heq.trans hs
      · exact hnone
    exact ⟨[v], [], rfl, Chain.cut hl hs' hset, Or.inl rfl⟩
  | @cons v p l vs hl hs hlt hc ih =>
    rcases hdis v (by simp) l hl with heq | ⟨hnone, hset⟩
    · obtain ⟨kept, gone, rfl, hkept, hgone⟩ :=
        ih fun u hu => hdis u (List.mem_cons_of_mem _ hu)
      refine ⟨v :: kept, gone, rfl, Chain.cons hl (heq.trans hs) hlt hkept, ?_⟩
      rcases hgone with hgone | ⟨u, hu, hset⟩
      · exact Or.inl hgone
      · refine Or.inr ⟨u, ?_, hset⟩
        rw [List.getLast?_cons, hu]
        rfl
    · exact ⟨[v], vs, rfl, Chain.cut hl hnone hset, Or.inr ⟨v, rfl, hset⟩⟩

end Chain

end SquealDb.Lib
