import Mathlib.Data.List.Destutter
import Mathlib.Data.Set.Defs
import Mathlib.Order.Basic

/-!
# Comparison functions that order a set

A comparison of which a program uses only the values of some set is a total preorder there
when it is antisymmetric as an `Ordering` and transitive.
-/

namespace SquealDb.Lib

variable {α : Type} {cmp : α → α → Ordering} {S : Set α} {a b c : α}

/-- The comparison is a total preorder of the set. -/
structure Orderly (cmp : α → α → Ordering) (S : Set α) : Prop where
  swap : ∀ a ∈ S, ∀ b ∈ S, cmp b a = (cmp a b).swap
  trans : ∀ a ∈ S, ∀ b ∈ S, ∀ c ∈ S,
    (cmp a b).isLE = true → (cmp b c).isLE = true → (cmp a c).isLE = true

namespace Orderly

theorem of_transCmp [Std.TransCmp cmp] : Orderly cmp S where
  swap _ _ _ _ := Std.OrientedCmp.eq_swap
  trans _ _ _ _ _ _ hab hbc := Std.TransCmp.isLE_trans hab hbc

theorem congr {cmp' : α → α → Ordering} (h : Orderly cmp' S)
    (heq : ∀ a ∈ S, ∀ b ∈ S, cmp a b = cmp' a b) : Orderly cmp S where
  swap a ha b hb := by
    rw [heq a ha b hb, heq b hb a ha]
    exact h.swap a ha b hb
  trans a ha b hb c hc := by
    rw [heq a ha b hb, heq b hb c hc, heq a ha c hc]
    exact h.trans a ha b hb c hc

theorem subset (h : Orderly cmp S) {T : Set α} (hsub : ∀ a ∈ T, a ∈ S) : Orderly cmp T where
  swap a ha b hb := h.swap a (hsub a ha) b (hsub b hb)
  trans a ha b hb c hc := h.trans a (hsub a ha) b (hsub b hb) c (hsub c hc)

theorem refl (h : Orderly cmp S) (ha : a ∈ S) : cmp a a = .eq := by
  have hswap := h.swap a ha a ha
  cases hcmp : cmp a a with
  | eq => rfl
  | lt => rw [hcmp] at hswap; cases hswap
  | gt => rw [hcmp] at hswap; cases hswap

theorem eq_symm (h : Orderly cmp S) (ha : a ∈ S) (hb : b ∈ S) (hab : cmp a b = .eq) :
    cmp b a = .eq := by
  rw [h.swap a ha b hb, hab]
  rfl

/-- Below a tie is below. -/
theorem lt_of_lt_of_le (h : Orderly cmp S) (ha : a ∈ S) (hb : b ∈ S) (hc : c ∈ S)
    (hab : cmp a b = .lt) (hbc : (cmp b c).isLE = true) : cmp a c = .lt := by
  have hle := h.trans a ha b hb c hc (by rw [hab]; rfl) hbc
  cases hac : cmp a c with
  | lt => rfl
  | gt => rw [hac] at hle; cases hle
  | eq =>
    have hca := h.eq_symm ha hc hac
    have hback := h.trans b hb c hc a ha hbc (by rw [hca]; rfl)
    rw [h.swap a ha b hb, hab] at hback
    cases hback

theorem lt_of_le_of_lt (h : Orderly cmp S) (ha : a ∈ S) (hb : b ∈ S) (hc : c ∈ S)
    (hab : (cmp a b).isLE = true) (hbc : cmp b c = .lt) : cmp a c = .lt := by
  have hle := h.trans a ha b hb c hc hab (by rw [hbc]; rfl)
  cases hac : cmp a c with
  | lt => rfl
  | gt => rw [hac] at hle; cases hle
  | eq =>
    have hca := h.eq_symm ha hc hac
    have hback := h.trans c hc a ha b hb (by rw [hca]; rfl) hab
    rw [h.swap b hb c hc, hbc] at hback
    cases hback

theorem eq_trans (h : Orderly cmp S) (ha : a ∈ S) (hb : b ∈ S) (hc : c ∈ S)
    (hab : cmp a b = .eq) (hbc : cmp b c = .eq) : cmp a c = .eq := by
  have hle := h.trans a ha b hb c hc (by rw [hab]; rfl) (by rw [hbc]; rfl)
  have hge := h.trans c hc b hb a ha (by rw [h.eq_symm hb hc hbc]; rfl)
    (by rw [h.eq_symm ha hb hab]; rfl)
  rw [h.swap a ha c hc] at hge
  cases hac : cmp a c with
  | eq => rfl
  | lt => rw [hac] at hge; cases hge
  | gt => rw [hac] at hle; cases hle

/-- The other way round. -/
theorem flip (h : Orderly cmp S) : Orderly (fun a b => (cmp a b).swap) S where
  swap a ha b hb := by rw [h.swap a ha b hb]
  trans a ha b hb c hc hab hbc := by
    rw [← h.swap a ha b hb] at hab
    rw [← h.swap b hb c hc] at hbc
    rw [← h.swap a ha c hc]
    exact h.trans c hc b hb a ha hbc hab

/-- By what a function makes of the elements. -/
theorem comap {β : Type} {f : β → α} {T : Set β} (h : Orderly cmp S)
    (hf : ∀ b ∈ T, f b ∈ S) : Orderly (fun a b => cmp (f a) (f b)) T where
  swap a ha b hb := h.swap _ (hf a ha) _ (hf b hb)
  trans a ha b hb c hc := h.trans _ (hf a ha) _ (hf b hb) _ (hf c hc)

/-- One comparison, and another where it ties. -/
theorem lex {cmp' : α → α → Ordering} (h : Orderly cmp S) (h' : Orderly cmp' S) :
    Orderly (fun a b => (cmp a b).then (cmp' a b)) S where
  swap a ha b hb := by
    rw [h.swap a ha b hb, h'.swap a ha b hb, Ordering.swap_then]
  trans a ha b hb c hc hab hbc := by
    cases hx : cmp a b with
    | gt => rw [hx] at hab; cases hab
    | lt =>
      have hle : (cmp b c).isLE = true := by
        cases hy : cmp b c with
        | gt => rw [hy] at hbc; cases hbc
        | lt => rfl
        | eq => rfl
      rw [h.lt_of_lt_of_le ha hb hc hx hle]
      rfl
    | eq =>
      cases hy : cmp b c with
      | gt => rw [hy] at hbc; cases hbc
      | lt =>
        rw [h.lt_of_le_of_lt ha hb hc (by rw [hx]; rfl) hy]
        rfl
      | eq =>
        rw [hx, Ordering.eq_then] at hab
        rw [hy, Ordering.eq_then] at hbc
        rw [h.eq_trans ha hb hc hx hy, Ordering.eq_then]
        exact h'.trans a ha b hb c hc hab hbc

/-! ## Dropping ties of an ascending list -/

variable {l : List α}

/-- No two elements that are kept tie with each other. -/
theorem pairwise_destutter (h : Orderly cmp S) (hmem : ∀ a ∈ l, a ∈ S)
    (hsorted : l.Pairwise fun a b => (cmp a b).isLE = true) :
    (l.destutter fun a b => cmp a b ≠ .eq).Pairwise fun a b => cmp a b = .lt := by
  have hsub := List.destutter_sublist (fun a b => cmp a b ≠ .eq) l
  have hkept := hsorted.sublist hsub
  have hchain := List.isChain_destutter (fun a b => cmp a b ≠ .eq) l
  have hin : ∀ a ∈ l.destutter fun a b => cmp a b ≠ .eq, a ∈ S :=
    fun a ha => hmem a (hsub.subset ha)
  clear hsub
  generalize (l.destutter fun a b => cmp a b ≠ .eq) = kept at *
  induction kept with
  | nil => exact List.Pairwise.nil
  | cons a kept ih =>
    rw [List.forall_mem_cons] at hin
    rw [List.pairwise_cons] at hkept ⊢
    have hrest := ih hkept.2 hchain.of_cons hin.2
    refine ⟨?_, hrest⟩
    cases kept with
    | nil => simp
    | cons b kept =>
      have hab : cmp a b = .lt := by
        have hle := hkept.1 b List.mem_cons_self
        have hne := (List.isChain_cons_cons.1 hchain).1
        cases hcmp : cmp a b with
        | lt => rfl
        | eq => exact absurd hcmp hne
        | gt => rw [hcmp] at hle; cases hle
      rw [List.forall_mem_cons]
      refine ⟨hab, fun c hc => ?_⟩
      have hbc := (List.pairwise_cons.1 hrest).1 c hc
      exact h.lt_of_lt_of_le hin.1 (hin.2 b List.mem_cons_self)
        (hin.2 c (List.mem_cons_of_mem b hc)) hab (by rw [hbc]; rfl)

private theorem destutter'_congr {R R' : α → α → Prop} [DecidableRel R] [DecidableRel R'] {x : α}
    (h : ∀ a ∈ x :: l, ∀ b ∈ x :: l, R a b ↔ R' a b) :
    l.destutter' R x = l.destutter' R' x := by
  induction l generalizing x with
  | nil => rfl
  | cons y l ih =>
    have hxy := h x List.mem_cons_self y (List.mem_cons_of_mem x List.mem_cons_self)
    have hy := ih fun a ha b hb => h a (List.mem_cons_of_mem x ha) b (List.mem_cons_of_mem x hb)
    have hskip : ∀ a ∈ x :: l, a ∈ x :: y :: l := by
      intro a ha
      rcases List.mem_cons.1 ha with rfl | ha
      · exact List.mem_cons_self
      · exact List.mem_cons_of_mem x (List.mem_cons_of_mem y ha)
    have hx := ih fun a ha b hb => h a (hskip a ha) b (hskip b hb)
    rw [List.destutter'_cons, List.destutter'_cons, hx, hy]
    simp only [hxy]

theorem destutter_congr {R R' : α → α → Prop} [DecidableRel R] [DecidableRel R']
    (h : ∀ a ∈ l, ∀ b ∈ l, R a b ↔ R' a b) : l.destutter R = l.destutter R' := by
  cases l with
  | nil => rfl
  | cons x l => exact destutter'_congr h

/-- Every element ties with one that is kept. -/
theorem exists_destutter (h : Orderly cmp S) (hmem : ∀ a ∈ l, a ∈ S) (ha : a ∈ l) :
    ∃ b ∈ l.destutter fun a b => cmp a b ≠ .eq, cmp a b = .eq := by
  cases l with
  | nil => cases ha
  | cons x l =>
    rw [List.destutter_cons']
    induction l generalizing x with
    | nil =>
      obtain rfl := List.mem_singleton.1 ha
      exact ⟨a, List.mem_destutter' _ _ _, h.refl (hmem a ha)⟩
    | cons y l ih =>
      simp only [List.forall_mem_cons] at hmem
      rw [List.destutter'_cons]
      split
      · rcases List.mem_cons.1 ha with rfl | ha
        · exact ⟨a, List.mem_cons_self, h.refl hmem.1⟩
        · obtain ⟨b, hb, hab⟩ := ih y (List.forall_mem_cons.2 hmem.2) ha
          exact ⟨b, List.mem_cons_of_mem x hb, hab⟩
      · rename_i heq
        have hxy : cmp x y = .eq := not_not.1 heq
        have hrest := ih x (List.forall_mem_cons.2 ⟨hmem.1, hmem.2.2⟩)
        rcases List.mem_cons.1 ha with rfl | ha
        · exact hrest List.mem_cons_self
        · rcases List.mem_cons.1 ha with rfl | ha
          · exact ⟨x, List.mem_destutter' _ _ _, h.eq_symm hmem.1 hmem.2.1 hxy⟩
          · exact hrest (List.mem_cons_of_mem x ha)

/-- Of a strictly ascending list, one element at most ties with another. -/
theorem countP_le_one (h : Orderly cmp S) (hmem : ∀ b ∈ l, b ∈ S) (ha : a ∈ S)
    (hsorted : l.Pairwise fun a b => cmp a b = .lt) :
    l.countP (fun b => cmp a b == .eq) ≤ 1 := by
  induction l with
  | nil => exact Nat.zero_le _
  | cons b l ih =>
    rw [List.forall_mem_cons] at hmem
    rw [List.pairwise_cons] at hsorted
    by_cases hab : cmp a b = .eq
    · have hrest : l.countP (fun b => cmp a b == .eq) = 0 := by
        rw [List.countP_eq_zero]
        intro c hc
        have hac := h.lt_of_le_of_lt ha hmem.1 (hmem.2 c hc) (by rw [hab]; rfl)
          (hsorted.1 c hc)
        rw [hac]
        decide
      rw [List.countP_cons, hrest]
      split <;> omega
    · rw [List.countP_cons_of_neg (by simpa using hab)]
      exact ih hmem.2 hsorted.2

/-- One element of each class of ties is kept. -/
theorem countP_destutter (h : Orderly cmp S) (hmem : ∀ a ∈ l, a ∈ S)
    (hsorted : l.Pairwise fun a b => (cmp a b).isLE = true) (ha : a ∈ l) :
    (l.destutter fun a b => cmp a b ≠ .eq).countP (fun b => cmp a b == .eq) = 1 := by
  have hsub := List.destutter_sublist (fun a b => cmp a b ≠ .eq) l
  have hle := h.countP_le_one (fun b hb => hmem b (hsub.subset hb)) (hmem a ha)
    (h.pairwise_destutter hmem hsorted)
  obtain ⟨b, hb, hab⟩ := h.exists_destutter hmem ha
  have hpos := List.countP_pos_iff (p := fun b => cmp a b == .eq).2 ⟨b, hb, by rw [hab]; rfl⟩
  omega

end Orderly

end SquealDb.Lib
