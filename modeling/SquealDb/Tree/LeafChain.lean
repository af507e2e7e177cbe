import Mathlib.Data.Finset.Card
import Mathlib.Data.Finset.Filter
import Mathlib.Data.Finset.Range
import SquealDb.Tree.Lookup

/-!
# The chain of leaves

A tree that no write touches: `find_leaf_page`, `first_leaf_page` and `next_leaf_page` of
`tables/bplustree.rs`. From any leaf on, the links between leaves lead through the leaves to
its right, one after another, so that the rows come in ascending order and none is missed.
-/

namespace SquealDb.Tree

variable {κ ρ : Type*} [LinearOrder κ] [BoundedOrder κ]

/-! ## Finding leaves -/

omit [BoundedOrder κ] in
/-- `find_leaf_page`: `route_to_leaf` from a page, in as many reads as are allowed. -/
def findLeafPage (store : PageId → Page κ ρ) (id : κ) : Nat → PageId → Option (Page κ ρ)
  | 0, _ => none
  | fuel + 1, p =>
    match (store p).hop id with
    | some q => findLeafPage store id fuel q
    | none => some (store p)

omit [LinearOrder κ] [BoundedOrder κ] in
/-- `first_leaf_of`: down the first routing entries. -/
def firstLeafPage (store : PageId → Page κ ρ) : Nat → PageId → Option (Page κ ρ)
  | 0, _ => none
  | fuel + 1, p =>
    match (store p).content with
    | .leaf _ => some (store p)
    | .inner [] => some (store p)
    | .inner ((_, c) :: _) => firstLeafPage store fuel c

omit [LinearOrder κ] [BoundedOrder κ] in
def nextLeafPage (store : PageId → Page κ ρ) (page : Page κ ρ) : Option (Page κ ρ) :=
  page.nextPage.map store

/-- A leaf's rows. -/
def Page.rows (page : Page κ ρ) : List (κ × ρ) :=
  match page.content with
  | .leaf rows => rows
  | .inner _ => []

/-- The rows of a leaf and of the leaves that its links lead to. -/
inductive Chain (store : PageId → Page κ ρ) : Page κ ρ → List (κ × ρ) → Prop
  | last {page : Page κ ρ} (h : nextLeafPage store page = none) : Chain store page page.rows
  | next {page next : Page κ ρ} {rest : List (κ × ρ)} (h : nextLeafPage store page = some next)
      (hrest : Chain store next rest) : Chain store page (page.rows ++ rest)

/-- A B-link tree of finitely many pages that no write touches. -/
structure Still (store : PageId → Page κ ρ) (root : PageId) (sh : Shape κ) (alloc : Nat) :
    Prop where
  tree : Blink store root sh
  fresh : ∀ p, sh.linked p → p < alloc

namespace Still

variable {store : PageId → Page κ ρ} {root p q : PageId} {sh : Shape κ} {alloc : Nat} {id : κ}

/-- The row is in a leaf of the tree. -/
def Has (store : PageId → Page κ ρ) (sh : Shape κ) (row : κ × ρ) : Prop :=
  ∃ p, sh.linked p ∧ sh.level p = 0 ∧ row ∈ (store p).rows

theorem content_leaf (h : Still store root sh alloc) (hp : sh.linked p) (hlevel : sh.level p = 0) :
    (store p).content = .leaf (store p).rows := by
  unfold Page.rows
  cases hcontent : (store p).content with
  | leaf rows => rfl
  | inner children =>
    obtain ⟨hne, hroutes⟩ := (h.tree.fits p hp).inner children hcontent
    obtain ⟨e, es, rfl⟩ := List.exists_cons_of_ne_nil hne
    have hchild := hroutes.2.1.level
    omega

theorem rows_ascending (h : Still store root sh alloc) (hp : sh.linked p)
    (hlevel : sh.level p = 0) : ((store p).rows.map Prod.fst).Pairwise (· < ·) :=
  ((h.tree.fits p hp).leaf _ (h.content_leaf hp hlevel)).2.1

theorem rows_range (h : Still store root sh alloc) (hp : sh.linked p) (hlevel : sh.level p = 0)
    {row : κ × ρ} (hrow : row ∈ (store p).rows) : sh.low p ≤ row.1 ∧ row.1 < sh.top p :=
  ((h.tree.fits p hp).leaf _ (h.content_leaf hp hlevel)).2.2 row.1 (List.mem_map_of_mem hrow)

/-- Of two pages of a level, the one that does not begin first is behind the other. -/
theorem before_of_le (h : Still store root sh alloc) (hp : sh.linked p) (hq : sh.linked q)
    (hlevel : sh.level p = sh.level q) (hle : sh.low p ≤ sh.low q) (hne : p ≠ q) :
    sh.Before p q := by
  rcases h.tree.apart p q hp hq hlevel hne with hbefore | ⟨high, hhigh, hbefore⟩
  · exact hbefore
  · have hlt := ((h.tree.fits q hq).next high hhigh).1
    exact absurd (lt_of_lt_of_le hlt (le_trans hbefore hle)) (lt_irrefl _)

/-- The leaf to the right of a leaf, if its range ends. -/
theorem next_leaf (h : Still store root sh alloc) (hp : sh.linked p) :
    sh.high p = none ∧ nextLeafPage store (store p) = none ∨
      ∃ q, sh.high p = some (sh.low q) ∧ nextLeafPage store (store p) = some (store q) ∧
        sh.linked q ∧ sh.level q = sh.level p ∧ sh.low p < sh.low q := by
  have hfits := h.tree.fits p hp
  cases hhigh : sh.high p with
  | none => exact .inl ⟨rfl, by rw [nextLeafPage, hfits.last hhigh]; rfl⟩
  | some high =>
    obtain ⟨hlt, q, hnext, hq, hlevel, hlow⟩ := hfits.next high hhigh
    refine .inr ⟨q, by rw [hlow], ?_, hq, hlevel, hlow ▸ hlt⟩
    rw [nextLeafPage, hnext]
    rfl

open Classical in
/-- The pages whose range begins behind that of `p`. -/
noncomputable def behind (sh : Shape κ) (alloc : Nat) (p : PageId) : Finset PageId :=
  (Finset.range alloc).filter fun x => sh.low p < sh.low x

omit [BoundedOrder κ] in
theorem card_behind_lt (hq : q < alloc) (hlt : sh.low p < sh.low q) :
    (behind sh alloc q).card < (behind sh alloc p).card := by
  apply Finset.card_lt_card
  rw [Finset.ssubset_iff_of_subset]
  · refine ⟨q, ?_, ?_⟩
    · exact Finset.mem_filter.mpr ⟨Finset.mem_range.mpr hq, hlt⟩
    · exact fun hmem => lt_irrefl _ (Finset.mem_filter.mp hmem).2
  · intro x hx
    obtain ⟨hrange, hlow⟩ := Finset.mem_filter.mp hx
    exact Finset.mem_filter.mpr ⟨hrange, lt_trans hlt hlow⟩

/-- From a leaf on the rows come in ascending order, and they are those of the leaves whose
range does not begin before the leaf's. -/
theorem exists_chain (h : Still store root sh alloc) (hp : sh.linked p) (hlevel : sh.level p = 0) :
    ∃ rows, Chain store (store p) rows ∧ (rows.map Prod.fst).Pairwise (· < ·) ∧
      (∀ row ∈ rows, sh.low p ≤ row.1) ∧
      ∀ row, row ∈ rows ↔ ∃ q, sh.linked q ∧ sh.level q = 0 ∧ sh.low p ≤ sh.low q ∧
        row ∈ (store q).rows := by
  induction hn : (behind sh alloc p).card using Nat.strong_induction_on generalizing p with
  | _ n ih =>
    rcases h.next_leaf hp with ⟨hhigh, hnext⟩ | ⟨q, hhigh, hnext, hq, hq0, hlt⟩
    · refine ⟨(store p).rows, Chain.last hnext, h.rows_ascending hp hlevel,
        fun row hrow => (h.rows_range hp hlevel hrow).1, fun row => ?_⟩
      constructor
      · exact fun hrow => ⟨p, hp, hlevel, le_refl _, hrow⟩
      · rintro ⟨q, hq, hq0, hle, hrow⟩
        by_cases hpq : p = q
        · exact hpq ▸ hrow
        · obtain ⟨high, hsome, -⟩ := h.before_of_le hp hq (hlevel.trans hq0.symm) hle hpq
          rw [hhigh] at hsome
          cases hsome
    · have htop : sh.top p = sh.low q := by
        rw [Shape.top, hhigh]
        rfl
      obtain ⟨rest, hchain, hascending, hlow, hmem⟩ := ih _
        (hn ▸ card_behind_lt (h.fresh q hq) hlt) hq (hq0.trans hlevel) rfl
      refine ⟨(store p).rows ++ rest, Chain.next hnext hchain, ?_, ?_, fun row => ?_⟩
      · rw [List.map_append, List.pairwise_append]
        refine ⟨h.rows_ascending hp hlevel, hascending, fun k hk k' hk' => ?_⟩
        obtain ⟨row, hrow, rfl⟩ := List.mem_map.mp hk
        obtain ⟨row', hrow', rfl⟩ := List.mem_map.mp hk'
        have hbelow := (h.rows_range hp hlevel hrow).2
        rw [htop] at hbelow
        exact lt_of_lt_of_le hbelow (hlow row' hrow')
      · intro row hrow
        rcases List.mem_append.mp hrow with hrow | hrow
        · exact (h.rows_range hp hlevel hrow).1
        · exact le_trans (le_of_lt hlt) (hlow row hrow)
      · rw [List.mem_append, hmem]
        constructor
        · rintro (hrow | ⟨x, hx, hx0, hle, hrow⟩)
          · exact ⟨p, hp, hlevel, le_refl _, hrow⟩
          · exact ⟨x, hx, hx0, le_trans (le_of_lt hlt) hle, hrow⟩
        · rintro ⟨x, hx, hx0, hle, hrow⟩
          by_cases hpx : p = x
          · exact .inl (hpx ▸ hrow)
          · obtain ⟨high, hsome, hbefore⟩ := h.before_of_le hp hx (hlevel.trans hx0.symm) hle hpx
            rw [hhigh] at hsome
            cases hsome
            exact .inr ⟨x, hx, hx0, hbefore, hrow⟩

open Classical in
/-- The pages that a lookup may still go on to from `p`. -/
noncomputable def onward (sh : Shape κ) (alloc : Nat) (p : PageId) : Finset PageId :=
  (Finset.range alloc).filter fun x => sh.Onward p x

open Classical in
omit [BoundedOrder κ] in
theorem card_onward_lt (hq : q < alloc) (honward : sh.Onward p q) :
    (onward sh alloc q).card < (onward sh alloc p).card := by
  apply Finset.card_lt_card
  rw [Finset.ssubset_iff_of_subset]
  · refine ⟨q, ?_, ?_⟩
    · exact Finset.mem_filter.mpr ⟨Finset.mem_range.mpr hq, honward⟩
    · exact fun hmem => Shape.Onward.irrefl (Finset.mem_filter.mp hmem).2
  · intro x hx
    obtain ⟨hrange, hon⟩ := Finset.mem_filter.mp hx
    exact Finset.mem_filter.mpr ⟨hrange, honward.trans hon⟩

/-- A lookup ends at the leaf that covers its key. -/
theorem findLeafPage_total (h : Still store root sh alloc) (hp : sh.linked p)
    (hlow : sh.low p ≤ id) : ∃ leaf, sh.linked leaf ∧ sh.level leaf = 0 ∧ sh.Covers leaf id ∧
      ∃ n, ∀ fuel, n ≤ fuel → findLeafPage store id fuel p = some (store leaf) := by
  induction hn : (onward sh alloc p).card using Nat.strong_induction_on generalizing p with
  | _ n ih =>
    rcases (h.tree.fits p hp).leads.hop hlow with
      ⟨q, hhop, hq, hqlow, honward⟩ | ⟨hhop, ⟨rows, hrows⟩, hcovers⟩
    · obtain ⟨leaf, hleaf, hzero, hcovers, n, hfind⟩ := ih _
        (hn ▸ card_onward_lt (h.fresh q hq) honward) hq hqlow rfl
      refine ⟨leaf, hleaf, hzero, hcovers, n + 1, fun fuel hfuel => ?_⟩
      obtain ⟨more, rfl⟩ := Nat.exists_eq_add_of_le hfuel
      rw [show n + 1 + more = n + more + 1 by omega, findLeafPage, hhop]
      exact hfind (n + more) (Nat.le_add_right n more)
    · refine ⟨p, hp, ((h.tree.fits p hp).leaf rows hrows).1, hcovers, 1, fun fuel hfuel => ?_⟩
      obtain ⟨fuel, rfl⟩ := Nat.exists_eq_add_of_le' hfuel
      rw [findLeafPage, hhop]

/-- The way down the first routing entries ends at the first leaf. -/
theorem firstLeafPage_total (h : Still store root sh alloc) (hp : sh.linked p)
    (hlow : sh.low p = ⊥) : ∃ leaf, sh.linked leaf ∧ sh.level leaf = 0 ∧ sh.low leaf = ⊥ ∧
      ∃ n, ∀ fuel, n ≤ fuel → firstLeafPage store fuel p = some (store leaf) := by
  induction hlevel : sh.level p generalizing p with
  | zero =>
    refine ⟨p, hp, hlevel, hlow, 1, fun fuel hfuel => ?_⟩
    obtain ⟨fuel, rfl⟩ := Nat.exists_eq_add_of_le' hfuel
    rw [firstLeafPage, h.content_leaf hp hlevel]
  | succ level ih =>
    have hfits := h.tree.fits p hp
    cases hcontent : (store p).content with
    | leaf rows =>
      have hzero := (hfits.leaf rows hcontent).1
      omega
    | inner children =>
      obtain ⟨hne, hroutes⟩ := hfits.inner children hcontent
      obtain ⟨⟨k, c⟩, es, rfl⟩ := List.exists_cons_of_ne_nil hne
      obtain ⟨-, hchild, -⟩ := hroutes
      have hclevel : sh.level c = level := by
        have hstep := hchild.level
        omega
      obtain ⟨leaf, hleaf, hzero, hbot, n, hfind⟩ :=
        ih hchild.linked (hchild.low.trans hlow) hclevel
      refine ⟨leaf, hleaf, hzero, hbot, n + 1, fun fuel hfuel => ?_⟩
      obtain ⟨more, rfl⟩ := Nat.exists_eq_add_of_le hfuel
      rw [show n + 1 + more = n + more + 1 by omega, firstLeafPage, hcontent]
      exact hfind (n + more) (Nat.le_add_right n more)

end Still

end SquealDb.Tree
