import Mathlib.Data.List.Basic
import Mathlib.Logic.Function.Basic
import Mathlib.Order.BoundedOrder.Basic
import Mathlib.Order.Lattice

/-!
# The pages of a B-link tree

The index pages of `tables/bplustree.rs` as values: a leaf's entries, an inner page's
routing entries, the high key and the link to the right sibling.  Keys are any linear
order whose greatest element is the sentinel `Int(u64::MAX)` of the tree's last routing
entry.

A tree is a store of such pages.  Its shape gives every page that is linked into it a
level and the range of keys it answers for; a page's lower bound never changes while it
is linked, which is why a lookup that lags behind the splits still ends where it should.
-/

namespace SquealDb.Tree

abbrev PageId := Nat

/-- The entries of an index page.  A leaf's are rows (or where they are on the data
pages); an inner page's name a child each, and the bound of its keys. -/
inductive Content (κ ρ : Type*) where
  | leaf (rows : List (κ × ρ))
  | inner (children : List (κ × PageId))
  deriving DecidableEq

structure Page (κ ρ : Type*) where
  content : Content κ ρ
  highKey : Option κ
  nextPage : Option PageId
  deriving DecidableEq

section Pages

variable {κ ρ α : Type*}

namespace Content

def keys : Content κ ρ → List κ
  | leaf rows => rows.map Prod.fst
  | inner children => children.map Prod.fst

def take (n : Nat) : Content κ ρ → Content κ ρ
  | leaf rows => leaf (rows.take n)
  | inner children => inner (children.take n)

def drop (n : Nat) : Content κ ρ → Content κ ρ
  | leaf rows => leaf (rows.drop n)
  | inner children => inner (children.drop n)

end Content

variable [LinearOrder κ]

/-- `Entry::SuccessorOrLast`: the first entry whose key exceeds `id`, or the last one. -/
def successorOrLast (entries : List (κ × α)) (id : κ) : Option (κ × α) :=
  (entries.find? fun e => decide (id < e.1)).or entries.getLast?

/-- `add_tuple` of a key that is not there. -/
def addEntry (e : κ × α) : List (κ × α) → List (κ × α)
  | [] => [e]
  | x :: xs => if e.1 < x.1 then e :: x :: xs else x :: addEntry e xs

/-- `replace_tuple`. -/
def replaceEntry (key : κ) (a : α) (entries : List (κ × α)) : List (κ × α) :=
  entries.map fun e => if e.1 = key then (key, a) else e

namespace Page

/-- The page with other rows, under the same bound and link. -/
def withRows (page : Page κ ρ) (rows : List (κ × ρ)) :
    Page κ ρ := { page with content := .leaf rows }

/-- The page with other routing entries. -/
def withChildren (page : Page κ ρ) (children : List (κ × PageId)) : Page κ ρ :=
  { page with content := .inner children }

/-- Where a lookup of `id` goes on from a page that no longer reaches as far. -/
def beyond (page : Page κ ρ) (id : κ) : Option PageId :=
  match page.highKey with
  | some high => if high ≤ id then page.nextPage else none
  | none => none

/-- One round of `route_to_leaf_id`: the page to be read next, or none at the leaf. -/
def hop (page : Page κ ρ) (id : κ) : Option PageId :=
  match page.beyond id with
  | some next => some next
  | none =>
    match page.content with
    | .leaf _ => none
    | .inner children => (successorOrLast children id).map Prod.snd

/-- The separator of a split: the first key moved from a leaf; of an inner page the last
key kept, which bounds the last child kept. -/
def separator (page : Page κ ρ) (mid : Nat) : Option κ :=
  match page.content with
  | .leaf rows => (rows[mid]?).map Prod.fst
  | .inner children => (children[mid - 1]?).map Prod.fst

/-- What a split leaves of the page. -/
def kept (page : Page κ ρ) (mid : Nat) (separator : κ) (sibling : PageId) : Page κ ρ :=
  ⟨page.content.take mid, some separator, some sibling⟩

/-- The new sibling: the upper part of the entries, under the page's own bound. -/
def moved (page : Page κ ρ) (mid : Nat) : Page κ ρ :=
  ⟨page.content.drop mid, page.highKey, page.nextPage⟩

/-- `update_root_page`: the root routes to the two halves it was split into. -/
def promoted [OrderTop κ] (root : Page κ ρ) (separator : κ) (left right : PageId) : Page κ ρ :=
  root.withChildren [(separator, left), (⊤, right)]

end Page

/-- What `descend_for_write` does to the parent's entries after a split of `child`: the
entry that routed there now names the sibling, and a new one the child. -/
def adopt (children : List (κ × PageId)) (routed separator : κ) (child sibling : PageId) :
    List (κ × PageId) :=
  addEntry (separator, child) (replaceEntry routed sibling children)

end Pages

/-! ## The shape of a tree -/

/-- The pages linked into a tree: their levels, from the leaves up, and their ranges. -/
structure Shape (κ : Type*) where
  linked : PageId → Prop
  level : PageId → Nat
  low : PageId → κ
  high : PageId → Option κ

variable {κ ρ : Type*} [LinearOrder κ] [BoundedOrder κ]

namespace Shape

variable (sh : Shape κ)

/-- Where the range of a page ends. -/
def top (p : PageId) : κ := (sh.high p).getD ⊤

/-- The page answers for the key. -/
def Covers (p : PageId) (id : κ) : Prop := sh.low p ≤ id ∧ ∀ h, sh.high p = some h → id < h

/-- The range of `p` ends before that of `q` begins. -/
def Before (p q : PageId) : Prop := ∃ h, sh.high p = some h ∧ h ≤ sh.low q

/-- The order in which a lookup visits pages: down, or to the right. -/
def Onward (p q : PageId) : Prop :=
  sh.level q < sh.level p ∨ sh.level q = sh.level p ∧ sh.low p < sh.low q

/-- `c` is the child of a page on level `level` for the keys from `lo` up to `k`. -/
structure Child (level : Nat) (lo : κ) (c : PageId) (k : κ) : Prop where
  linked : sh.linked c
  level : sh.level c + 1 = level
  low : sh.low c = lo
  top : sh.top c = k

/-- Routing entries that divide the range from `lo` to `hi`. -/
def Routes (level : Nat) : κ → List (κ × PageId) → κ → Prop
  | lo, [], hi => lo = hi
  | lo, (k, c) :: es, hi => lo < k ∧ sh.Child level lo c k ∧ Routes level k es hi

/-- Of routing entries, what a lookup relies on: each child begins where the entry before
it ends. -/
def Begins (level : Nat) : κ → List (κ × PageId) → Prop
  | _, [] => True
  | lo, (k, c) :: es =>
    (sh.linked c ∧ sh.level c + 1 = level ∧ sh.low c = lo) ∧ Begins level k es

end Shape

/-- The page has the place that the shape gives to `p`. -/
structure Fits (sh : Shape κ) (p : PageId) (page : Page κ ρ) : Prop where
  highKey : page.highKey = sh.high p
  last : sh.high p = none → page.nextPage = none
  next : ∀ h, sh.high p = some h → sh.low p < h ∧
    ∃ q, page.nextPage = some q ∧ sh.linked q ∧ sh.level q = sh.level p ∧ sh.low q = h
  leaf : ∀ rows, page.content = .leaf rows → sh.level p = 0 ∧
    (rows.map Prod.fst).Pairwise (· < ·) ∧ ∀ k ∈ rows.map Prod.fst, sh.low p ≤ k ∧ k < sh.top p
  inner : ∀ children, page.content = .inner children →
    children ≠ [] ∧ sh.Routes (sh.level p) (sh.low p) children (sh.top p)

/-- Of a page, what a lookup relies on.  A page whose child was just split leads as
before, although its entry for the child no longer says where the child ends. -/
structure Leads (sh : Shape κ) (p : PageId) (page : Page κ ρ) : Prop where
  highKey : page.highKey = sh.high p
  last : sh.high p = none → page.nextPage = none
  next : ∀ h, sh.high p = some h → sh.low p < h ∧
    ∃ q, page.nextPage = some q ∧ sh.linked q ∧ sh.level q = sh.level p ∧ sh.low q = h
  inner : ∀ children, page.content = .inner children →
    children ≠ [] ∧ sh.Begins (sh.level p) (sh.low p) children

/-- A store of pages that is a B-link tree of the given shape. -/
structure Blink (store : PageId → Page κ ρ) (root : PageId) (sh : Shape κ) : Prop where
  rooted : sh.linked root ∧ sh.low root = ⊥ ∧ sh.high root = none
  levels : ∀ p, sh.linked p → sh.level p ≤ sh.level root
  apart : ∀ p q, sh.linked p → sh.linked q → sh.level p = sh.level q → p ≠ q →
    sh.Before p q ∨ sh.Before q p
  fits : ∀ p, sh.linked p → Fits sh p (store p)

/-! ## Routing entries -/

namespace Shape.Routes

variable {sh : Shape κ} {level : Nat} {lo hi : κ} {es es' : List (κ × PageId)}

theorem le (h : sh.Routes level lo es hi) : lo ≤ hi := by
  induction es generalizing lo with
  | nil => exact le_of_eq h
  | cons e es ih => exact le_trans (le_of_lt h.1) (ih h.2.2)

theorem append_iff : sh.Routes level lo (es ++ es') hi ↔
    ∃ m, sh.Routes level lo es m ∧ sh.Routes level m es' hi := by
  induction es generalizing lo with
  | nil =>
    constructor
    · exact fun h => ⟨lo, rfl, h⟩
    · rintro ⟨m, rfl, h⟩
      exact h
  | cons e es ih =>
    constructor
    · rintro ⟨hlt, hchild, h⟩
      obtain ⟨m, h₁, h₂⟩ := ih.mp h
      exact ⟨m, ⟨hlt, hchild, h₁⟩, h₂⟩
    · rintro ⟨m, ⟨hlt, hchild, h₁⟩, h₂⟩
      exact ⟨hlt, hchild, ih.mpr ⟨m, h₁, h₂⟩⟩

theorem append (h : sh.Routes level lo es hi) {hi' : κ} (h' : sh.Routes level hi es' hi') :
    sh.Routes level lo (es ++ es') hi' :=
  append_iff.mpr ⟨hi, h, h'⟩

/-- The last entry is bounded by the end of the range. -/
theorem concat_iff {e : κ × PageId} : sh.Routes level lo (es ++ [e]) hi ↔
    ∃ m, sh.Routes level lo es m ∧ m < hi ∧ sh.Child level m e.2 hi ∧ e.1 = hi := by
  rw [append_iff]
  constructor
  · rintro ⟨m, h, hlt, hchild, heq⟩
    have hend : e.1 = hi := heq
    exact ⟨m, h, hend ▸ hlt, hend ▸ hchild, hend⟩
  · rintro ⟨m, h, hlt, hchild, hend⟩
    subst hend
    exact ⟨m, h, hlt, hchild, rfl⟩

/-- Every entry has its child, for the keys from the entry before it on. -/
theorem split_mem (h : sh.Routes level lo es hi) {k : κ} {c : PageId} (hmem : (k, c) ∈ es) :
    ∃ pre post m, es = pre ++ (k, c) :: post ∧ sh.Routes level lo pre m ∧ m < k ∧
      sh.Child level m c k ∧ sh.Routes level k post hi := by
  obtain ⟨pre, post, rfl⟩ := List.append_of_mem hmem
  obtain ⟨m, hpre, hlt, hchild, hpost⟩ := append_iff.mp h
  exact ⟨pre, post, m, rfl, hpre, hlt, hchild, hpost⟩

theorem child (h : sh.Routes level lo es hi) {k : κ} {c : PageId} (hmem : (k, c) ∈ es) :
    ∃ m, lo ≤ m ∧ m < k ∧ k ≤ hi ∧ sh.Child level m c k := by
  obtain ⟨pre, post, m, -, hpre, hlt, hchild, hpost⟩ := h.split_mem hmem
  exact ⟨m, hpre.le, hlt, hpost.le, hchild⟩

theorem lt_key (h : sh.Routes level lo es hi) {k : κ} {c : PageId} (hmem : (k, c) ∈ es) :
    lo < k := by
  obtain ⟨m, hle, hlt, -⟩ := h.child hmem
  exact lt_of_le_of_lt hle hlt

/-- The children are the same in another shape that agrees on them. -/
theorem congr {sh' : Shape κ} (h : sh.Routes level lo es hi)
    (hsame : ∀ lo k c, (k, c) ∈ es → sh.Child level lo c k → sh'.Child level lo c k) :
    sh'.Routes level lo es hi := by
  induction es generalizing lo with
  | nil => exact h
  | cons e es ih =>
    refine ⟨h.1, hsame lo e.1 e.2 List.mem_cons_self h.2.1, ?_⟩
    exact ih h.2.2 fun lo k c hmem => hsame lo k c (List.mem_cons_of_mem _ hmem)

end Shape.Routes

section Lists

variable {α : Type*} {es : List (κ × α)} {id : κ} {e : κ × α}

omit [BoundedOrder κ] in
theorem successorOrLast_cons_of_lt (h : id < e.1) : successorOrLast (e :: es) id = some e := by
  simp [successorOrLast, h]

omit [BoundedOrder κ] in
theorem successorOrLast_cons_of_le (h : e.1 ≤ id) (hne : es ≠ []) :
    successorOrLast (e :: es) id = successorOrLast es id := by
  obtain ⟨x, xs, rfl⟩ := List.exists_cons_of_ne_nil hne
  simp [successorOrLast, not_lt.mpr h]

omit [BoundedOrder κ] in
theorem successorOrLast_singleton (e : κ × α) (id : κ) : successorOrLast [e] id = some e := by
  unfold successorOrLast
  by_cases h : id < e.1
  · simp [h]
  · simp [h]

end Lists

/-- The entry that routes a key of the range. -/
theorem Shape.Routes.successorOrLast {sh : Shape κ} {level : Nat} {lo hi id : κ}
    {es : List (κ × PageId)} (h : sh.Routes level lo es hi) (hne : es ≠ []) (hlo : lo ≤ id) :
    ∃ pre k c post m, es = pre ++ (k, c) :: post ∧ Tree.successorOrLast es id = some (k, c) ∧
      sh.Routes level lo pre m ∧ m < k ∧ sh.Child level m c k ∧ sh.Routes level k post hi ∧
      m ≤ id ∧ (id < k ∨ k = hi) := by
  induction es generalizing lo with
  | nil => exact absurd rfl hne
  | cons e es ih =>
    obtain ⟨k, c⟩ := e
    obtain ⟨hlt, hchild, hrest⟩ := h
    by_cases hid : id < k
    · exact ⟨[], k, c, es, lo, rfl, successorOrLast_cons_of_lt hid, rfl, hlt, hchild, hrest, hlo,
        Or.inl hid⟩
    · have hle : k ≤ id := not_lt.mp hid
      by_cases hnil : es = []
      · subst hnil
        exact ⟨[], k, c, [], lo, rfl, successorOrLast_singleton _ _, rfl, hlt, hchild, hrest, hlo,
          Or.inr hrest⟩
      · obtain ⟨pre, k', c', post, m, rfl, hfound, hpre, hrest'⟩ := ih hrest hnil hle
        refine ⟨(k, c) :: pre, k', c', post, m, rfl, ?_, ⟨hlt, hchild, hpre⟩, hrest'⟩
        rw [successorOrLast_cons_of_le hle hnil]
        exact hfound

/-! ## Lookups -/

namespace Blink

variable {store : PageId → Page κ ρ} {root : PageId} {sh : Shape κ} {p q : PageId} {id : κ}

/-- Only the pages that are linked matter. -/
theorem congr (h : Blink store root sh) {store' : PageId → Page κ ρ}
    (hsame : ∀ p, sh.linked p → store' p = store p) : Blink store' root sh := by
  refine ⟨h.rooted, h.levels, h.apart, fun p hp => ?_⟩
  rw [hsame p hp]
  exact h.fits p hp

/-- The ranges of a level do not meet. -/
theorem eq_of_mem (h : Blink store root sh) (hp : sh.linked p) (hq : sh.linked q)
    (hlevel : sh.level p = sh.level q) (hpl : sh.low p ≤ id) (hph : id < sh.top p)
    (hql : sh.low q ≤ id) (hqh : id < sh.top q) : p = q := by
  by_contra hne
  have hbefore : ∀ {p q : PageId}, id < sh.top p → sh.low q ≤ id → ¬ sh.Before p q := by
    rintro p q hp hq ⟨k, hk, hle⟩
    have htop : sh.top p = k := by
      unfold Shape.top
      rw [hk]
      rfl
    rw [htop] at hp
    exact absurd (lt_of_lt_of_le hp (le_trans hle hq)) (lt_irrefl id)
  rcases h.apart p q hp hq hlevel hne with hlt | hlt
  · exact hbefore hph hql hlt
  · exact hbefore hqh hpl hlt

/-- One page of a level covers a key. -/
theorem eq_of_covers (h : Blink store root sh) (hp : sh.linked p) (hq : sh.linked q)
    (hlevel : sh.level p = sh.level q) (hpc : sh.Covers p id) (hqc : sh.Covers q id) : p = q := by
  by_contra hne
  rcases h.apart p q hp hq hlevel hne with ⟨k, hk, hle⟩ | ⟨k, hk, hle⟩
  · exact absurd (lt_of_lt_of_le (hpc.2 k hk) (le_trans hle hqc.1)) (lt_irrefl id)
  · exact absurd (lt_of_lt_of_le (hqc.2 k hk) (le_trans hle hpc.1)) (lt_irrefl id)

/-- A page is the child of one page only. -/
theorem parent_unique (h : Blink store root sh) {children children' : List (κ × PageId)}
    (hp : sh.linked p) (hq : sh.linked q) (hpc : (store p).content = .inner children)
    (hqc : (store q).content = .inner children') {k k' : κ} {c : PageId}
    (hk : (k, c) ∈ children) (hk' : (k', c) ∈ children') : p = q := by
  obtain ⟨m, hlo, hlt, hle, hchild⟩ := ((h.fits p hp).inner children hpc).2.child hk
  obtain ⟨m', hlo', hlt', hle', hchild'⟩ := ((h.fits q hq).inner children' hqc).2.child hk'
  have hlevel : sh.level p = sh.level q := hchild.level.symm.trans hchild'.level
  have hm : m = m' := hchild.low.symm.trans hchild'.low
  subst hm
  exact h.eq_of_mem hp hq hlevel hlo (lt_of_lt_of_le hlt hle) hlo' (lt_of_lt_of_le hlt' hle')

end Blink

namespace Shape.Begins

variable {sh : Shape κ} {level : Nat} {lo id : κ} {es es' : List (κ × PageId)}

omit [LinearOrder κ] [BoundedOrder κ] in
/-- Entries still lead where they did when two of them are taken for one. -/
theorem merge {sep k : κ} {c q : PageId}
    (h : sh.Begins level lo (es ++ (sep, c) :: (k, q) :: es')) :
    sh.Begins level lo (es ++ (k, c) :: es') := by
  induction es generalizing lo with
  | nil => exact ⟨h.1, h.2.2⟩
  | cons e es ih => exact ⟨h.1, ih h.2⟩

omit [LinearOrder κ] [BoundedOrder κ] in
theorem mem (h : sh.Begins level lo es) {k : κ} {c : PageId} (hmem : (k, c) ∈ es) :
    sh.linked c ∧ sh.level c + 1 = level := by
  induction es generalizing lo with
  | nil => cases hmem
  | cons e es ih =>
    rcases List.mem_cons.mp hmem with rfl | hmem
    · exact ⟨h.1.1, h.1.2.1⟩
    · exact ih h.2 hmem

omit [BoundedOrder κ] in
theorem successorOrLast (h : sh.Begins level lo es) (hne : es ≠ []) (hlo : lo ≤ id) :
    ∃ k c, Tree.successorOrLast es id = some (k, c) ∧ sh.linked c ∧ sh.level c + 1 = level ∧
      sh.low c ≤ id := by
  induction es generalizing lo with
  | nil => exact absurd rfl hne
  | cons e es ih =>
    obtain ⟨⟨hlinked, hlevel, hlow⟩, hrest⟩ := h
    by_cases hid : id < e.1
    · exact ⟨e.1, e.2, successorOrLast_cons_of_lt hid, hlinked, hlevel, hlow.trans_le hlo⟩
    · have hle : e.1 ≤ id := not_lt.mp hid
      by_cases hnil : es = []
      · subst hnil
        exact ⟨e.1, e.2, successorOrLast_singleton _ _, hlinked, hlevel, hlow.trans_le hlo⟩
      · obtain ⟨k, c, hfound, hc⟩ := ih hrest hnil hle
        refine ⟨k, c, ?_, hc⟩
        rw [successorOrLast_cons_of_le hle hnil]
        exact hfound

end Shape.Begins

theorem Shape.Routes.begins {sh : Shape κ} {level : Nat} {lo hi : κ} {es : List (κ × PageId)}
    (h : sh.Routes level lo es hi) : sh.Begins level lo es := by
  induction es generalizing lo with
  | nil => trivial
  | cons e es ih =>
    obtain ⟨-, hchild, hrest⟩ := h
    exact ⟨⟨hchild.linked, hchild.level, hchild.low⟩, ih hrest⟩

theorem Fits.leads {sh : Shape κ} {p : PageId} {page : Page κ ρ} (h : Fits sh p page) :
    Leads sh p page where
  highKey := h.highKey
  last := h.last
  next := h.next
  inner children hchildren :=
    ⟨(h.inner children hchildren).1, (h.inner children hchildren).2.begins⟩

namespace Leads

variable {sh : Shape κ} {p q : PageId} {page : Page κ ρ} {id : κ}

omit [BoundedOrder κ] in
theorem beyond_some (h : Leads sh p page) (hq : page.beyond id = some q) :
    sh.linked q ∧ sh.level q = sh.level p ∧ sh.low p < sh.low q ∧ sh.low q ≤ id := by
  unfold Page.beyond at hq
  rw [h.highKey] at hq
  cases hhigh : sh.high p with
  | none =>
    rw [hhigh] at hq
    cases hq
  | some k =>
    rw [hhigh] at hq
    dsimp only at hq
    split at hq
    · next hle =>
        obtain ⟨hlt, q', hnext, hlinked, hlevel, hlow⟩ := h.next k hhigh
        rw [hnext] at hq
        cases hq
        rw [hlow]
        exact ⟨hlinked, hlevel, hlt, hle⟩
    · cases hq

omit [BoundedOrder κ] in
theorem beyond_none (h : Leads sh p page) (hlow : sh.low p ≤ id) (hnone : page.beyond id = none) :
    sh.Covers p id := by
  refine ⟨hlow, fun k hk => ?_⟩
  unfold Page.beyond at hnone
  rw [h.highKey, hk] at hnone
  dsimp only at hnone
  split at hnone
  · obtain ⟨-, q', hnext, -⟩ := h.next k hk
    rw [hnext] at hnone
    cases hnone
  · next hle => exact not_le.mp hle

omit [BoundedOrder κ] in
/-- A lookup that reads a page of the tree goes on to one that also begins at or before
its key, or has come to the leaf that covers the key. -/
theorem hop (h : Leads sh p page) (hlow : sh.low p ≤ id) :
    (∃ q, page.hop id = some q ∧ sh.linked q ∧ sh.low q ≤ id ∧ sh.Onward p q) ∨
      page.hop id = none ∧ (∃ rows, page.content = .leaf rows) ∧ sh.Covers p id := by
  unfold Page.hop
  cases hbeyond : page.beyond id with
  | some q =>
    obtain ⟨hlinked, hlevel, hlt, hle⟩ := h.beyond_some hbeyond
    exact Or.inl ⟨q, rfl, hlinked, hle, Or.inr ⟨hlevel, hlt⟩⟩
  | none =>
    have hcovers := h.beyond_none hlow hbeyond
    cases hcontent : page.content with
    | leaf rows => exact Or.inr ⟨rfl, ⟨rows, rfl⟩, hcovers⟩
    | inner children =>
      left
      obtain ⟨hne, hbegins⟩ := h.inner children hcontent
      obtain ⟨k, c, hfound, hlinked, hlevel, hle⟩ := hbegins.successorOrLast hne hlow
      refine ⟨c, ?_, hlinked, hle, Or.inl ?_⟩
      · dsimp only
        rw [hfound]
        rfl
      · omega

end Leads

end SquealDb.Tree
