import SquealDb.Tree.Blink

/-!
# Splits of a B-link tree

What the writes of `tables/bplustree.rs` do to a tree: a write of a leaf, the split of a
page whose parent then adopts the new sibling, and the split of the root, which stays
where it is and becomes the parent of its two halves.
-/

namespace SquealDb.Tree

/-! ## Shapes after a split -/

/-- The shape after a split of `c` at `separator`, with the new sibling `q`. -/
def Shape.split {κ : Type*} (sh : Shape κ) (c q : PageId) (separator : κ) : Shape κ where
  linked p := p = q ∨ sh.linked p
  level := Function.update sh.level q (sh.level c)
  low := Function.update sh.low q separator
  high := Function.update (Function.update sh.high q (sh.high c)) c (some separator)

/-- The shape after a split of the root, which becomes the parent of its two halves. -/
def Shape.grow {κ : Type*} (sh : Shape κ) (root left right : PageId) (separator : κ) : Shape κ where
  linked p := p = left ∨ p = right ∨ sh.linked p
  level := Function.update (Function.update (Function.update sh.level left (sh.level root)) right
    (sh.level root)) root (sh.level root + 1)
  low := Function.update (Function.update sh.low left (sh.low root)) right separator
  high := Function.update (Function.update sh.high left (some separator)) right (sh.high root)

namespace Shape

variable {κ : Type*} {sh : Shape κ} {c q x : PageId} {sep : κ}

theorem level_split (hx : x ≠ q) : (sh.split c q sep).level x = sh.level x :=
  Function.update_of_ne hx _ _

theorem low_split (hx : x ≠ q) : (sh.split c q sep).low x = sh.low x :=
  Function.update_of_ne hx _ _

theorem high_split (hx : x ≠ q) (hxc : x ≠ c) : (sh.split c q sep).high x = sh.high x := by
  unfold split
  dsimp only
  rw [Function.update_of_ne hxc, Function.update_of_ne hx]

theorem high_split_self : (sh.split c q sep).high c = some sep := Function.update_self _ _ _

theorem level_split_sibling : (sh.split c q sep).level q = sh.level c := Function.update_self _ _ _

theorem low_split_sibling : (sh.split c q sep).low q = sep := Function.update_self _ _ _

theorem high_split_sibling (hqc : q ≠ c) : (sh.split c q sep).high q = sh.high c := by
  unfold split
  dsimp only
  rw [Function.update_of_ne hqc, Function.update_self]

/-- The pages that a split of the root leaves where they are. -/
theorem grow_of_ne {root left right : PageId} (hroot : x ≠ root) (hleft : x ≠ left)
    (hright : x ≠ right) : (sh.grow root left right sep).level x = sh.level x ∧
      (sh.grow root left right sep).low x = sh.low x ∧
      (sh.grow root left right sep).high x = sh.high x := by
  unfold grow
  dsimp only
  rw [Function.update_of_ne hroot, Function.update_of_ne hright, Function.update_of_ne hleft,
    Function.update_of_ne hright, Function.update_of_ne hleft, Function.update_of_ne hright,
    Function.update_of_ne hleft]
  exact ⟨rfl, rfl, rfl⟩

theorem grow_left {root left right : PageId} (hroot : left ≠ root) (hright : left ≠ right) :
    (sh.grow root left right sep).level left = sh.level root ∧
      (sh.grow root left right sep).low left = sh.low root ∧
      (sh.grow root left right sep).high left = some sep := by
  unfold grow
  dsimp only
  rw [Function.update_of_ne hroot, Function.update_of_ne hright, Function.update_self,
    Function.update_of_ne hright, Function.update_self, Function.update_of_ne hright,
    Function.update_self]
  exact ⟨rfl, rfl, rfl⟩

theorem grow_right {root left right : PageId} (hroot : right ≠ root) :
    (sh.grow root left right sep).level right = sh.level root ∧
      (sh.grow root left right sep).low right = sep ∧
      (sh.grow root left right sep).high right = sh.high root := by
  unfold grow
  dsimp only
  rw [Function.update_of_ne hroot, Function.update_self, Function.update_self, Function.update_self]
  exact ⟨rfl, rfl, rfl⟩

theorem grow_root {root left right : PageId} (hleft : root ≠ left) (hright : root ≠ right) :
    (sh.grow root left right sep).level root = sh.level root + 1 ∧
      (sh.grow root left right sep).low root = sh.low root ∧
      (sh.grow root left right sep).high root = sh.high root := by
  unfold grow
  dsimp only
  rw [Function.update_self, Function.update_of_ne hright, Function.update_of_ne hleft,
    Function.update_of_ne hright, Function.update_of_ne hleft]
  exact ⟨rfl, rfl, rfl⟩

end Shape

variable {κ ρ : Type*} [LinearOrder κ] [BoundedOrder κ]

/-! ## Writes -/

/-- A write of a leaf's rows, within its range. -/
theorem Blink.write {store : PageId → Page κ ρ} {root p : PageId} {sh : Shape κ}
    (h : Blink store root sh) (hp : sh.linked p) {rows rows' : List (κ × ρ)}
    (hleaf : (store p).content = .leaf rows) (hsorted : (rows'.map Prod.fst).Pairwise (· < ·))
    (hrange : ∀ k ∈ rows'.map Prod.fst, sh.low p ≤ k ∧ k < sh.top p) :
    Blink (Function.update store p ((store p).withRows rows')) root sh := by
  refine ⟨h.rooted, h.levels, h.apart, fun x hx => ?_⟩
  by_cases hxp : x = p
  · subst hxp
    have hfits := h.fits x hx
    rw [Function.update_self]
    refine ⟨hfits.highKey, hfits.last, hfits.next, fun rs hrs => ?_, nofun⟩
    cases hrs
    exact ⟨(hfits.leaf rows hleaf).1, hsorted, hrange⟩
  · rw [Function.update_of_ne hxp]
    exact h.fits x hx

/-- A page can be cut at `mid`, which leaves entries on both sides. -/
structure Cut (page : Page κ ρ) (mid : Nat) (separator : κ) : Prop where
  pos : 0 < mid
  lt : mid < page.content.keys.length
  separator : page.separator mid = some separator

namespace Fits

variable {sh : Shape κ} {c q : PageId} {page : Page κ ρ} {mid : Nat} {sep : κ}

/-- The two halves of a leaf. -/
theorem cut_leaf (h : Fits sh c page) {rows : List (κ × ρ)} (hrows : page.content = .leaf rows)
    (hcut : Cut page mid sep) :
    sh.low c < sep ∧ sep < sh.top c ∧
      (∀ k ∈ (rows.take mid).map Prod.fst, sh.low c ≤ k ∧ k < sep) ∧
      (∀ k ∈ (rows.drop mid).map Prod.fst, sep ≤ k ∧ k < sh.top c) := by
  obtain ⟨hpos, hlen, hsep⟩ := hcut
  obtain ⟨-, hsorted, hrange⟩ := h.leaf rows hrows
  unfold Page.separator at hsep
  rw [hrows] at hlen hsep
  simp only [Content.keys, List.length_map] at hlen
  have hmid : (rows.map Prod.fst)[mid]? = some sep := by
    rw [List.getElem?_map]
    exact hsep
  have hdrop : (rows.map Prod.fst).drop mid = sep :: (rows.map Prod.fst).drop (mid + 1) := by
    obtain ⟨hlt, heq⟩ := List.getElem?_eq_some_iff.mp hmid
    rw [List.drop_eq_getElem_cons hlt, heq]
  have hsplit : (rows.map Prod.fst).take mid ++ sep :: (rows.map Prod.fst).drop (mid + 1) =
      rows.map Prod.fst := by
    rw [← hdrop, List.take_append_drop]
  rw [← hsplit, List.pairwise_append] at hsorted
  obtain ⟨-, hupper, hacross⟩ := hsorted
  have htake : ∀ k ∈ (rows.take mid).map Prod.fst, sh.low c ≤ k ∧ k < sep := by
    intro k hk
    rw [List.map_take] at hk
    exact ⟨(hrange k (List.mem_of_mem_take hk)).1, hacross k hk sep List.mem_cons_self⟩
  have hsepmem : sep ∈ rows.map Prod.fst := List.mem_of_getElem? hmid
  refine ⟨?_, (hrange sep hsepmem).2, htake, ?_⟩
  · obtain ⟨r, hr⟩ : ∃ r, r ∈ (rows.take mid).map Prod.fst := by
      apply List.exists_mem_of_ne_nil
      intro hnil
      have hlength := congrArg List.length hnil
      rw [List.length_map, List.length_take, List.length_nil] at hlength
      omega
    exact lt_of_le_of_lt (htake r hr).1 (htake r hr).2
  · intro k hk
    rw [List.map_drop] at hk
    have hmem := List.mem_of_mem_drop hk
    rw [hdrop] at hk
    refine ⟨?_, (hrange k hmem).2⟩
    rcases List.mem_cons.mp hk with rfl | hk
    · exact le_refl _
    · exact le_of_lt ((List.pairwise_cons.mp hupper).1 k hk)

/-- The two halves of an inner page. -/
theorem cut_inner (h : Fits sh c page) {children : List (κ × PageId)}
    (hchildren : page.content = .inner children) (hcut : Cut page mid sep) :
    sh.low c < sep ∧ sep < sh.top c ∧
      sh.Routes (sh.level c) (sh.low c) (children.take mid) sep ∧
      sh.Routes (sh.level c) sep (children.drop mid) (sh.top c) := by
  obtain ⟨hpos, hlen, hsep⟩ := hcut
  obtain ⟨-, hroutes⟩ := h.inner children hchildren
  unfold Page.separator at hsep
  rw [hchildren] at hlen hsep
  simp only [Content.keys, List.length_map] at hlen
  obtain ⟨e, he, hkey⟩ := Option.map_eq_some_iff.mp hsep
  have htake : children.take mid = children.take (mid - 1) ++ [e] := by
    obtain ⟨hlt, heq⟩ := List.getElem?_eq_some_iff.mp he
    have hmid : mid = mid - 1 + 1 := by omega
    rw [← heq]
    conv_lhs => rw [hmid]
    exact List.take_succ_eq_append_getElem hlt
  rw [← List.take_append_drop mid children] at hroutes
  obtain ⟨m, hleft, hright⟩ := Shape.Routes.append_iff.mp hroutes
  have hm : m = sep := by
    rw [htake] at hleft
    obtain ⟨-, -, -, -, hend⟩ := Shape.Routes.concat_iff.mp hleft
    rw [← hend, hkey]
  subst hm
  have hdrop : children.drop mid ≠ [] := by
    intro hnil
    rw [List.drop_eq_nil_iff] at hnil
    omega
  obtain ⟨x, xs, hx⟩ := List.exists_cons_of_ne_nil hdrop
  refine ⟨?_, ?_, hleft, hright⟩
  · have hmem : e ∈ children.take mid := by
      rw [htake]
      exact List.mem_append_right _ List.mem_cons_self
    rw [← hkey]
    exact hleft.lt_key hmem
  · have hmem : (x.1, x.2) ∈ children.drop mid := by
      rw [hx]
      exact List.mem_cons_self
    obtain ⟨m', -, -, hle, -⟩ := hright.child hmem
    exact lt_of_lt_of_le (hright.lt_key hmem) hle

theorem cut_lt (h : Fits sh c page) (hcut : Cut page mid sep) :
    sh.low c < sep ∧ sep < sh.top c := by
  cases hcontent : page.content with
  | leaf rows =>
    obtain ⟨hlow, htop, -⟩ := h.cut_leaf hcontent hcut
    exact ⟨hlow, htop⟩
  | inner children =>
    obtain ⟨hlow, htop, -⟩ := h.cut_inner hcontent hcut
    exact ⟨hlow, htop⟩

/-- Another shape has the same children on the level below the page. -/
def Keeps (sh sh' : Shape κ) (level : Nat) (page : Page κ ρ) : Prop :=
  ∀ children lo k x, page.content = .inner children → (k, x) ∈ children →
    sh.Child level lo x k → sh'.Child level lo x k

/-- The lower part of a page, in a shape that has it end at the separator. -/
theorem lowerHalf {sh' : Shape κ} {p : PageId} (h : Fits sh c page) (hcut : Cut page mid sep)
    (hlevel : sh'.level p = sh.level c) (hlow : sh'.low p = sh.low c)
    (hhigh : sh'.high p = some sep) (hq : sh'.linked q) (hqlevel : sh'.level q = sh.level c)
    (hqlow : sh'.low q = sep) (hkeeps : Keeps sh sh' (sh.level c) page) :
    Fits sh' p (page.kept mid sep q) := by
  have htop : sh'.top p = sep := by
    unfold Shape.top
    rw [hhigh]
    rfl
  constructor
  · rw [hhigh]
    rfl
  · intro hnone
    rw [hhigh] at hnone
    cases hnone
  · intro k hk
    rw [hhigh] at hk
    cases hk
    rw [hlevel, hlow]
    exact ⟨(h.cut_lt hcut).1, q, rfl, hq, hqlevel, hqlow⟩
  · intro rows hrows
    unfold Page.kept at hrows
    cases hcontent : page.content with
    | inner cs =>
      rw [hcontent] at hrows
      cases hrows
    | leaf rs =>
      rw [hcontent] at hrows
      cases hrows
      obtain ⟨hzero, hsorted, -⟩ := h.leaf rs hcontent
      obtain ⟨-, -, hlower, -⟩ := h.cut_leaf hcontent hcut
      rw [hlevel, hlow, htop]
      refine ⟨hzero, ?_, hlower⟩
      rw [List.map_take]
      exact hsorted.sublist (List.take_sublist _ _)
  · intro children hchildren
    unfold Page.kept at hchildren
    cases hcontent : page.content with
    | leaf rs =>
      rw [hcontent] at hchildren
      cases hchildren
    | inner cs =>
      rw [hcontent] at hchildren
      cases hchildren
      obtain ⟨-, -, hlower, -⟩ := h.cut_inner hcontent hcut
      have hpos := hcut.pos
      rw [hlevel, hlow, htop]
      refine ⟨fun hnil => ?_, hlower.congr fun lo k x hx => ?_⟩
      · rcases List.take_eq_nil_iff.mp hnil with hmid | hnil
        · omega
        · exact (h.inner cs hcontent).1 hnil
      · exact hkeeps cs lo k x hcontent (List.mem_of_mem_take hx)

/-- The upper part, in a shape that has it begin there. -/
theorem upperHalf {sh' : Shape κ} {p : PageId} (h : Fits sh c page) (hcut : Cut page mid sep)
    (hlevel : sh'.level p = sh.level c) (hlow : sh'.low p = sep) (hhigh : sh'.high p = sh.high c)
    (hnext : ∀ k y, sh.high c = some k → sh.linked y → sh.level y = sh.level c → sh.low y = k →
      sh'.linked y ∧ sh'.level y = sh.level c ∧ sh'.low y = k)
    (hkeeps : Keeps sh sh' (sh.level c) page) : Fits sh' p (page.moved mid) := by
  have htop : sh'.top p = sh.top c := by
    unfold Shape.top
    rw [hhigh]
  constructor
  · rw [hhigh]
    exact h.highKey
  · rw [hhigh]
    exact h.last
  · intro k hk
    rw [hhigh] at hk
    have hk' : sh.top c = k := by
      unfold Shape.top
      rw [hk]
      rfl
    have hlt := (h.cut_lt hcut).2
    obtain ⟨-, y, hy, hlinked, hylevel, hylow⟩ := h.next k hk
    rw [hlevel, hlow]
    exact ⟨hk' ▸ hlt, y, hy, hnext k y hk hlinked hylevel hylow⟩
  · intro rows hrows
    unfold Page.moved at hrows
    cases hcontent : page.content with
    | inner cs =>
      rw [hcontent] at hrows
      cases hrows
    | leaf rs =>
      rw [hcontent] at hrows
      cases hrows
      obtain ⟨hzero, hsorted, -⟩ := h.leaf rs hcontent
      obtain ⟨-, -, -, hupper⟩ := h.cut_leaf hcontent hcut
      rw [hlevel, hlow, htop]
      refine ⟨hzero, ?_, hupper⟩
      rw [List.map_drop]
      exact hsorted.sublist (List.drop_sublist _ _)
  · intro children hchildren
    unfold Page.moved at hchildren
    cases hcontent : page.content with
    | leaf rs =>
      rw [hcontent] at hchildren
      cases hchildren
    | inner cs =>
      rw [hcontent] at hchildren
      cases hchildren
      obtain ⟨-, -, -, hupper⟩ := h.cut_inner hcontent hcut
      have hlen := hcut.lt
      rw [hcontent] at hlen
      simp only [Content.keys, List.length_map] at hlen
      rw [hlevel, hlow, htop]
      refine ⟨fun hnil => ?_, hupper.congr fun lo k x hx => ?_⟩
      · rw [List.drop_eq_nil_iff] at hnil
        omega
      · exact hkeeps cs lo k x hcontent (List.mem_of_mem_drop hx)

end Fits

namespace Shape

variable {sh : Shape κ} {c q x : PageId} {sep : κ}

theorem top_split (hx : x ≠ q) (hxc : x ≠ c) : (sh.split c q sep).top x = sh.top x := by
  unfold top
  rw [high_split hx hxc]

theorem top_split_self : (sh.split c q sep).top c = sep := by
  unfold top
  rw [high_split_self]
  rfl

theorem top_split_sibling (hqc : q ≠ c) : (sh.split c q sep).top q = sh.top c := by
  unfold top
  rw [high_split_sibling hqc]

/-- The children other than the one that was split are what they were. -/
theorem Child.split {level : Nat} {lo k : κ} (h : sh.Child level lo x k) (hq : ¬ sh.linked q)
    (hxc : x ≠ c) : (sh.split c q sep).Child level lo x k := by
  have hxq : x ≠ q := fun heq => hq (heq ▸ h.linked)
  refine ⟨Or.inr h.linked, ?_, ?_, ?_⟩
  · rw [level_split hxq]
    exact h.level
  · rw [low_split hxq]
    exact h.low
  · rw [top_split hxq hxc]
    exact h.top

/-- The child that was split, and its sibling. -/
theorem Child.split_self {level : Nat} {lo k : κ} (h : sh.Child level lo c k) (hq : ¬ sh.linked q) :
    (sh.split c q sep).Child level lo c sep ∧ (sh.split c q sep).Child level sep q k := by
  have hcq : c ≠ q := fun heq => hq (heq ▸ h.linked)
  constructor
  · refine ⟨Or.inr h.linked, ?_, ?_, top_split_self⟩
    · rw [level_split hcq]
      exact h.level
    · rw [low_split hcq]
      exact h.low
  · refine ⟨Or.inl rfl, ?_, low_split_sibling, ?_⟩
    · rw [level_split_sibling]
      exact h.level
    · rw [top_split_sibling (Ne.symm hcq)]
      exact h.top

/-- Entries that do not name the page that was split divide their range as before. -/
theorem Routes.split {level : Nat} {lo hi : κ} {es : List (κ × PageId)}
    (h : sh.Routes level lo es hi) (hq : ¬ sh.linked q) (hc : ∀ k, (k, c) ∉ es) :
    (sh.split c q sep).Routes level lo es hi := by
  apply h.congr
  intro lo k x hmem hchild
  exact hchild.split hq fun heq => hc k (heq ▸ hmem)

end Shape

omit [BoundedOrder κ] in
theorem addEntry_append {α : Type*} {pre post : List (κ × α)} {e : κ × α}
    (hpre : ∀ x ∈ pre, x.1 < e.1) (hpost : ∀ x ∈ post, e.1 < x.1) :
    addEntry e (pre ++ post) = pre ++ e :: post := by
  induction pre with
  | nil =>
    cases post with
    | nil => rfl
    | cons x post => exact if_pos (hpost x List.mem_cons_self)
  | cons x pre ih =>
    have hlt : ¬ e.1 < x.1 := not_lt.mpr (le_of_lt (hpre x List.mem_cons_self))
    rw [List.cons_append, addEntry, if_neg hlt, ih fun y hy => hpre y (List.mem_cons_of_mem _ hy)]
    rfl

/-- Once the parent has adopted the sibling, its entries divide its range again. -/
theorem Shape.Routes.adopt {sh : Shape κ} {c q : PageId} {sep lo hi k : κ} {level : Nat}
    {es : List (κ × PageId)} (h : sh.Routes level lo es hi) (hq : ¬ sh.linked q)
    (hmem : (k, c) ∈ es) (hlow : sh.low c < sep) (htop : sep < sh.top c) :
    (sh.split c q sep).Routes level lo (Tree.adopt es k sep c q) hi ∧
      ∃ pre post, es = pre ++ (k, c) :: post ∧
        Tree.adopt es k sep c q = pre ++ (sep, c) :: (k, q) :: post := by
  obtain ⟨pre, post, m, rfl, hpre, hlt, hchild, hpost⟩ := h.split_mem hmem
  rw [hchild.low] at hlow
  rw [hchild.top] at htop
  have hbelow : ∀ x ∈ pre, x.1 ≤ m := by
    intro x hx
    obtain ⟨-, -, -, hle, -⟩ := hpre.child hx
    exact hle
  have habove : ∀ x ∈ post, k < x.1 := fun x hx => hpost.lt_key hx
  have hreplace : replaceEntry k q (pre ++ (k, c) :: post) = pre ++ (k, q) :: post := by
    have hsame : ∀ {xs : List (κ × PageId)}, (∀ x ∈ xs, x.1 ≠ k) → replaceEntry k q xs = xs := by
      intro xs hxs
      unfold replaceEntry
      conv_rhs => rw [← List.map_id xs]
      apply List.map_congr_left
      intro x hx
      exact if_neg (hxs x hx)
    have happend : ∀ xs ys : List (κ × PageId), replaceEntry k q (xs ++ ys) =
        replaceEntry k q xs ++ replaceEntry k q ys := fun xs ys => List.map_append
    have hcons : ∀ ys : List (κ × PageId), replaceEntry k q ((k, c) :: ys) =
        (k, q) :: replaceEntry k q ys := by
      intro ys
      simp [replaceEntry]
    rw [happend, hcons, hsame fun x hx => ne_of_lt (lt_of_le_of_lt (hbelow x hx) hlt),
      hsame fun x hx => ne_of_gt (habove x hx)]
  have hadopt : Tree.adopt (pre ++ (k, c) :: post) k sep c q =
      pre ++ (sep, c) :: (k, q) :: post := by
    unfold Tree.adopt
    rw [hreplace]
    apply addEntry_append
    · exact fun x hx => lt_of_le_of_lt (hbelow x hx) hlow
    · intro x hx
      rcases List.mem_cons.mp hx with rfl | hx
      · exact htop
      · exact lt_trans htop (habove x hx)
  refine ⟨?_, pre, post, rfl, hadopt⟩
  rw [hadopt]
  -- the other entries name pages that begin elsewhere
  have hpre' : ∀ k', (k', c) ∉ pre := by
    intro k' hk'
    obtain ⟨m', -, hlt', hle', hchild'⟩ := hpre.child hk'
    have heq : m' = m := hchild'.low.symm.trans hchild.low
    exact absurd (lt_of_lt_of_le hlt' hle') (heq ▸ lt_irrefl _)
  have hpost' : ∀ k', (k', c) ∉ post := by
    intro k' hk'
    obtain ⟨m', hle', -, -, hchild'⟩ := hpost.child hk'
    have heq : m' = m := hchild'.low.symm.trans hchild.low
    exact absurd (lt_of_lt_of_le hlt hle') (heq ▸ lt_irrefl _)
  have hself : (sh.split c q sep).Child level m c sep := (hchild.split_self hq).1
  have hsibling : (sh.split c q sep).Child level sep q k := (hchild.split_self hq).2
  exact (hpre.split hq hpre').append ⟨hlow, hself, htop, hsibling, hpost.split hq hpost'⟩

namespace Blink

variable {store : PageId → Page κ ρ} {root : PageId} {sh : Shape κ} {c q : PageId} {mid : Nat}
  {sep : κ}

/-- Apart stays apart when a page is cut in two. -/
theorem apart_split (h : Blink store root sh) (hc : sh.linked c) (hq : ¬ sh.linked q)
    (hlow : sh.low c < sep) (htop : sep < sh.top c) {x y : PageId}
    (hx : (sh.split c q sep).linked x) (hy : (sh.split c q sep).linked y)
    (hlevel : (sh.split c q sep).level x = (sh.split c q sep).level y) (hne : x ≠ y) :
    (sh.split c q sep).Before x y ∨ (sh.split c q sep).Before y x := by
  have hcq : c ≠ q := fun heq => hq (heq ▸ hc)
  have hhigh : ∀ k, sh.high c = some k → sep < k := by
    intro k hk
    have heq : sh.top c = k := by
      unfold Shape.top
      rw [hk]
      rfl
    rw [← heq]
    exact htop
  -- what came before or after the page comes before or after both of its parts
  have hold : ∀ {x y}, sh.linked x → sh.linked y → sh.Before x y →
      (sh.split c q sep).Before x y := by
    rintro x y hx hy ⟨k, hk, hle⟩
    have hxq : x ≠ q := fun heq => hq (heq ▸ hx)
    have hyq : y ≠ q := fun heq => hq (heq ▸ hy)
    by_cases hxc : x = c
    · subst hxc
      refine ⟨sep, Shape.high_split_self, ?_⟩
      rw [Shape.low_split hyq]
      exact le_trans (le_of_lt (hhigh k hk)) hle
    · refine ⟨k, ?_, ?_⟩
      · rw [Shape.high_split hxq hxc]
        exact hk
      · rw [Shape.low_split hyq]
        exact hle
  have hnew : ∀ {y}, sh.linked y → sh.level y = sh.level c → y ≠ q →
      (sh.split c q sep).Before q y ∨ (sh.split c q sep).Before y q := by
    intro y hy hlevel hyq
    by_cases hyc : y = c
    · subst hyc
      refine Or.inr ⟨sep, Shape.high_split_self, ?_⟩
      rw [Shape.low_split_sibling]
    · rcases h.apart c y hc hy hlevel.symm (Ne.symm hyc) with ⟨k, hk, hle⟩ | ⟨k, hk, hle⟩
      · refine Or.inl ⟨k, ?_, ?_⟩
        · rw [Shape.high_split_sibling (Ne.symm hcq)]
          exact hk
        · rw [Shape.low_split hyq]
          exact hle
      · refine Or.inr ⟨k, ?_, ?_⟩
        · rw [Shape.high_split hyq hyc]
          exact hk
        · rw [Shape.low_split_sibling]
          exact le_trans hle (le_of_lt hlow)
  rcases hx with rfl | hx
  · rcases hy with rfl | hy
    · exact absurd rfl hne
    · rw [Shape.level_split_sibling, Shape.level_split (Ne.symm hne)] at hlevel
      exact hnew hy hlevel.symm (Ne.symm hne)
  · rcases hy with rfl | hy
    · rw [Shape.level_split_sibling, Shape.level_split hne] at hlevel
      exact (hnew hx hlevel hne).symm
    · have hxq : x ≠ q := fun heq => hq (heq ▸ hx)
      have hyq : y ≠ q := fun heq => hq (heq ▸ hy)
      rw [Shape.level_split hxq, Shape.level_split hyq] at hlevel
      exact (h.apart x y hx hy hlevel hne).imp (hold hx hy) (hold hy hx)

end Blink

namespace Fits

variable {sh : Shape κ} {c q x : PageId} {page : Page κ ρ} {mid : Nat} {sep : κ}

omit [LinearOrder κ] [BoundedOrder κ] in
/-- A link to a page is still one to it after a split: its range begins where it did. -/
theorem next_split {k : κ} (hq : ¬ sh.linked q) {level : Nat}
    (h : ∃ y, page.nextPage = some y ∧ sh.linked y ∧ sh.level y = level ∧ sh.low y = k) :
    ∃ y, page.nextPage = some y ∧ (sh.split c q sep).linked y ∧
      (sh.split c q sep).level y = level ∧ (sh.split c q sep).low y = k := by
  obtain ⟨y, hnext, hy, hlevel, hlow⟩ := h
  have hyq : y ≠ q := fun heq => hq (heq ▸ hy)
  refine ⟨y, hnext, Or.inr hy, ?_, ?_⟩
  · rw [Shape.level_split hyq]
    exact hlevel
  · rw [Shape.low_split hyq]
    exact hlow

/-- The pages that neither are split nor name the one that is. -/
theorem split (h : Fits sh x page) (hq : ¬ sh.linked q) (hxq : x ≠ q) (hxc : x ≠ c)
    (hnamed : ∀ children k, page.content = .inner children → (k, c) ∉ children) :
    Fits (sh.split c q sep) x page where
  highKey := h.highKey.trans (Shape.high_split hxq hxc).symm
  last hnone := h.last ((Shape.high_split hxq hxc).symm.trans hnone)
  next k hk := by
    obtain ⟨hlt, hnext⟩ := h.next k ((Shape.high_split hxq hxc).symm.trans hk)
    rw [Shape.low_split hxq, Shape.level_split hxq]
    exact ⟨hlt, next_split hq hnext⟩
  leaf rows hrows := by
    rw [Shape.level_split hxq, Shape.low_split hxq, Shape.top_split hxq hxc]
    exact h.leaf rows hrows
  inner children hchildren := by
    obtain ⟨hne, hroutes⟩ := h.inner children hchildren
    rw [Shape.level_split hxq, Shape.low_split hxq, Shape.top_split hxq hxc]
    exact ⟨hne, hroutes.split hq fun k => hnamed children k hchildren⟩

theorem keeps_split (hq : ¬ sh.linked q) {level : Nat}
    (hnamed : ∀ children k, page.content = .inner children → (k, c) ∉ children) :
    Keeps sh (sh.split c q sep) level page := by
  intro children lo k x hchildren hmem hchild
  exact hchild.split hq fun heq => hnamed children k hchildren (heq ▸ hmem)

/-- The lower part of the page that is split. -/
theorem kept (h : Fits sh c page) (hq : ¬ sh.linked q) (hcq : c ≠ q) (hcut : Cut page mid sep)
    (hnamed : ∀ children k, page.content = .inner children → (k, c) ∉ children) :
    Fits (sh.split c q sep) c (page.kept mid sep q) :=
  h.lowerHalf hcut (Shape.level_split hcq) (Shape.low_split hcq) Shape.high_split_self
    (Or.inl rfl) Shape.level_split_sibling Shape.low_split_sibling (keeps_split hq hnamed)

/-- The new sibling. -/
theorem moved (h : Fits sh c page) (hq : ¬ sh.linked q) (hcq : c ≠ q) (hcut : Cut page mid sep)
    (hnamed : ∀ children k, page.content = .inner children → (k, c) ∉ children) :
    Fits (sh.split c q sep) q (page.moved mid) := by
  apply h.upperHalf hcut Shape.level_split_sibling Shape.low_split_sibling
    (Shape.high_split_sibling (Ne.symm hcq)) _ (keeps_split hq hnamed)
  intro k y _ hy hlevel hlow
  have hyq : y ≠ q := fun heq => hq (heq ▸ hy)
  exact ⟨Or.inr hy, (Shape.level_split hyq).trans hlevel, (Shape.low_split hyq).trans hlow⟩

/-- The parent, once it has adopted the sibling. -/
theorem adopted (h : Fits sh x page) (hq : ¬ sh.linked q) (hxq : x ≠ q) (hxc : x ≠ c)
    {children : List (κ × PageId)} (hchildren : page.content = .inner children) {k : κ}
    (hmem : (k, c) ∈ children) (hlow : sh.low c < sep) (htop : sep < sh.top c) :
    Fits (sh.split c q sep) x (page.withChildren (adopt children k sep c q)) where
  highKey := h.highKey.trans (Shape.high_split hxq hxc).symm
  last hnone := h.last ((Shape.high_split hxq hxc).symm.trans hnone)
  next k hk := by
    obtain ⟨hlt, hnext⟩ := h.next k ((Shape.high_split hxq hxc).symm.trans hk)
    rw [Shape.low_split hxq, Shape.level_split hxq]
    exact ⟨hlt, next_split hq hnext⟩
  leaf := nofun
  inner cs hcs := by
    cases hcs
    obtain ⟨-, hroutes⟩ := h.inner children hchildren
    obtain ⟨hroutes', pre, post, -, hadopt⟩ := hroutes.adopt hq hmem hlow htop
    rw [Shape.level_split hxq, Shape.low_split hxq, Shape.top_split hxq hxc]
    refine ⟨fun hnil => ?_, hroutes'⟩
    rw [hadopt] at hnil
    exact List.append_ne_nil_of_right_ne_nil _ (List.cons_ne_nil _ _) hnil

end Fits

namespace Blink

variable {store : PageId → Page κ ρ} {root : PageId} {sh : Shape κ} {c q : PageId} {mid : Nat}
  {sep : κ}

/-- A split: the page keeps the lower part and links to the new sibling, which takes the
upper part and the page's own bound, and the parent adopts it. -/
theorem split (h : Blink store root sh) {parent : PageId} {children : List (κ × PageId)} {k : κ}
    (hparent : sh.linked parent) (hchildren : (store parent).content = .inner children)
    (hmem : (k, c) ∈ children) (hq : ¬ sh.linked q) (hcut : Cut (store c) mid sep) :
    Blink (Function.update (Function.update (Function.update store q ((store c).moved mid)) c
        ((store c).kept mid sep q)) parent
        ((store parent).withChildren (adopt children k sep c q))) root (sh.split c q sep) := by
  obtain ⟨-, hroutes⟩ := (h.fits parent hparent).inner children hchildren
  obtain ⟨m, -, -, -, hchild⟩ := hroutes.child hmem
  have hc := hchild.linked
  have hlevel := hchild.level
  obtain ⟨hlow, htop⟩ := (h.fits c hc).cut_lt hcut
  have hcq : c ≠ q := fun heq => hq (heq ▸ hc)
  have hpq : parent ≠ q := fun heq => hq (heq ▸ hparent)
  have hroot : root ≠ q := fun heq => hq (heq ▸ h.rooted.1)
  have hpc : parent ≠ c := by
    rintro rfl
    omega
  have hrootc : root ≠ c := by
    rintro rfl
    have hle := h.levels parent hparent
    omega
  -- only the parent names the page
  have hnamed : ∀ x, sh.linked x → x ≠ parent → ∀ cs k', (store x).content = .inner cs →
      (k', c) ∉ cs := by
    intro x hx hxp cs k' hcs hk'
    exact hxp (h.parent_unique hx hparent hcs hchildren hk' hmem)
  constructor
  · refine ⟨Or.inr h.rooted.1, ?_, ?_⟩
    · rw [Shape.low_split hroot]
      exact h.rooted.2.1
    · rw [Shape.high_split hroot hrootc]
      exact h.rooted.2.2
  · intro x hx
    rw [Shape.level_split hroot]
    by_cases hxq : x = q
    · rw [hxq, Shape.level_split_sibling]
      exact h.levels c hc
    · rw [Shape.level_split hxq]
      exact h.levels x (hx.resolve_left hxq)
  · exact fun x y hx hy => h.apart_split hc hq hlow htop hx hy
  · intro x hx
    by_cases hxp : x = parent
    · rw [hxp, Function.update_self]
      exact (h.fits parent hparent).adopted hq hpq hpc hchildren hmem hlow htop
    · rw [Function.update_of_ne hxp]
      by_cases hxc : x = c
      · rw [hxc, Function.update_self]
        exact (h.fits c hc).kept hq hcq hcut (hnamed c hc (Ne.symm hpc))
      · rw [Function.update_of_ne hxc]
        by_cases hxq : x = q
        · rw [hxq, Function.update_self]
          exact (h.fits c hc).moved hq hcq hcut (hnamed c hc (Ne.symm hpc))
        · rw [Function.update_of_ne hxq]
          have hxl := hx.resolve_left hxq
          exact (h.fits x hxl).split hq hxq hxc (hnamed x hxl hxp)

end Blink

/-! ## A new root -/

namespace Blink

variable {store : PageId → Page κ ρ} {root : PageId} {sh : Shape κ} {left right x : PageId}
  {mid : Nat} {sep : κ}

/-- The root is alone on its level. -/
theorem eq_root (h : Blink store root sh) (hx : sh.linked x) (hlevel : sh.level x = sh.level root) :
    x = root := by
  by_contra hne
  rcases h.apart x root hx h.rooted.1 hlevel hne with ⟨k, hk, hle⟩ | ⟨k, hk, -⟩
  · rw [h.rooted.2.1] at hle
    have hlt := ((h.fits x hx).next k hk).1
    exact not_lt_bot (lt_of_lt_of_le hlt hle)
  · rw [h.rooted.2.2] at hk
    cases hk

/-- No entry names the root. -/
theorem ne_root_of_child (h : Blink store root sh) (hx : sh.linked x) {lo k : κ} {c : PageId}
    (hc : sh.Child (sh.level x) lo c k) : c ≠ root := by
  rintro rfl
  have hlevel := hc.level
  have hle := h.levels x hx
  omega

end Blink

namespace Shape

variable {sh : Shape κ} {root left right c : PageId} {sep : κ}

omit [LinearOrder κ] [BoundedOrder κ] in
/-- The pages of the old tree other than the root. -/
theorem grow_of_linked (hleft : ¬ sh.linked left) (hright : ¬ sh.linked right) (hc : sh.linked c)
    (hroot : c ≠ root) : (sh.grow root left right sep).level c = sh.level c ∧
      (sh.grow root left right sep).low c = sh.low c ∧
      (sh.grow root left right sep).high c = sh.high c :=
  grow_of_ne hroot (fun heq => hleft (heq ▸ hc)) (fun heq => hright (heq ▸ hc))

theorem Child.grow {level : Nat} {lo k : κ} (h : sh.Child level lo c k) (hleft : ¬ sh.linked left)
    (hright : ¬ sh.linked right) (hroot : c ≠ root) :
    (sh.grow root left right sep).Child level lo c k := by
  have hsame : (sh.grow root left right sep).level c = sh.level c ∧ _ :=
    grow_of_linked hleft hright h.linked hroot
  obtain ⟨hlevel, hlow, hhigh⟩ := hsame
  refine ⟨Or.inr (Or.inr h.linked), ?_, ?_, ?_⟩
  · rw [hlevel]
    exact h.level
  · rw [hlow]
    exact h.low
  · unfold Shape.top
    rw [hhigh]
    exact h.top

theorem Routes.grow {level : Nat} {lo hi : κ} {es : List (κ × PageId)}
    (h : sh.Routes level lo es hi) (hleft : ¬ sh.linked left) (hright : ¬ sh.linked right)
    (hroot : ∀ lo k c, sh.Child level lo c k → c ≠ root) :
    (sh.grow root left right sep).Routes level lo es hi :=
  h.congr fun lo k c _ hchild => hchild.grow hleft hright (hroot lo k c hchild)

end Shape

namespace Blink

variable {store : PageId → Page κ ρ} {root : PageId} {sh : Shape κ} {left right x : PageId}
  {mid : Nat} {sep : κ}

/-- The pages other than the root. -/
theorem fits_grow (h : Blink store root sh) (hleft : ¬ sh.linked left) (hright : ¬ sh.linked right)
    (hx : sh.linked x) (hroot : x ≠ root) : Fits (sh.grow root left right sep) x (store x) := by
  have hfits := h.fits x hx
  have hsame : (sh.grow root left right sep).level x = sh.level x ∧ _ :=
    Shape.grow_of_linked hleft hright hx hroot
  obtain ⟨hlevel, hlow, hhigh⟩ := hsame
  have htop : (sh.grow root left right sep).top x = sh.top x := by
    unfold Shape.top
    rw [hhigh]
  constructor
  · rw [hhigh]
    exact hfits.highKey
  · rw [hhigh]
    exact hfits.last
  · intro k hk
    rw [hhigh] at hk
    obtain ⟨hlt, y, hnext, hy, hylevel, hylow⟩ := hfits.next k hk
    have hyroot : y ≠ root := by
      rintro rfl
      rw [← hylow, h.rooted.2.1] at hlt
      exact not_lt_bot hlt
    have hysame : (sh.grow root left right sep).level y = sh.level y ∧ _ :=
      Shape.grow_of_linked hleft hright hy hyroot
    rw [hlevel, hlow]
    exact ⟨hlt, y, hnext, Or.inr (Or.inr hy), hysame.1.trans hylevel, hysame.2.1.trans hylow⟩
  · rw [hlevel, hlow, htop]
    exact hfits.leaf
  · intro children hchildren
    obtain ⟨hne, hroutes⟩ := hfits.inner children hchildren
    rw [hlevel, hlow, htop]
    exact ⟨hne, hroutes.grow hleft hright fun lo k c hc => h.ne_root_of_child hx hc⟩

theorem keeps_grow (h : Blink store root sh) (hleft : ¬ sh.linked left)
    (hright : ¬ sh.linked right) :
    Fits.Keeps sh (sh.grow root left right sep) (sh.level root) (store root) := by
  intro children lo k x hchildren hmem hchild
  exact hchild.grow hleft hright (h.ne_root_of_child h.rooted.1 hchild)

/-- The halves of the root. -/
theorem fits_grow_halves (h : Blink store root sh) (hleft : ¬ sh.linked left)
    (hright : ¬ sh.linked right) (hne : left ≠ right) (hcut : Cut (store root) mid sep) :
    Fits (sh.grow root left right sep) left ((store root).kept mid sep right) ∧
      Fits (sh.grow root left right sep) right ((store root).moved mid) := by
  have hfits := h.fits root h.rooted.1
  have hlroot : left ≠ root := fun heq => hleft (heq ▸ h.rooted.1)
  have hrroot : right ≠ root := fun heq => hright (heq ▸ h.rooted.1)
  have hl : (sh.grow root left right sep).level left = sh.level root ∧ _ :=
    Shape.grow_left hlroot hne
  have hr : (sh.grow root left right sep).level right = sh.level root ∧ _ :=
    Shape.grow_right hrroot
  constructor
  · exact hfits.lowerHalf hcut hl.1 hl.2.1 hl.2.2 (Or.inr (Or.inl rfl)) hr.1 hr.2.1
      (h.keeps_grow hleft hright)
  · apply hfits.upperHalf hcut hr.1 hr.2.1 hr.2.2 _ (h.keeps_grow hleft hright)
    intro k y hk
    rw [h.rooted.2.2] at hk
    cases hk

/-- The root, once it routes to its halves. -/
theorem fits_grow_root (h : Blink store root sh) (hleft : ¬ sh.linked left)
    (hright : ¬ sh.linked right) (hne : left ≠ right) (hcut : Cut (store root) mid sep) :
    Fits (sh.grow root left right sep) root ((store root).promoted sep left right) := by
  have hfits := h.fits root h.rooted.1
  have hlroot : left ≠ root := fun heq => hleft (heq ▸ h.rooted.1)
  have hrroot : right ≠ root := fun heq => hright (heq ▸ h.rooted.1)
  have hsame : (sh.grow root left right sep).level root = sh.level root + 1 ∧ _ :=
    Shape.grow_root (Ne.symm hlroot) (Ne.symm hrroot)
  obtain ⟨hlevel, hlow, hhigh⟩ := hsame
  have hl : (sh.grow root left right sep).level left = sh.level root ∧ _ :=
    Shape.grow_left hlroot hne
  have hr : (sh.grow root left right sep).level right = sh.level root ∧ _ :=
    Shape.grow_right hrroot
  have hroottop : sh.top root = ⊤ := by
    unfold Shape.top
    rw [h.rooted.2.2]
    rfl
  constructor
  · rw [hhigh]
    exact hfits.highKey
  · rw [hhigh]
    exact hfits.last
  · intro k hk
    rw [hhigh, h.rooted.2.2] at hk
    cases hk
  · exact nofun
  · intro children hchildren
    cases hchildren
    obtain ⟨hsep, hsep'⟩ := hfits.cut_lt hcut
    have htop : (sh.grow root left right sep).top root = ⊤ := by
      unfold Shape.top
      rw [hhigh]
      exact hroottop
    rw [hroottop] at hsep'
    rw [hlevel, hlow, htop]
    refine ⟨List.cons_ne_nil _ _, hsep, ⟨Or.inl rfl, congrArg (· + 1) hl.1, hl.2.1, ?_⟩, hsep',
      ⟨Or.inr (Or.inl rfl), congrArg (· + 1) hr.1, hr.2.1, ?_⟩, rfl⟩
    · unfold Shape.top
      rw [hl.2.2]
      rfl
    · unfold Shape.top
      rw [hr.2.2]
      exact hroottop

/-- A split of the root, which stays where it is. -/
theorem splitRoot (h : Blink store root sh) (hleft : ¬ sh.linked left) (hright : ¬ sh.linked right)
    (hne : left ≠ right) (hcut : Cut (store root) mid sep) :
    Blink (Function.update (Function.update (Function.update store left
        ((store root).kept mid sep right)) right ((store root).moved mid)) root
        ((store root).promoted sep left right)) root (sh.grow root left right sep) := by
  have hlroot : left ≠ root := fun heq => hleft (heq ▸ h.rooted.1)
  have hrroot : right ≠ root := fun heq => hright (heq ▸ h.rooted.1)
  have hroot : (sh.grow root left right sep).level root = sh.level root + 1 ∧ _ :=
    Shape.grow_root (Ne.symm hlroot) (Ne.symm hrroot)
  have hl : (sh.grow root left right sep).level left = sh.level root ∧ _ :=
    Shape.grow_left hlroot hne
  have hr : (sh.grow root left right sep).level right = sh.level root ∧ _ :=
    Shape.grow_right hrroot
  have hold : ∀ x, sh.linked x → x ≠ root →
      (sh.grow root left right sep).level x = sh.level x ∧
        (sh.grow root left right sep).low x = sh.low x ∧
        (sh.grow root left right sep).high x = sh.high x := fun x hx hxr =>
    Shape.grow_of_linked hleft hright hx hxr
  -- the levels below the root are as they were, and the new ones have no other pages
  have hbelow : ∀ x, sh.linked x → x ≠ root → sh.level x < sh.level root := by
    intro x hx hxr
    have hle := h.levels x hx
    have hlt : sh.level x ≠ sh.level root := fun heq => hxr (h.eq_root hx heq)
    omega
  constructor
  · refine ⟨Or.inr (Or.inr h.rooted.1), ?_, ?_⟩
    · rw [hroot.2.1]
      exact h.rooted.2.1
    · rw [hroot.2.2]
      exact h.rooted.2.2
  · rintro x (rfl | rfl | hx)
    · rw [hl.1, hroot.1]
      omega
    · rw [hr.1, hroot.1]
      omega
    · by_cases hxr : x = root
      · rw [hxr]
      · rw [(hold x hx hxr).1, hroot.1]
        have hlt := hbelow x hx hxr
        omega
  · have hlr : (sh.grow root left right sep).Before left right := by
      refine ⟨sep, hl.2.2, ?_⟩
      rw [hr.2.1]
    have hlevelof : ∀ x, sh.linked x →
        (sh.grow root left right sep).level x ≠ sh.level root := by
      intro x hx
      by_cases hxr : x = root
      · rw [hxr, hroot.1]
        omega
      · rw [(hold x hx hxr).1]
        exact Nat.ne_of_lt (hbelow x hx hxr)
    rintro x y (rfl | rfl | hx) (rfl | rfl | hy) hlevel hxy
    · exact absurd rfl hxy
    · exact Or.inl hlr
    · rw [hl.1] at hlevel
      exact absurd hlevel.symm (hlevelof y hy)
    · exact Or.inr hlr
    · exact absurd rfl hxy
    · rw [hr.1] at hlevel
      exact absurd hlevel.symm (hlevelof y hy)
    · rw [hl.1] at hlevel
      exact absurd hlevel (hlevelof x hx)
    · rw [hr.1] at hlevel
      exact absurd hlevel (hlevelof x hx)
    · by_cases hxr : x = root
      · subst hxr
        have hyr : y ≠ x := Ne.symm hxy
        rw [hroot.1, (hold y hy hyr).1] at hlevel
        have hlt := hbelow y hy hyr
        omega
      · by_cases hyr : y = root
        · subst hyr
          rw [hroot.1, (hold x hx hxr).1] at hlevel
          have hlt := hbelow x hx hxr
          omega
        · have hx' := hold x hx hxr
          have hy' := hold y hy hyr
          rw [hx'.1, hy'.1] at hlevel
          unfold Shape.Before
          rw [hx'.2.1, hx'.2.2, hy'.2.1, hy'.2.2]
          exact h.apart x y hx hy hlevel hxy
  · intro x hx
    by_cases hxr : x = root
    · rw [hxr, Function.update_self]
      exact h.fits_grow_root hleft hright hne hcut
    · rw [Function.update_of_ne hxr]
      by_cases hxright : x = right
      · rw [hxright, Function.update_self]
        exact (h.fits_grow_halves hleft hright hne hcut).2
      · rw [Function.update_of_ne hxright]
        by_cases hxleft : x = left
        · rw [hxleft, Function.update_self]
          exact (h.fits_grow_halves hleft hright hne hcut).1
        · rw [Function.update_of_ne hxleft]
          have hxl : sh.linked x := (hx.resolve_left hxleft).resolve_left hxright
          exact h.fits_grow hleft hright hxl hxr

end Blink

/-! ## Later shapes -/

/-- A page that is linked stays linked and begins where it did, and a lookup has passed
the pages that it had passed. -/
structure Shape.Extends (sh sh' : Shape κ) : Prop where
  linked : ∀ p, sh.linked p → sh'.linked p ∧ sh'.low p = sh.low p
  onward : ∀ p q, sh.linked p → sh.linked q → sh'.Onward p q → sh.Onward p q

namespace Shape.Extends

variable {sh sh' sh'' : Shape κ}

omit [BoundedOrder κ] in
theorem refl (sh : Shape κ) : sh.Extends sh := ⟨fun _ hp => ⟨hp, rfl⟩, fun _ _ _ _ h => h⟩

omit [BoundedOrder κ] in
theorem split {c q : PageId} {sep : κ} (hq : ¬ sh.linked q) : sh.Extends (sh.split c q sep) := by
  have hne : ∀ x, sh.linked x → x ≠ q := fun x hx heq => hq (heq ▸ hx)
  constructor
  · exact fun p hp => ⟨Or.inr hp, low_split (hne p hp)⟩
  · intro x y hx hy honward
    unfold Onward at honward
    rw [level_split (hne x hx), level_split (hne y hy), low_split (hne x hx),
      low_split (hne y hy)] at honward
    exact honward

end Shape.Extends

/-- The root is above all other pages, before and after it was split. -/
theorem Blink.extends_grow {store : PageId → Page κ ρ} {root left right : PageId} {sh : Shape κ}
    {sep : κ} (h : Blink store root sh) (hleft : ¬ sh.linked left) (hright : ¬ sh.linked right) :
    sh.Extends (sh.grow root left right sep) := by
  have hlroot : root ≠ left := fun heq => hleft (heq ▸ h.rooted.1)
  have hrroot : root ≠ right := fun heq => hright (heq ▸ h.rooted.1)
  have hroot : (sh.grow root left right sep).level root = sh.level root + 1 ∧ _ :=
    Shape.grow_root hlroot hrroot
  have hold : ∀ x, sh.linked x → x ≠ root →
      (sh.grow root left right sep).level x = sh.level x ∧
        (sh.grow root left right sep).low x = sh.low x ∧
        (sh.grow root left right sep).high x = sh.high x :=
    fun x hx hxr => Shape.grow_of_linked hleft hright hx hxr
  have hbelow : ∀ x, sh.linked x → x ≠ root → sh.level x < sh.level root := by
    intro x hx hxr
    exact lt_of_le_of_ne (h.levels x hx) fun heq => hxr (h.eq_root hx heq)
  constructor
  · intro x hx
    refine ⟨Or.inr (Or.inr hx), ?_⟩
    by_cases hxr : x = root
    · rw [hxr, hroot.2.1]
    · exact (hold x hx hxr).2.1
  · intro x y hx hy honward
    by_cases hyr : y = root
    · subst hyr
      unfold Shape.Onward at honward
      rw [hroot.1] at honward
      by_cases hxr : x = y
      · subst hxr
        rw [hroot.1] at honward
        rcases honward with hlt | ⟨-, hlt⟩
        · omega
        · exact absurd hlt (lt_irrefl _)
      · rw [(hold x hx hxr).1] at honward
        have hlt := hbelow x hx hxr
        omega
    · by_cases hxr : x = root
      · subst hxr
        exact Or.inl (hbelow y hy hyr)
      · unfold Shape.Onward at honward
        rw [(hold x hx hxr).1, (hold x hx hxr).2.1, (hold y hy hyr).1,
          (hold y hy hyr).2.1] at honward
        exact honward

end SquealDb.Tree
