import SquealDb.Tree.DescentInv

/-!
# The steps of the descents

Each publication of a split, and from them every step.  The tree changes when the page
that is split is published: from then on the new sibling is linked, and the parent is
behind until it is published too.
-/

namespace SquealDb.Tree.State

variable {κ ρ : Type*} [LinearOrder κ] [BoundedOrder κ]

/-! ## Parents that lag behind -/

section Behind

variable {t u : Nat} {s : State κ ρ} {sh : Shape κ} {p : PageId}

omit [BoundedOrder κ] in
theorem adopting_of_lags {page : Page κ ρ} {hi id sep : κ} {c q : PageId}
    (h : Lags page hi id sep c q) : ∃ pre k post, page.content = .inner (pre ++ (k, c) :: post) ∧
      (id < k ∨ k = hi) ∧
      page.adopting id sep c q = page.withChildren (pre ++ (sep, c) :: (k, q) :: post) := by
  obtain ⟨pre, k, post, hcontent, hrouted, hk, hadopt⟩ := h
  refine ⟨pre, k, post, hcontent, hk, ?_⟩
  unfold Page.adopting
  rw [hcontent]
  dsimp only
  rw [hrouted]
  dsimp only
  rw [hadopt]

/-- A thread that is behind at a page holds it. -/
theorem Inv.behind (h : s.Inv sh) (hbehind : (s.thread u).behind = some p) :
    ∃ id sep c q, Holds s sh u id p ∧ Lags (s.store p) (sh.top p) id sep c q ∧
      s.settled p = (s.store p).adopting id sep c q := by
  have hok := h.ok u
  cases hth : s.thread u with
  | adopting id parent c q sep =>
    rw [hth] at hok hbehind
    cases hbehind
    refine ⟨id, sep, c, q, hok.1, hok.2.1, ?_⟩
    rw [settled_of_lock hok.1.lock, hth]
    exact if_pos rfl
  | moving id parent c q sep target =>
    rw [hth] at hok hbehind
    cases hbehind
    refine ⟨id, sep, c, q, hok.1, hok.2.1, ?_⟩
    rw [settled_of_lock hok.1.lock, hth]
    exact if_pos rfl
  | _ =>
    rw [hth] at hbehind
    cases hbehind

/-- A page is settled as it is, or its parent's entries for a child that was split are. -/
theorem Inv.settled_cases (h : s.Inv sh) (p : PageId) : s.settled p = s.store p ∨
    ∃ id sep c q, sh.linked p ∧ Lags (s.store p) (sh.top p) id sep c q ∧
      s.settled p = (s.store p).adopting id sep c q := by
  by_cases hbehind : ∃ u, (s.thread u).behind = some p
  · obtain ⟨u, hu⟩ := hbehind
    obtain ⟨id, sep, c, q, hholds, hlags, hsettled⟩ := h.behind hu
    exact Or.inr ⟨id, sep, c, q, hholds.linked, hlags, hsettled⟩
  · exact Or.inl (settled_eq_store fun u _ hu => hbehind ⟨u, hu⟩)

theorem Inv.settled_of_unlinked (h : s.Inv sh) (hp : ¬ sh.linked p) : s.settled p = s.store p := by
  rcases h.settled_cases p with hsettled | ⟨id, sep, c, q, hlinked, -⟩
  · exact hsettled
  · exact absurd hlinked hp

/-- The leaves are never behind. -/
theorem Inv.fits_leaf (h : s.Inv sh) (hp : sh.linked p) {rows : List (κ × ρ)}
    (hrows : (s.store p).content = .leaf rows) : Fits sh p (s.store p) := by
  rcases h.settled_cases p with hsettled | ⟨id, sep, c, q, -, hlags, -⟩
  · rw [← hsettled]
    exact h.tree.fits p hp
  · obtain ⟨pre, k, post, hcontent, -⟩ := hlags
    rw [hrows] at hcontent
    cases hcontent

/-- What is in the store leads a lookup onward, at every moment. -/
theorem Inv.leads (h : s.Inv sh) (hp : sh.linked p) : Leads sh p (s.store p) := by
  have hfits := h.tree.fits p hp
  rcases h.settled_cases p with hsettled | ⟨id, sep, c, q, -, hlags, hsettled⟩
  · rw [hsettled] at hfits
    exact hfits.leads
  · obtain ⟨pre, k, post, hcontent, -, hadopting⟩ := adopting_of_lags hlags
    rw [hsettled, hadopting] at hfits
    refine ⟨hfits.highKey, hfits.last, hfits.next, fun children hchildren => ?_⟩
    rw [hcontent] at hchildren
    cases hchildren
    obtain ⟨-, hbegins⟩ := hfits.leads.inner _ rfl
    exact ⟨List.append_ne_nil_of_right_ne_nil _ (List.cons_ne_nil _ _), hbegins.merge⟩

end Behind

/-! ## Publications -/

section Publications

variable {t : Nat} {s : State κ ρ} {sh : Shape κ} {p c q : PageId} {id sep : κ}
  {mid : Nat}

omit [BoundedOrder κ] in
theorem mem_of_successorOrLast {α : Type*} {es : List (κ × α)} {e : κ × α}
    (h : successorOrLast es id = some e) : e ∈ es := by
  unfold successorOrLast at h
  rcases Option.or_eq_some_iff.mp h with h | ⟨-, h⟩
  · exact List.mem_of_find?_eq_some h
  · exact List.mem_of_getLast? h

/-- The child that a page routes a key to is on the level below, and begins at or before
the key. -/
theorem Inv.routed (h : s.Inv sh) (hholds : Holds s sh t id p)
    (hbehind : (s.thread t).behind = none) (hrouted : Routed (s.store p) id c) :
    c ≠ p ∧ sh.linked c ∧ sh.low c ≤ id ∧ ∃ children k, (s.store p).content = .inner children ∧
      successorOrLast children id = some (k, c) ∧ sh.top c = k ∧ (id < k ∨ k = sh.top p) := by
  obtain ⟨children, k, hchildren, hfound⟩ := hrouted
  have hfits := h.fits_of_held hholds.lock hholds.linked hbehind
  obtain ⟨hne, hroutes⟩ := hfits.inner children hchildren
  obtain ⟨pre, k', c', post, m, -, hfound', -, -, hchild, -, hm, hk⟩ :=
    hroutes.successorOrLast hne hholds.low
  rw [hfound] at hfound'
  cases hfound'
  refine ⟨?_, hchild.linked, ?_, children, k, hchildren, hfound, hchild.top, hk⟩
  · rintro rfl
    have hlevel := hchild.level
    omega
  · rw [hchild.low]
    exact hm

/-- `split_non_root_page` publishes the page: the sibling is linked, the parent behind. -/
theorem Inv.publishSplit (h : s.Inv sh) (hth : s.thread t = .splitting id p c q mid)
    (hsep : (s.store c).separator mid = some sep) :
    (((s.publish c ((s.store c).kept mid sep q)).release c).goto t
      (.adopting id p c q sep)).Inv (sh.split c q sep) := by
  have hok := h.ok t
  rw [hth] at hok
  obtain ⟨hholds, hrouted, hlockc, hc, hmoved, sep', hcut⟩ := hok
  have hcut : Cut (s.store c) mid sep := by
    have heq := hcut.separator.symm.trans hsep
    cases heq
    exact hcut
  have hbehind : (s.thread t).behind = none := by rw [hth]; rfl
  obtain ⟨hcp, -, hclow, children, k, hchildren, hfound, hctop, hk⟩ :=
    h.routed hholds hbehind hrouted
  have hmem := mem_of_successorOrLast hfound
  have hqown : (s.thread t).owns q := by rw [hth]; rfl
  have hq := (h.owned t q hqown).2
  have hpq : p ≠ q := fun heq => hq (heq ▸ hholds.linked)
  have hcq : c ≠ q := fun heq => hq (heq ▸ hc)
  have hnone : ∀ x, (s.thread t).behind ≠ some x := by
    rw [hbehind]
    exact nofun
  have hsettled : s.settled p = s.store p := settled_of_held hholds.lock (hnone p)
  have hsettledc : s.settled c = s.store c := settled_of_held hlockc (hnone c)
  obtain ⟨hlow, htop⟩ := (h.fits_of_held hlockc hc hbehind).cut_lt hcut
  have hroutes := ((h.fits_of_held hholds.lock hholds.linked hbehind).inner children hchildren).2
  obtain ⟨pre, post, hpre, hadopt⟩ := (hroutes.adopt hq hmem hlow htop).2
  have hstorep : (((s.publish c ((s.store c).kept mid sep q)).release c).goto t
      (.adopting id p c q sep)).store p = s.store p := Function.update_of_ne (Ne.symm hcp) _ _
  have hlockp : (((s.publish c ((s.store c).kept mid sep q)).release c).goto t
      (.adopting id p c q sep)).lock p = some t :=
    (Function.update_of_ne (Ne.symm hcp) _ _).trans hholds.lock
  have htopp : (sh.split c q sep).top p = sh.top p := Shape.top_split hpq (Ne.symm hcp)
  have hlinked : ∀ x, sh.linked x → x ≠ q := fun x hx heq => hq (heq ▸ hx)
  have hsplit := h.tree.split hholds.linked (hsettled ▸ hchildren) hmem hq (hsettledc ▸ hcut)
  refine h.publishHeld hlockc hc (hsplit.congr fun x _ => ?_) ?_ ?_ ?_ (fun _ hx => hx) ?_
  · by_cases hxp : x = p
    · subst hxp
      rw [Function.update_self, hsettled, settled_of_lock hlockp, thread_goto_self, hstorep]
      show (if x = x then (s.store x).adopting id sep c q else s.store x) = _
      rw [if_pos rfl, Page.adopting, hchildren]
      dsimp only
      rw [hfound]
    · rw [Function.update_of_ne hxp]
      by_cases hxc : x = c
      · rw [hxc, Function.update_self, settled_publish_self, hsettledc]
      · have hnot : (Thread.adopting id p c q sep : Thread κ ρ).behind ≠ some x :=
          fun heq => hxp (Option.some.inj heq).symm
        rw [Function.update_of_ne hxc, settled_publish_of_ne hlockc hxc (hnone x) hnot]
        by_cases hxq : x = q
        · rw [hxq, Function.update_self, hsettledc, h.settled_of_unlinked hq, hmoved]
        · rw [Function.update_of_ne hxq]
  · exact fun x hx => ⟨Or.inr hx, Shape.low_split (hlinked x hx)⟩
  · rintro x (rfl | hx)
    · exact Or.inr hqown
    · exact Or.inl hx
  · exact fun x hx hxc => Shape.top_split (hlinked x hx) hxc
  · refine ⟨⟨hlockp, Or.inr hholds.linked, ?_, ?_⟩, ⟨pre, k, post, ?_⟩, Or.inr hc, ?_⟩
    · rw [Shape.low_split hpq]
      exact hholds.low
    · rw [htopp]
      exact hholds.top
    · rw [hstorep, htopp, ← hpre]
      exact ⟨hchildren, hfound, hk, hadopt⟩
    · rw [Shape.low_split hcq]
      exact hclow

/-- `split_root_page` publishes the root, as the parent of its two halves. -/
theorem Inv.publishRoot (h : s.Inv sh) {left right : PageId}
    (hth : s.thread t = .grown id mid left right)
    (hsep : (s.store s.root).separator mid = some sep) :
    (((s.publish s.root ((s.store s.root).promoted sep left right)).release s.root).goto t
      (.reentering id)).Inv (sh.grow s.root left right sep) := by
  have hok := h.ok t
  rw [hth] at hok
  obtain ⟨hid, hlock, hne, hright, sep', hcut, hleft⟩ := hok
  have heq := hcut.separator.symm.trans hsep
  cases heq
  have hnone : ∀ x, (s.thread t).behind ≠ some x := by
    rw [hth]
    exact nofun
  have howns : ∀ x, (s.thread t).owns x ↔ x = left ∨ x = right := by
    rw [hth]
    exact fun x => Iff.rfl
  have hl := (h.owned t left ((howns left).mpr (Or.inl rfl))).2
  have hr := (h.owned t right ((howns right).mpr (Or.inr rfl))).2
  have hroot := h.tree.rooted.1
  have hlroot : s.root ≠ left := fun heq => hl (heq ▸ hroot)
  have hrroot : s.root ≠ right := fun heq => hr (heq ▸ hroot)
  have hsettled : s.settled s.root = s.store s.root := settled_of_held hlock (hnone s.root)
  have hgrow := h.tree.splitRoot hl hr hne (hsettled ▸ hcut)
  refine h.publishHeld hlock hroot (hgrow.congr fun x _ => ?_) ?_ ?_ ?_ (fun _ hx => hx) hid
  · by_cases hx : x = s.root
    · rw [hx, Function.update_self, settled_publish_self, hsettled]
    · have hnot : (Thread.reentering id : Thread κ ρ).behind ≠ some x := nofun
      rw [Function.update_of_ne hx, settled_publish_of_ne hlock hx (hnone x) hnot]
      by_cases hxr : x = right
      · rw [hxr, Function.update_self, hsettled, h.settled_of_unlinked hr, hright]
      · rw [Function.update_of_ne hxr]
        by_cases hxl : x = left
        · rw [hxl, Function.update_self, hsettled, h.settled_of_unlinked hl, hleft]
        · rw [Function.update_of_ne hxl]
  · intro x hx
    refine ⟨Or.inr (Or.inr hx), ?_⟩
    by_cases hxroot : x = s.root
    · rw [hxroot]
      exact (Shape.grow_root hlroot hrroot).2.1
    · exact (Shape.grow_of_linked hl hr hx hxroot).2.1
  · rintro x (hx | hx | hx)
    · exact Or.inr ((howns x).mpr (Or.inl hx))
    · exact Or.inr ((howns x).mpr (Or.inr hx))
    · exact Or.inl hx
  · intro x hx hxroot
    unfold Shape.top
    rw [(Shape.grow_of_linked hl hr hx hxroot).2.2]

/-- `descend_for_write` publishes the parent: the store catches up. -/
theorem Inv.publishParent (h : s.Inv sh) {target : PageId}
    (hth : s.thread t = .moving id p c q sep target) {children : List (κ × PageId)}
    (hchildren : (s.store p).content = .inner children) {k : κ} {c' : PageId}
    (hfound : successorOrLast children id = some (k, c')) :
    (((s.publish p ((s.store p).withChildren (adopt children k sep c q))).release p).goto t
      (.descending id target)).Inv sh := by
  have hok := h.ok t
  rw [hth] at hok
  obtain ⟨hholds, hlags, ⟨hc, hclow⟩, hlocked, htarget⟩ := hok
  have hsettled : s.settled p = (s.store p).withChildren (adopt children k sep c q) := by
    rw [settled_of_lock hholds.lock, hth]
    show (if p = p then (s.store p).adopting id sep c q else s.store p) = _
    rw [if_pos rfl, Page.adopting, hchildren]
    dsimp only
    rw [hfound]
  have htree :
    (((s.publish p ((s.store p).withChildren (adopt children k sep c q))).release p).goto t
      (.descending id target)).settled = s.settled := by
    funext x
    by_cases hx : x = p
    · rw [hx, settled_publish_self, hsettled]
    · have hnot : (Thread.descending id target : Thread κ ρ).behind ≠ some x := nofun
      apply settled_publish_of_ne hholds.lock hx _ hnot
      rw [hth]
      exact fun heq => hx (Option.some.inj heq).symm
  -- the target is one of the two pages that the parent now names
  obtain ⟨pre, k', post, hcontent, hk', hadopting⟩ := adopting_of_lags hlags
  have hfits := h.tree.fits p hholds.linked
  have hrouted : s.settled p = (s.store p).withChildren (pre ++ (sep, c) :: (k', q) :: post) := by
    rw [← hadopting, settled_of_lock hholds.lock, hth]
    exact if_pos rfl
  rw [hrouted] at hfits
  obtain ⟨m, -, hroutes⟩ := Shape.Routes.append_iff.mp (hfits.inner _ rfl).2
  obtain ⟨-, hchild, -, hsibling, -⟩ := hroutes
  have hin : target ≠ p ∧ sh.linked target ∧ sh.low target ≤ id ∧ id < sh.top target := by
    rw [htarget]
    split
    · next hlt =>
        refine ⟨?_, hc, hclow, ?_⟩
        · rintro rfl
          have hlevel := hchild.level
          omega
        · rw [hchild.top]
          exact hlt
    · next hle =>
        refine ⟨?_, hsibling.linked, ?_, ?_⟩
        · rintro rfl
          have hlevel := hsibling.level
          omega
        · rw [hsibling.low]
          exact not_lt.mp hle
        · rw [hsibling.top]
          rcases hk' with hlt | heq
          · exact hlt
          · rw [heq]
            exact hholds.top
  refine h.publishHeld hholds.lock hholds.linked (htree ▸ h.tree) (fun x hx => ⟨hx, rfl⟩)
    (fun x hx => Or.inl hx) (fun _ _ _ => rfl) (fun _ hx => hx)
    ⟨?_, hin.2.1, hin.2.2.1, hin.2.2.2⟩
  exact (Function.update_of_ne hin.1 _ _).trans hlocked

end Publications

/-! ## Every step -/

section Steps

variable {t : Nat} {s : State κ ρ} {sh : Shape κ}

variable {id : κ} {p : PageId}

/-- The steps of a lookup and of an unlocked descent. -/
theorem Inv.advance_reading (h : s.Inv sh) (hp : sh.linked p) (hlow : sh.low p ≤ id)
    (hbehind : (s.thread t).behind = none) {on : PageId → Thread κ ρ} {done : Thread κ ρ}
    (hon : ∀ q, (on q).behind = none ∧ ∀ x, ¬ (on q).owns x)
    (hdone : done.behind = none ∧ ∀ x, ¬ done.owns x)
    (honok : ∀ q, sh.linked q → sh.low q ≤ id → (on q).Ok (s.goto t (on q)) sh t)
    (hdoneok : done.Ok (s.goto t done) sh t) :
    State.Inv (match (s.store p).hop id with
      | some q => s.goto t (on q)
      | none => s.goto t done) sh := by
  rcases (h.leads hp).hop hlow with ⟨q, hhop, hq, hqlow, -⟩ | ⟨hhop, -⟩
  · rw [hhop]
    exact h.move (Locks.refl t _) hbehind (hon q).1 (hon q).2 (honok q hq hqlow)
  · rw [hhop]
    exact h.move (Locks.refl t _) hbehind hdone.1 hdone.2 hdoneok

/-- A thread that locked its leaf looks whether the key is still there. -/
theorem Inv.advance_holding (h : s.Inv sh) (hth : s.thread t = .holding id p) (check : Check)
    (mid : Nat) (decide : Option ρ → Option ρ) : (s.advance t check mid decide).Inv sh := by
  have hok := h.ok t
  rw [hth] at hok
  obtain ⟨hid, hlock, hp, hlow⟩ := hok
  have hbehind : (s.thread t).behind = none := by rw [hth]; rfl
  have hslow : ((s.release p).goto t (.slow id)).Inv sh :=
    h.move (Locks.release hlock) hbehind rfl (fun _ hx => hx) hid
  have hagain : ((s.release p).goto t (.routing id s.root)).Inv sh := by
    refine h.move (Locks.release hlock) hbehind rfl (fun _ hx => hx) ⟨hid, h.tree.rooted.1, ?_⟩
    rw [h.tree.rooted.2.1]
    exact bot_le
  unfold State.advance
  rw [hth]
  dsimp only
  cases hcontent : (s.store p).content with
  | inner children =>
    cases check with
    | full => exact hslow
    | room => exact hagain
    | again => exact hagain
  | leaf rows =>
    have hleads := h.leads hp
    cases hbeyond : (s.store p).beyond id with
    | some q =>
      obtain ⟨hq, -, -, hle⟩ := hleads.beyond_some hbeyond
      exact h.move (Locks.release hlock) hbehind rfl (fun _ hx => hx) ⟨hid, hq, hle⟩
    | none =>
      cases check with
      | full => exact hslow
      | again => exact hagain
      | room =>
        have hcovers := hleads.beyond_none hlow hbeyond
        have htop : id < sh.top p := by
          unfold Shape.top
          cases hhigh : sh.high p with
          | none => exact hid
          | some k => exact hcovers.2 k hhigh
        exact h.writeLeaf ⟨hlock, hp, hlow, htop⟩ hcontent hbehind decide

omit [LinearOrder κ] [BoundedOrder κ] in
theorem cut_of_eq {page : Page κ ρ} {mid : Nat} {sep : κ} (h : page.cut mid = some sep) :
    Cut page mid sep := by
  unfold Page.cut at h
  split at h
  · next hmid => exact ⟨hmid.1, hmid.2, h⟩
  · cases h

/-- `split_root_page`, up to its first publication. -/
theorem Inv.advance_rooted (h : s.Inv sh) (hth : s.thread t = .rooted id) (check : Check)
    (mid : Nat) (decide : Option ρ → Option ρ) : (s.advance t check mid decide).Inv sh := by
  have hok := h.ok t
  rw [hth] at hok
  obtain ⟨hid, hlock⟩ := hok
  have hbehind : (s.thread t).behind = none := by rw [hth]; rfl
  have hon : ((s.release s.root).goto t (.reentering id)).Inv sh :=
    h.move (Locks.release hlock) hbehind rfl (fun _ hx => hx) hid
  unfold State.advance
  rw [hth]
  dsimp only
  cases check with
  | room => exact hon
  | again => exact hon
  | full =>
    cases hcut : (s.store s.root).cut mid with
    | none => exact h.move (Locks.release hlock) hbehind rfl (fun _ hx => hx) trivial
    | some sep =>
      have hroot : s.root ≠ s.alloc := Nat.ne_of_lt (h.fresh _ h.tree.rooted.1)
      refine h.prepare (Nat.le_add_right _ 2) (Or.inr (le_refl _)) hbehind rfl ?_ ?_
      · rintro x (rfl | rfl)
        · exact ⟨Nat.lt_add_of_pos_right Nat.two_pos, Or.inr (le_refl _)⟩
        · exact ⟨Nat.lt_succ_self _, Or.inr (Nat.le_succ _)⟩
      · refine ⟨hid, hlock, Nat.ne_of_lt (Nat.lt_succ_self _), sep, ?_, ?_⟩
        · show Cut (Function.update s.store s.alloc _ s.root) mid sep
          rw [Function.update_of_ne hroot]
          exact cut_of_eq hcut
        · show Function.update s.store s.alloc _ s.alloc =
            (Function.update s.store s.alloc _ s.root).kept mid sep (s.alloc + 1)
          rw [Function.update_self, Function.update_of_ne hroot]

/-- And its second. -/
theorem Inv.advance_growing (h : s.Inv sh) {mid : Nat} {left right : PageId}
    (hth : s.thread t = .growing id mid left right) :
    ((s.publish right ((s.store s.root).moved mid)).goto t (.grown id mid left right)).Inv
      sh := by
  have hok := h.ok t
  rw [hth] at hok
  obtain ⟨hid, hlock, hne, sep, hcut, hleft⟩ := hok
  have howns : ∀ x, (s.thread t).owns x ↔ x = left ∨ x = right := by
    rw [hth]
    exact fun x => Iff.rfl
  have hright := h.owned t right ((howns right).mpr (Or.inr rfl))
  have hroot : s.root ≠ right := fun heq => hright.2 (heq ▸ h.tree.rooted.1)
  refine h.prepare (le_refl s.alloc) (Or.inl ((howns right).mpr (Or.inr rfl))) (by rw [hth]; rfl)
    rfl ?_ ⟨hid, hlock, hne, ?_, sep, ?_, ?_⟩
  · intro x hx
    exact ⟨(h.owned t x ((howns x).mpr hx)).1, Or.inl ((howns x).mpr hx)⟩
  · show Function.update s.store right _ right = (Function.update s.store right _ s.root).moved mid
    rw [Function.update_self, Function.update_of_ne hroot]
  · show Cut (Function.update s.store right _ s.root) mid sep
    rw [Function.update_of_ne hroot]
    exact hcut
  · show Function.update s.store right _ left =
      (Function.update s.store right _ s.root).kept mid sep right
    rw [Function.update_of_ne hne, Function.update_of_ne hroot]
    exact hleft

/-- `descend_for_write` at a page that it holds. -/
theorem Inv.advance_descending (h : s.Inv sh) (hth : s.thread t = .descending id p)
    (check : Check) (mid : Nat) (decide : Option ρ → Option ρ) :
    (s.advance t check mid decide).Inv sh := by
  have hholds := h.ok t
  rw [hth] at hholds
  have hholds : Holds s sh t id p := hholds
  have hid : id < ⊤ := lt_of_lt_of_le hholds.top le_top
  have hbehind : (s.thread t).behind = none := by rw [hth]; rfl
  have hslow : ((s.release p).goto t (.slow id)).Inv sh :=
    h.move (Locks.release hholds.lock) hbehind rfl (fun _ hx => hx) hid
  unfold State.advance
  rw [hth]
  dsimp only
  cases hcontent : (s.store p).content with
  | leaf rows =>
    cases check with
    | room => exact h.writeLeaf hholds hcontent hbehind decide
    | again =>
      refine h.move (Locks.release hholds.lock) hbehind rfl (fun _ hx => hx)
        ⟨hid, h.tree.rooted.1, ?_⟩
      rw [h.tree.rooted.2.1]
      exact bot_le
    | full =>
      dsimp only
      split
      · next heq =>
          exact h.move (Locks.refl t _) hbehind rfl (fun _ hx => hx) ⟨hid, heq ▸ hholds.lock⟩
      · exact hslow
  | inner children =>
    have hnone : State.Inv ((s.release p).goto t .idle) sh :=
      h.move (Locks.release hholds.lock) hbehind rfl (fun _ hx => hx) trivial
    have hsome : ∀ e, successorOrLast children id = some e →
        State.Inv (s.goto t (.entering id p e.2)) sh := fun e hfound =>
      h.move (Locks.refl t _) hbehind rfl (fun _ hx => hx)
        ⟨⟨hholds.lock, hholds.linked, hholds.low, hholds.top⟩, children, e.1, hcontent, hfound⟩
    cases check with
    | full => exact hslow
    | room =>
      dsimp only
      cases hfound : successorOrLast children id with
      | none => exact hnone
      | some e => exact hsome e hfound
    | again =>
      dsimp only
      cases hfound : successorOrLast children id with
      | none => exact hnone
      | some e => exact hsome e hfound

/-- `split_if_needed`, up to its first publication. -/
theorem Inv.advance_checking (h : s.Inv sh) {c : PageId} (hth : s.thread t = .checking id p c)
    (check : Check) (mid : Nat) (decide : Option ρ → Option ρ) :
    (s.advance t check mid decide).Inv sh := by
  have hok := h.ok t
  rw [hth] at hok
  obtain ⟨hholds, hrouted, hlockc, hc⟩ := hok
  have hbehind : (s.thread t).behind = none := by rw [hth]; rfl
  obtain ⟨hcp, -, hclow, children, k, -, -, hctop, hk⟩ := h.routed hholds hbehind hrouted
  have hreleased : Function.update s.lock p none c = some t :=
    (Function.update_of_ne hcp _ _).trans hlockc
  have hon : ((s.release p).goto t (.descending id c)).Inv sh := by
    refine h.move (Locks.release hholds.lock) hbehind rfl (fun _ hx => hx)
      ⟨hreleased, hc, hclow, ?_⟩
    rw [hctop]
    rcases hk with hlt | heq
    · exact hlt
    · rw [heq]
      exact hholds.top
  unfold State.advance
  rw [hth]
  dsimp only
  cases check with
  | room => exact hon
  | again => exact hon
  | full =>
    cases hcut : (s.store c).cut mid with
    | none =>
      have hp : Function.update s.lock c none p = some t :=
        (Function.update_of_ne (Ne.symm hcp) _ _).trans hholds.lock
      exact h.move ((Locks.release hlockc).trans (Locks.release hp)) hbehind rfl
        (fun _ hx => hx) trivial
    | some sep =>
      have hpq : p ≠ s.alloc := Nat.ne_of_lt (h.fresh _ hholds.linked)
      have hcq : c ≠ s.alloc := Nat.ne_of_lt (h.fresh _ hc)
      refine h.prepare (Nat.le_add_right _ 1) (Or.inr (le_refl _)) hbehind rfl ?_ ?_
      · rintro x rfl
        exact ⟨Nat.lt_succ_self _, Or.inr (le_refl _)⟩
      · refine ⟨⟨hholds.lock, hholds.linked, hholds.low, hholds.top⟩, ?_, hlockc, hc, ?_, sep, ?_⟩
        · show Routed (Function.update s.store s.alloc _ p) id c
          rw [Function.update_of_ne hpq]
          exact hrouted
        · show Function.update s.store s.alloc _ s.alloc =
            (Function.update s.store s.alloc _ c).moved mid
          rw [Function.update_self, Function.update_of_ne hcq]
        · show Cut (Function.update s.store s.alloc _ c) mid sep
          rw [Function.update_of_ne hcq]
          exact cut_of_eq hcut

/-- The parent stays as it is while the thread waits for its target. -/
theorem Inv.advance_adopting (h : s.Inv sh) {sep : κ} {c q : PageId}
    (hth : s.thread t = .adopting id p c q sep) (target : PageId)
    (htarget : target = if id < sep then c else q) :
    (s.lockThen t target (.moving id p c q sep target)).Inv sh := by
  have hok := h.ok t
  rw [hth] at hok
  obtain ⟨hholds, hlags, hc⟩ := hok
  unfold State.lockThen
  split
  · next hfree =>
      have hself := thread_goto_self (s.acquire t target) t (.moving id p c q sep target)
      have hother : ∀ u, u ≠ t → ((s.acquire t target).goto t
          (.moving id p c q sep target)).thread u = s.thread u :=
        fun u hu => thread_goto_of_ne _ _ hu
      have hpt : p ≠ target := by
        rintro rfl
        rw [hholds.lock] at hfree
        cases hfree
      have hlockp : ((s.acquire t target).goto t (.moving id p c q sep target)).lock p =
          some t := (Function.update_of_ne hpt _ _).trans hholds.lock
      refine h.quiet (t := t) rfl rfl rfl hother (Locks.acquire hfree) ?_ ?_ ?_
      · funext x
        by_cases hx : x = p
        · rw [hx, settled_of_lock hlockp, settled_of_lock hholds.lock, hself, hth]
          rfl
        · refine settled_congr (t := t) hother (Locks.acquire hfree) rfl ?_ ?_
          · rw [hth]
            exact fun heq => hx (Option.some.inj heq).symm
          · rw [hself]
            exact fun heq => hx (Option.some.inj heq).symm
      · rw [hself]
        exact fun _ hx => hx
      · rw [hself]
        exact ⟨⟨hlockp, hholds.linked, hholds.low, hholds.top⟩, hlags, hc,
          Function.update_self _ _ _, htarget⟩
  · exact h

/-- One step of a thread. -/
theorem Inv.advance (h : s.Inv sh) (t : Nat) (check : Check) (mid : Nat)
    (decide : Option ρ → Option ρ) : ∃ sh', (s.advance t check mid decide).Inv sh' ∧
    sh.Extends sh' := by
  have hok := h.ok t
  have hkeep : ∀ {s' : State κ ρ}, s'.Inv sh → ∃ sh', s'.Inv sh' ∧ sh.Extends sh' :=
    fun hs' => ⟨sh, hs', Shape.Extends.refl sh⟩
  cases hth : s.thread t with
  | idle =>
    unfold State.advance
    rw [hth]
    exact hkeep h
  | found id leaf =>
    unfold State.advance
    rw [hth]
    exact hkeep h
  | looking id p =>
    rw [hth] at hok
    unfold State.advance
    rw [hth]
    exact hkeep (h.advance_reading hok.1 hok.2 (by rw [hth]; rfl)
      (fun q => ⟨rfl, fun _ hx => hx⟩) ⟨rfl, fun _ hx => hx⟩ (fun q hq hlow => ⟨hq, hlow⟩) trivial)
  | routing id p =>
    rw [hth] at hok
    unfold State.advance
    rw [hth]
    exact hkeep (h.advance_reading hok.2.1 hok.2.2 (by rw [hth]; rfl)
      (fun q => ⟨rfl, fun _ hx => hx⟩) ⟨rfl, fun _ hx => hx⟩
      (fun q hq hlow => ⟨hok.1, hq, hlow⟩) hok)
  | locking id p =>
    rw [hth] at hok
    unfold State.advance
    rw [hth]
    exact hkeep (h.lockThen (by rw [hth]; rfl) rfl (fun _ hx => hx)
      fun _ => ⟨hok.1, Function.update_self _ _ _, hok.2⟩)
  | holding id p => exact hkeep (h.advance_holding hth check mid decide)
  | slow id =>
    rw [hth] at hok
    unfold State.advance
    rw [hth]
    exact hkeep (h.lockThen (by rw [hth]; rfl) rfl (fun _ hx => hx)
      fun _ => ⟨hok, Function.update_self _ _ _⟩)
  | rooted id => exact hkeep (h.advance_rooted hth check mid decide)
  | growing id m left right =>
    unfold State.advance
    rw [hth]
    exact hkeep (h.advance_growing hth)
  | grown id m left right =>
    rw [hth] at hok
    obtain ⟨-, -, -, -, sep, hcut, -⟩ := hok
    have howned := h.owned t
    rw [hth] at howned
    unfold State.advance
    rw [hth]
    dsimp only
    rw [hcut.separator]
    exact ⟨_, h.publishRoot hth hcut.separator,
      h.tree.extends_grow (howned left (Or.inl rfl)).2 (howned right (Or.inr rfl)).2⟩
  | reentering id =>
    rw [hth] at hok
    unfold State.advance
    rw [hth]
    refine hkeep (h.lockThen (by rw [hth]; rfl) rfl (fun _ hx => hx) fun _ => ?_)
    refine ⟨Function.update_self _ _ _, h.tree.rooted.1, ?_, ?_⟩
    · show sh.low s.root ≤ id
      rw [h.tree.rooted.2.1]
      exact bot_le
    · show id < sh.top s.root
      unfold Shape.top
      rw [h.tree.rooted.2.2]
      exact hok
  | descending id p => exact hkeep (h.advance_descending hth check mid decide)
  | entering id p c =>
    rw [hth] at hok
    obtain ⟨hholds, hrouted⟩ := hok
    have hbehind : (s.thread t).behind = none := by rw [hth]; rfl
    obtain ⟨hcp, hc, -⟩ := h.routed hholds hbehind hrouted
    unfold State.advance
    rw [hth]
    refine hkeep (h.lockThen hbehind rfl (fun _ hx => hx) fun _ => ?_)
    exact ⟨⟨(Function.update_of_ne (Ne.symm hcp) _ _).trans hholds.lock, hholds.linked,
      hholds.low, hholds.top⟩, hrouted, Function.update_self _ _ _, hc⟩
  | checking id p c => exact hkeep (h.advance_checking hth check mid decide)
  | splitting id p c q m =>
    rw [hth] at hok
    obtain ⟨-, -, -, -, -, sep, hcut⟩ := hok
    have howned := h.owned t
    rw [hth] at howned
    unfold State.advance
    rw [hth]
    dsimp only
    rw [hcut.separator]
    exact ⟨_, h.publishSplit hth hcut.separator, Shape.Extends.split (howned q rfl).2⟩
  | adopting id p c q sep =>
    unfold State.advance
    rw [hth]
    exact hkeep (h.advance_adopting hth _ rfl)
  | moving id p c q sep target =>
    rw [hth] at hok
    obtain ⟨-, ⟨pre, k, post, hcontent, hfound, -⟩, -⟩ := hok
    unfold State.advance
    rw [hth]
    dsimp only
    rw [hcontent]
    dsimp only
    rw [hfound]
    exact hkeep (h.publishParent hth hcontent hfound)

/-- Every step keeps the invariant. -/
theorem Inv.step (h : s.Inv sh) (a : Action κ ρ) : ∃ sh', (s.step a).Inv sh' ∧ sh.Extends sh' := by
  have hroot : sh.linked s.root ∧ ∀ id, sh.low s.root ≤ id := by
    refine ⟨h.tree.rooted.1, fun id => ?_⟩
    rw [h.tree.rooted.2.1]
    exact bot_le
  cases a with
  | lookup t id =>
    refine ⟨sh, ?_, Shape.Extends.refl sh⟩
    unfold State.step
    dsimp only
    split
    · next hth =>
        exact h.move (Locks.refl t _) (by rw [hth]; rfl) rfl (fun _ hx => hx)
          ⟨hroot.1, hroot.2 id⟩
    · exact h
  | write t id =>
    refine ⟨sh, ?_, Shape.Extends.refl sh⟩
    unfold State.step
    dsimp only
    split
    · next hth =>
        split
        · next hid =>
            exact h.move (Locks.refl t _) (by rw [hth]; rfl) rfl (fun _ hx => hx)
              ⟨hid, hroot.1, hroot.2 id⟩
        · exact h
    · exact h
  | finish t =>
    refine ⟨sh, ?_, Shape.Extends.refl sh⟩
    unfold State.step
    dsimp only
    split
    · next hth =>
        exact h.move (Locks.refl t _) (by rw [hth]; rfl) rfl (fun _ hx => hx) trivial
    · exact h
  | advance t check mid decide => exact h.advance t check mid decide

end Steps

end SquealDb.Tree.State
