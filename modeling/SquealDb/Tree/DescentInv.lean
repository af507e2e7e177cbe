import SquealDb.Tree.Descent

/-!
# What the descents keep

Between the publications of a split the store lags behind the tree: a parent that has not
yet adopted the new sibling leads to it through its left neighbour.  The tree that the
store will be once those parents are published is a B-link tree at every moment, and what
a thread knows of the pages that it holds is not disturbed by the others.
-/

namespace SquealDb.Tree

variable {κ ρ : Type*} [LinearOrder κ] [BoundedOrder κ]

/-! ## Rows -/

section Rows

variable {α : Type*} {es : List (κ × α)} {e : κ × α} {k id : κ}

omit [BoundedOrder κ] in
theorem mem_addEntry {x : κ × α} : x ∈ addEntry e es ↔ x = e ∨ x ∈ es := by
  induction es with
  | nil => simp [addEntry]
  | cons y es ih =>
    unfold addEntry
    split
    · exact List.mem_cons
    · rw [List.mem_cons, ih, List.mem_cons]
      tauto

omit [BoundedOrder κ] in
theorem pairwise_addEntry (h : (es.map Prod.fst).Pairwise (· < ·)) (he : e.1 ∉ es.map Prod.fst) :
    ((addEntry e es).map Prod.fst).Pairwise (· < ·) := by
  induction es with
  | nil => exact List.pairwise_singleton _ _
  | cons y es ih =>
    rw [List.map_cons, List.pairwise_cons] at h
    rw [List.map_cons, List.mem_cons, not_or] at he
    unfold addEntry
    split
    · next hlt =>
        rw [List.map_cons, List.pairwise_cons, List.map_cons, List.pairwise_cons]
        refine ⟨fun k hk => ?_, h⟩
        rcases List.mem_cons.mp hk with rfl | hk
        · exact hlt
        · exact lt_trans hlt (h.1 k hk)
    · next hlt =>
        rw [List.map_cons, List.pairwise_cons]
        refine ⟨fun k hk => ?_, ih h.2 he.2⟩
        obtain ⟨x, hx, rfl⟩ := List.mem_map.mp hk
        rcases mem_addEntry.mp hx with rfl | hx
        · exact lt_of_le_of_ne (not_lt.mp hlt) (Ne.symm he.1)
        · exact h.1 x.1 (List.mem_map_of_mem hx)

omit [BoundedOrder κ] in
theorem keys_replaceEntry (a : α) : (replaceEntry k a es).map Prod.fst = es.map Prod.fst := by
  unfold replaceEntry
  rw [List.map_map]
  apply List.map_congr_left
  intro x _
  show (if x.1 = k then (k, a) else x).1 = x.1
  split
  · next hx => exact hx.symm
  · rfl

variable {rows : List (κ × ρ)}

omit [BoundedOrder κ] in
theorem mem_keys_putRow {row : Option ρ} (h : k ∈ (putRow rows id row).map Prod.fst) :
    k = id ∨ k ∈ rows.map Prod.fst := by
  unfold putRow at h
  split at h
  · split at h
    · rw [keys_replaceEntry] at h
      exact Or.inr h
    · obtain ⟨x, hx, rfl⟩ := List.mem_map.mp h
      rcases mem_addEntry.mp hx with rfl | hx
      · exact Or.inl rfl
      · exact Or.inr (List.mem_map_of_mem hx)
  · obtain ⟨x, hx, rfl⟩ := List.mem_map.mp h
    exact Or.inr (List.mem_map_of_mem (List.mem_of_mem_filter hx))

omit [BoundedOrder κ] in
theorem pairwise_putRow (h : (rows.map Prod.fst).Pairwise (· < ·)) (id : κ) (row : Option ρ) :
    ((putRow rows id row).map Prod.fst).Pairwise (· < ·) := by
  unfold putRow
  split
  · split
    · rw [keys_replaceEntry]
      exact h
    · next hid => exact pairwise_addEntry h hid
  · exact h.sublist (List.filter_sublist.map _)

end Rows

/-! ## The tree behind the store -/

omit [BoundedOrder κ] in
/-- The parent of a page that was split at `sep`, once it has adopted the sibling. -/
def Page.adopting (page : Page κ ρ) (id sep : κ) (c q : PageId) : Page κ ρ :=
  match page.content with
  | .inner children =>
    match successorOrLast children id with
    | some (k, _) => page.withChildren (adopt children k sep c q)
    | none => page
  | .leaf _ => page

namespace Thread

/-- The parent that a thread has still to publish. -/
def behind : Thread κ ρ → Option PageId
  | .adopting _ parent _ _ _ => some parent
  | .moving _ parent _ _ _ _ => some parent
  | _ => none

/-- A page, with what the thread that holds it has still to publish. -/
def settles : Thread κ ρ → PageId → Page κ ρ → Page κ ρ
  | .adopting id parent c q sep, p, page => if p = parent then page.adopting id sep c q else page
  | .moving id parent c q sep _, p, page => if p = parent then page.adopting id sep c q else page
  | _, _, page => page

/-- The pages that a thread has published and not yet linked into the tree. -/
def owns : Thread κ ρ → PageId → Prop
  | .growing _ _ left right, p => p = left ∨ p = right
  | .grown _ _ left right, p => p = left ∨ p = right
  | .splitting _ _ _ sibling _, p => p = sibling
  | _, _ => False

end Thread

/-- The tree that the store will be. -/
def State.settled (s : State κ ρ) (p : PageId) : Page κ ρ :=
  match s.lock p with
  | some t => (s.thread t).settles p (s.store p)
  | none => s.store p

/-! ## The invariant -/

/-- The page's entries route the key to `c`. -/
def Routed (page : Page κ ρ) (id : κ) (c : PageId) : Prop :=
  ∃ children k, page.content = .inner children ∧ successorOrLast children id = some (k, c)

/-- The page routes the key to `c`, which was split, and has not adopted the sibling. -/
def Lags (page : Page κ ρ) (hi id sep : κ) (c q : PageId) : Prop :=
  ∃ pre k post, page.content = .inner (pre ++ (k, c) :: post) ∧
    successorOrLast (pre ++ (k, c) :: post) id = some (k, c) ∧ (id < k ∨ k = hi) ∧
    adopt (pre ++ (k, c) :: post) k sep c q = pre ++ (sep, c) :: (k, q) :: post

/-- The thread holds a page whose range has the key. -/
structure Holds (s : State κ ρ) (sh : Shape κ) (t : Nat) (id : κ) (p : PageId) : Prop where
  lock : s.lock p = some t
  linked : sh.linked p
  low : sh.low p ≤ id
  top : id < sh.top p

/-- What a thread knows where it is. -/
def Thread.Ok (s : State κ ρ) (sh : Shape κ) (t : Nat) : Thread κ ρ → Prop
  | .idle => True
  | .found _ _ => True
  | .looking id p => sh.linked p ∧ sh.low p ≤ id
  | .routing id p => id < ⊤ ∧ sh.linked p ∧ sh.low p ≤ id
  | .locking id p => id < ⊤ ∧ sh.linked p ∧ sh.low p ≤ id
  | .holding id p => id < ⊤ ∧ s.lock p = some t ∧ sh.linked p ∧ sh.low p ≤ id
  | .slow id => id < ⊤
  | .rooted id => id < ⊤ ∧ s.lock s.root = some t
  | .growing id mid left right => id < ⊤ ∧ s.lock s.root = some t ∧ left ≠ right ∧
      ∃ sep, Cut (s.store s.root) mid sep ∧ s.store left = (s.store s.root).kept mid sep right
  | .grown id mid left right => id < ⊤ ∧ s.lock s.root = some t ∧ left ≠ right ∧
      s.store right = (s.store s.root).moved mid ∧
      ∃ sep, Cut (s.store s.root) mid sep ∧ s.store left = (s.store s.root).kept mid sep right
  | .reentering id => id < ⊤
  | .descending id p => Holds s sh t id p
  | .entering id p c => Holds s sh t id p ∧ Routed (s.store p) id c
  | .checking id p c => Holds s sh t id p ∧ Routed (s.store p) id c ∧
      s.lock c = some t ∧ sh.linked c
  | .splitting id p c q mid => Holds s sh t id p ∧ Routed (s.store p) id c ∧
      s.lock c = some t ∧ sh.linked c ∧ s.store q = (s.store c).moved mid ∧
      ∃ sep, Cut (s.store c) mid sep
  | .adopting id p c q sep => Holds s sh t id p ∧ Lags (s.store p) (sh.top p) id sep c q ∧
      sh.linked c ∧ sh.low c ≤ id
  | .moving id p c q sep target => Holds s sh t id p ∧
      Lags (s.store p) (sh.top p) id sep c q ∧ (sh.linked c ∧ sh.low c ≤ id) ∧
      s.lock target = some t ∧ target = if id < sep then c else q

namespace State

/-- What holds between the steps, of the store and of what the threads know. -/
structure Inv (s : State κ ρ) (sh : Shape κ) : Prop where
  tree : Blink s.settled s.root sh
  fresh : ∀ p, sh.linked p → p < s.alloc
  owned : ∀ t p, (s.thread t).owns p → p < s.alloc ∧ ¬ sh.linked p
  apart : ∀ t u p, (s.thread t).owns p → (s.thread u).owns p → t = u
  ok : ∀ t, (s.thread t).Ok s sh t

/-- What a step of another thread leaves as thread `u` relies on it. -/
structure Spares (u : Nat) (s : State κ ρ) (sh : Shape κ) (s' : State κ ρ) (sh' : Shape κ) :
    Prop where
  root : s'.root = s.root
  thread : s'.thread u = s.thread u
  linked : ∀ p, sh.linked p → sh'.linked p ∧ sh'.low p = sh.low p
  lock : ∀ p, s.lock p = some u → s'.lock p = some u
  store : ∀ p, s.lock p = some u → sh.linked p → s'.store p = s.store p
  top : ∀ p, s.lock p = some u → sh.linked p → sh'.top p = sh.top p
  own : ∀ p, (s.thread u).owns p → s'.store p = s.store p ∧ ¬ sh'.linked p

end State

section Others

variable {u : Nat} {s s' : State κ ρ} {sh sh' : Shape κ}

theorem Holds.spared {id : κ} {p : PageId} (hspares : State.Spares u s sh s' sh')
    (h : Holds s sh u id p) : Holds s' sh' u id p where
  lock := hspares.lock p h.lock
  linked := (hspares.linked p h.linked).1
  low := by
    rw [(hspares.linked p h.linked).2]
    exact h.low
  top := by
    rw [hspares.top p h.lock h.linked]
    exact h.top

/-- What a thread knows stays true while others go on. -/
theorem Thread.Ok.spared (hspares : State.Spares u s sh s' sh') (hrooted : sh.linked s.root)
    (h : (s.thread u).Ok s sh u) : (s'.thread u).Ok s' sh' u := by
  have hbegun : ∀ {id : κ} {p : PageId}, sh.linked p ∧ sh.low p ≤ id →
      sh'.linked p ∧ sh'.low p ≤ id := by
    rintro id p ⟨hp, hlow⟩
    rw [(hspares.linked p hp).2]
    exact ⟨(hspares.linked p hp).1, hlow⟩
  have hroot : s.lock s.root = some u → s'.lock s'.root = some u ∧
      s'.store s'.root = s.store s.root := by
    intro hlock
    rw [hspares.root]
    exact ⟨hspares.lock _ hlock, hspares.store _ hlock hrooted⟩
  have hown := hspares.own
  rw [hspares.thread]
  cases hth : s.thread u with
  | idle => trivial
  | found id leaf => trivial
  | looking id p =>
    rw [hth] at h
    exact hbegun h
  | routing id p =>
    rw [hth] at h
    exact ⟨h.1, hbegun h.2⟩
  | locking id p =>
    rw [hth] at h
    exact ⟨h.1, hbegun h.2⟩
  | holding id p =>
    rw [hth] at h
    exact ⟨h.1, hspares.lock p h.2.1, hbegun h.2.2⟩
  | slow id =>
    rw [hth] at h
    exact h
  | rooted id =>
    rw [hth] at h
    exact ⟨h.1, (hroot h.2).1⟩
  | growing id mid left right =>
    rw [hth] at h hown
    obtain ⟨hid, hlock, hne, sep, hcut, hleft⟩ := h
    refine ⟨hid, (hroot hlock).1, hne, sep, ?_⟩
    rw [(hroot hlock).2, (hown left (Or.inl rfl)).1]
    exact ⟨hcut, hleft⟩
  | grown id mid left right =>
    rw [hth] at h hown
    obtain ⟨hid, hlock, hne, hright, sep, hcut, hleft⟩ := h
    refine ⟨hid, (hroot hlock).1, hne, ?_, sep, ?_⟩
    · rw [(hroot hlock).2, (hown right (Or.inr rfl)).1]
      exact hright
    · rw [(hroot hlock).2, (hown left (Or.inl rfl)).1]
      exact ⟨hcut, hleft⟩
  | reentering id =>
    rw [hth] at h
    exact h
  | descending id p =>
    rw [hth] at h
    exact Holds.spared hspares h
  | entering id p c =>
    rw [hth] at h
    obtain ⟨hholds, hrouted⟩ := h
    refine ⟨hholds.spared hspares, ?_⟩
    rw [hspares.store p hholds.lock hholds.linked]
    exact hrouted
  | checking id p c =>
    rw [hth] at h
    obtain ⟨hholds, hrouted, hlock, hlinked⟩ := h
    refine ⟨hholds.spared hspares, ?_, hspares.lock c hlock, (hspares.linked c hlinked).1⟩
    rw [hspares.store p hholds.lock hholds.linked]
    exact hrouted
  | splitting id p c q mid =>
    rw [hth] at h hown
    obtain ⟨hholds, hrouted, hlock, hlinked, hmoved, hcut⟩ := h
    refine ⟨hholds.spared hspares, ?_, hspares.lock c hlock, (hspares.linked c hlinked).1, ?_⟩
    · rw [hspares.store p hholds.lock hholds.linked]
      exact hrouted
    · rw [hspares.store c hlock hlinked, (hown q rfl).1]
      exact ⟨hmoved, hcut⟩
  | adopting id p c q sep =>
    rw [hth] at h
    obtain ⟨hholds, hlags, hc⟩ := h
    refine ⟨hholds.spared hspares, ?_, hbegun hc⟩
    rw [hspares.store p hholds.lock hholds.linked, hspares.top p hholds.lock hholds.linked]
    exact hlags
  | moving id p c q sep target =>
    rw [hth] at h
    obtain ⟨hholds, hlags, hc, hlock, htarget⟩ := h
    refine ⟨hholds.spared hspares, ?_, hbegun hc, hspares.lock target hlock, htarget⟩
    rw [hspares.store p hholds.lock hholds.linked, hspares.top p hholds.lock hholds.linked]
    exact hlags

end Others

/-! ## Steps of one thread -/

omit [BoundedOrder κ] in
theorem Thread.settles_of_ne {th : Thread κ ρ} {p : PageId} {page : Page κ ρ}
    (h : th.behind ≠ some p) : th.settles p page = page := by
  have hne : ∀ {parent : PageId}, some parent ≠ some p → p ≠ parent := by
    intro parent hne heq
    exact hne (congrArg some heq.symm)
  cases th with
  | adopting id parent c q sep => exact if_neg (hne h)
  | moving id parent c q sep target => exact if_neg (hne h)
  | _ => rfl

/-- The locks of the other threads are what they were. -/
def Locks (t : Nat) (lock lock' : PageId → Option Nat) : Prop :=
  ∀ p u, u ≠ t → (lock' p = some u ↔ lock p = some u)

namespace Locks

variable {t : Nat} {lock lock' lock'' : PageId → Option Nat} {p : PageId}

theorem refl (t : Nat) (lock : PageId → Option Nat) : Locks t lock lock := fun _ _ _ => Iff.rfl

theorem trans (h : Locks t lock lock') (h' : Locks t lock' lock'') : Locks t lock lock'' :=
  fun p u hu => (h' p u hu).trans (h p u hu)

/-- A lock that is free or held by the thread becomes free or held by the thread. -/
theorem update (hold : lock p = none ∨ lock p = some t) {new : Option Nat}
    (hnew : new = none ∨ new = some t) : Locks t lock (Function.update lock p new) := by
  have hother : ∀ {x : Option Nat} {u : Nat}, u ≠ t → (x = none ∨ x = some t) → x ≠ some u := by
    rintro x u hu (rfl | rfl) heq
    · cases heq
    · cases heq
      exact hu rfl
  intro x u hu
  by_cases hx : x = p
  · subst hx
    rw [Function.update_self]
    exact iff_of_false (hother hu hnew) (hother hu hold)
  · rw [Function.update_of_ne hx]

theorem release (h : lock p = some t) : Locks t lock (Function.update lock p none) :=
  update (Or.inr h) (Or.inl rfl)

theorem acquire (h : lock p = none) : Locks t lock (Function.update lock p (some t)) :=
  update (Or.inl h) (Or.inr rfl)

end Locks

namespace State

variable {t : Nat} {s s' : State κ ρ} {sh sh' : Shape κ} {p : PageId}

omit [BoundedOrder κ] in
theorem settled_eq_store (h : ∀ u, s.lock p = some u → (s.thread u).behind ≠ some p) :
    s.settled p = s.store p := by
  unfold settled
  cases hlock : s.lock p with
  | none => rfl
  | some u => exact Thread.settles_of_ne (h u hlock)

omit [BoundedOrder κ] in
theorem settled_of_lock (h : s.lock p = some t) :
    s.settled p = (s.thread t).settles p (s.store p) := by
  unfold settled
  rw [h]

omit [BoundedOrder κ] in
/-- A page is settled as it is when the thread that holds it has published what it had to. -/
theorem settled_of_held (h : s.lock p = some t) (hth : (s.thread t).behind ≠ some p) :
    s.settled p = s.store p := by
  apply settled_eq_store
  intro u hu
  rw [h] at hu
  cases hu
  exact hth

omit [BoundedOrder κ] in
/-- A step of a thread that is not behind at the page leaves the page settled as it was. -/
theorem settled_congr (hthread : ∀ u, u ≠ t → s'.thread u = s.thread u)
    (hlock : Locks t s.lock s'.lock) (hstore : s'.store p = s.store p)
    (hth : (s.thread t).behind ≠ some p) (hth' : (s'.thread t).behind ≠ some p) :
    s'.settled p = s.settled p := by
  by_cases hother : ∃ u, u ≠ t ∧ s.lock p = some u
  · obtain ⟨u, hu, hp⟩ := hother
    rw [settled_of_lock hp, settled_of_lock ((hlock p u hu).mpr hp), hthread u hu, hstore]
  · have hfree : ∀ u, s.lock p = some u → u = t := by
      intro u hp
      by_contra hu
      exact hother ⟨u, hu, hp⟩
    have hfree' : ∀ u, s'.lock p = some u → u = t := by
      intro u hp
      by_contra hu
      exact hu (hfree u ((hlock p u hu).mp hp))
    rw [settled_eq_store fun u hu => hfree' u hu ▸ hth',
      settled_eq_store fun u hu => hfree u hu ▸ hth, hstore]

/-- A step keeps the invariant if it keeps the tree, spares the other threads, and leaves
the thread that took it with what it has to know. -/
theorem Inv.of_step (h : s.Inv sh) (htree : Blink s'.settled s'.root sh')
    (halloc : s.alloc ≤ s'.alloc) (hfresh : ∀ p, sh'.linked p → p < s'.alloc)
    (hspares : ∀ u, u ≠ t → Spares u s sh s' sh')
    (hown : ∀ p, (s'.thread t).owns p → p < s'.alloc ∧ ¬ sh'.linked p ∧
      ((s.thread t).owns p ∨ s.alloc ≤ p))
    (hok : (s'.thread t).Ok s' sh' t) : s'.Inv sh' := by
  have hold : ∀ u, u ≠ t → ∀ p, (s'.thread u).owns p → (s.thread u).owns p := by
    intro u hu p hp
    rw [(hspares u hu).thread] at hp
    exact hp
  -- what a thread owns is its own since before, or new
  have hnew : ∀ u p, u ≠ t → (s'.thread t).owns p → ¬ (s'.thread u).owns p := by
    intro u p hu hp hup
    have hup' := hold u hu p hup
    rcases (hown p hp).2.2 with hp | hp
    · exact hu (h.apart u t p hup' hp)
    · exact absurd (h.owned u p hup').1 (not_lt.mpr hp)
  constructor
  · exact htree
  · exact hfresh
  · intro u p hp
    by_cases hu : u = t
    · subst hu
      exact ⟨(hown p hp).1, (hown p hp).2.1⟩
    · have hp' := hold u hu p hp
      exact ⟨lt_of_lt_of_le (h.owned u p hp').1 halloc, ((hspares u hu).own p hp').2⟩
  · intro u v p hu hv
    by_cases hut : u = t
    · by_cases hvt : v = t
      · rw [hut, hvt]
      · subst hut
        exact absurd hv (hnew v p hvt hu)
    · by_cases hvt : v = t
      · subst hvt
        exact absurd hu (hnew u p hut hv)
      · exact h.apart u v p (hold u hut p hu) (hold v hvt p hv)
  · intro u
    by_cases hu : u = t
    · subst hu
      exact hok
    · exact (h.ok u).spared (hspares u hu) h.tree.rooted.1

/-- A step that publishes nothing. -/
theorem Inv.quiet (h : s.Inv sh) (hroot : s'.root = s.root) (halloc : s'.alloc = s.alloc)
    (hstore : s'.store = s.store) (hthread : ∀ u, u ≠ t → s'.thread u = s.thread u)
    (hlock : Locks t s.lock s'.lock) (hsettled : s'.settled = s.settled)
    (hown : ∀ p, ¬ (s'.thread t).owns p) (hok : (s'.thread t).Ok s' sh t) : s'.Inv sh := by
  refine h.of_step ?_ halloc.ge ?_ ?_ (fun p hp => absurd hp (hown p)) hok
  · rw [hsettled, hroot]
    exact h.tree
  · rw [halloc]
    exact h.fresh
  · intro u hu
    constructor
    · exact hroot
    · exact hthread u hu
    · exact fun p hp => ⟨hp, rfl⟩
    · exact fun p hp => (hlock p u hu).mpr hp
    · exact fun p _ _ => congrFun hstore p
    · exact fun p _ _ => rfl
    · exact fun p hp => ⟨congrFun hstore p, (h.owned u p hp).2⟩

omit [LinearOrder κ] [BoundedOrder κ] in
theorem thread_goto_self (s : State κ ρ) (t : Nat) (th : Thread κ ρ) :
    (s.goto t th).thread t = th :=
  Function.update_self _ _ _

omit [LinearOrder κ] [BoundedOrder κ] in
theorem thread_goto_of_ne (s : State κ ρ) {t u : Nat} (th : Thread κ ρ) (hu : u ≠ t) :
    (s.goto t th).thread u = s.thread u :=
  Function.update_of_ne hu _ _

/-- A thread goes on, perhaps with other locks than before. -/
theorem Inv.move (h : s.Inv sh) {lock' : PageId → Option Nat} {th : Thread κ ρ}
    (hlock : Locks t s.lock lock') (hbehind : (s.thread t).behind = none)
    (hbehind' : th.behind = none) (hown : ∀ p, ¬ th.owns p)
    (hok : th.Ok ({ s with lock := lock' }.goto t th) sh t) :
    ({ s with lock := lock' }.goto t th).Inv sh := by
  have hself := thread_goto_self { s with lock := lock' } t th
  refine h.quiet (t := t) rfl rfl rfl (fun u hu => thread_goto_of_ne _ th hu) hlock ?_ ?_ ?_
  · funext p
    refine settled_congr (t := t) (fun u hu => thread_goto_of_ne _ th hu) hlock rfl ?_ ?_
    · rw [hbehind]
      exact nofun
    · rw [hself, hbehind']
      exact nofun
  · rw [hself]
    exact hown
  · rw [hself]
    exact hok

/-- A thread that waits for a lock. -/
theorem Inv.lockThen (h : s.Inv sh) {p : PageId} {th : Thread κ ρ}
    (hbehind : (s.thread t).behind = none) (hbehind' : th.behind = none)
    (hown : ∀ p, ¬ th.owns p) (hok : s.lock p = none → th.Ok ((s.acquire t p).goto t th) sh t) :
    (s.lockThen t p th).Inv sh := by
  unfold State.lockThen
  split
  · next hfree => exact h.move (Locks.acquire hfree) hbehind hbehind' hown (hok hfree)
  · exact h

/-- A thread publishes a page that is not yet linked. -/
theorem Inv.prepare (h : s.Inv sh) {n : PageId} {page : Page κ ρ} {th : Thread κ ρ}
    (halloc : s.alloc ≤ n) (hp : (s.thread t).owns p ∨ s.alloc ≤ p)
    (hbehind : (s.thread t).behind = none) (hbehind' : th.behind = none)
    (hown : ∀ x, th.owns x → x < n ∧ ((s.thread t).owns x ∨ s.alloc ≤ x))
    (hok : th.Ok (({ s with alloc := n }.publish p page).goto t th) sh t) :
    (({ s with alloc := n }.publish p page).goto t th).Inv sh := by
  have hself := thread_goto_self ({ s with alloc := n }.publish p page) t th
  have hunlinked : ∀ x, (s.thread t).owns x ∨ s.alloc ≤ x → ¬ sh.linked x := by
    rintro x (hx | hx)
    · exact (h.owned t x hx).2
    · exact fun hlinked => absurd (h.fresh x hlinked) (not_lt.mpr hx)
  have hstore : ∀ x, x ≠ p → (({ s with alloc := n }.publish p page).goto t th).store x =
    s.store x :=
    fun x hx => Function.update_of_ne hx _ _
  refine h.of_step (t := t) ?_ halloc ?_ ?_ ?_ (by rw [hself]; exact hok)
  · apply h.tree.congr
    intro x hx
    have hxp : x ≠ p := fun heq => hunlinked p hp (heq ▸ hx)
    refine settled_congr (t := t) (fun u hu => thread_goto_of_ne _ th hu) (Locks.refl _ _)
      (hstore x hxp) ?_ ?_
    · rw [hbehind]
      exact nofun
    · rw [hself, hbehind']
      exact nofun
  · exact fun x hx => lt_of_lt_of_le (h.fresh x hx) halloc
  · intro u hu
    constructor
    · rfl
    · exact thread_goto_of_ne _ th hu
    · exact fun x hx => ⟨hx, rfl⟩
    · exact fun x hx => hx
    · exact fun x _ hx => hstore x fun heq => hunlinked p hp (heq ▸ hx)
    · exact fun x _ _ => rfl
    · intro x hx
      refine ⟨hstore x ?_, (h.owned u x hx).2⟩
      rintro rfl
      rcases hp with hp | hp
      · exact hu (h.apart u t x hx hp)
      · exact absurd (h.owned u x hx).1 (not_lt.mpr hp)
  · intro x hx
    rw [hself] at hx
    exact ⟨(hown x hx).1, hunlinked x (hown x hx).2, (hown x hx).2⟩

/-- The pages that a thread holds are settled as they are, but for the one it is behind at. -/
theorem Inv.fits_of_held (h : s.Inv sh) (hlock : s.lock p = some t) (hp : sh.linked p)
    (hbehind : (s.thread t).behind = none) : Fits sh p (s.store p) := by
  rw [← settled_of_held hlock (by rw [hbehind]; exact nofun)]
  exact h.tree.fits p hp

section Held

variable {page : Page κ ρ} {th : Thread κ ρ}

omit [BoundedOrder κ] in
theorem settled_publish_self (s : State κ ρ) (t : Nat) (p : PageId) (page : Page κ ρ)
    (th : Thread κ ρ) : (((s.publish p page).release p).goto t th).settled p = page := by
  have hfree : (((s.publish p page).release p).goto t th).lock p = none :=
    Function.update_self _ _ _
  unfold settled
  rw [hfree]
  exact Function.update_self _ _ _

omit [BoundedOrder κ] in
theorem settled_publish_of_ne (hlock : s.lock p = some t) {x : PageId} (hx : x ≠ p)
    (hbehind : (s.thread t).behind ≠ some x) (hbehind' : th.behind ≠ some x) :
    (((s.publish p page).release p).goto t th).settled x = s.settled x := by
  refine settled_congr (t := t) (fun u hu => thread_goto_of_ne _ _ hu) (Locks.release hlock)
    (Function.update_of_ne hx _ _) hbehind ?_
  rw [thread_goto_self]
  exact hbehind'

/-- A thread publishes a page that it holds, and lets go of it. -/
theorem Inv.publishHeld (h : s.Inv sh) (hlock : s.lock p = some t) (hp : sh.linked p)
    (htree : Blink (((s.publish p page).release p).goto t th).settled s.root sh')
    (hlinked : ∀ x, sh.linked x → sh'.linked x ∧ sh'.low x = sh.low x)
    (hnew : ∀ x, sh'.linked x → sh.linked x ∨ (s.thread t).owns x)
    (htop : ∀ x, sh.linked x → x ≠ p → sh'.top x = sh.top x) (hown : ∀ x, ¬ th.owns x)
    (hok : th.Ok (((s.publish p page).release p).goto t th) sh' t) :
    (((s.publish p page).release p).goto t th).Inv sh' := by
  have hself := thread_goto_self ((s.publish p page).release p) t th
  have hstore : ∀ x, x ≠ p → (((s.publish p page).release p).goto t th).store x = s.store x :=
    fun x hx => Function.update_of_ne hx _ _
  refine h.of_step (t := t) htree le_rfl ?_ ?_ ?_ ?_
  · intro x hx
    rcases hnew x hx with hx | hx
    · exact h.fresh x hx
    · exact (h.owned t x hx).1
  · intro u hu
    have hne : ∀ x, s.lock x = some u → x ≠ p := by
      rintro x hx rfl
      rw [hlock] at hx
      cases hx
      exact hu rfl
    constructor
    · rfl
    · exact thread_goto_of_ne _ _ hu
    · exact hlinked
    · exact fun x hx => (Locks.release hlock x u hu).mpr hx
    · exact fun x hx _ => hstore x (hne x hx)
    · exact fun x hx hl => htop x hl (hne x hx)
    · intro x hx
      have hxl := (h.owned u x hx).2
      refine ⟨hstore x fun heq => hxl (heq ▸ hp), fun hl => ?_⟩
      rcases hnew x hl with hl | hl
      · exact hxl hl
      · exact hu (h.apart u t x hx hl)
  · rw [hself]
    exact fun x hx => absurd hx (hown x)
  · rw [hself]
    exact hok

end Held

/-- The write itself. -/
theorem Inv.writeLeaf (h : s.Inv sh) {id : κ} {rows : List (κ × ρ)} (hholds : Holds s sh t id p)
    (hrows : (s.store p).content = .leaf rows) (hbehind : (s.thread t).behind = none)
    (decide : Option ρ → Option ρ) : (s.writeLeaf t id decide p rows).Inv sh := by
  have hnone : ∀ x, (s.thread t).behind ≠ some x := by
    rw [hbehind]
    exact nofun
  have hsettled : s.settled p = s.store p := settled_of_held hholds.lock (hnone p)
  obtain ⟨-, hsorted, hrange⟩ := (h.fits_of_held hholds.lock hholds.linked hbehind).leaf rows hrows
  have hwrite := h.tree.write hholds.linked (hsettled ▸ hrows)
    (pairwise_putRow hsorted id (decide (rowAt rows id))) (by
      intro k hk
      rcases mem_keys_putRow hk with rfl | hk
      · exact ⟨hholds.low, hholds.top⟩
      · exact hrange k hk)
  refine h.publishHeld hholds.lock hholds.linked (hwrite.congr fun x _ => ?_)
    (fun x hx => ⟨hx, rfl⟩) (fun x hx => Or.inl hx) (fun _ _ _ => rfl) (fun _ hx => hx) trivial
  by_cases hx : x = p
  · rw [hx, settled_publish_self, Function.update_self, hsettled]
  · have hidle : (Thread.idle : Thread κ ρ).behind ≠ some x := nofun
    rw [settled_publish_of_ne hholds.lock hx (hnone x) hidle, Function.update_of_ne hx]

end State

end SquealDb.Tree
