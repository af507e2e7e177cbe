import SquealDb.Tree.Lookup

/-!
# A tree as a map

The rows of a tree that any number of threads read and write are those of a map.  A write is
made at the one step that publishes its leaf, and a lookup reads the map at the one step that
reads its leaf.  All other steps, those of the splits among them, leave the map.
-/

namespace SquealDb.Tree

open Lib

variable {κ ρ : Type*} [LinearOrder κ] [BoundedOrder κ]

/-! ## The row of a key -/

section Rows

variable {rows rows' : List (κ × ρ)} {id k : κ} {row : ρ}

omit [BoundedOrder κ] in
theorem rowAt_cons (e : κ × ρ) :
    rowAt (e :: rows) k = if e.1 = k then some e.2 else rowAt rows k := by
  unfold rowAt
  by_cases he : e.1 = k <;> simp [he]

omit [BoundedOrder κ] in
theorem rowAt_append : rowAt (rows ++ rows') k = (rowAt rows k).or (rowAt rows' k) := by
  induction rows with
  | nil => rfl
  | cons e rows ih =>
    rw [List.cons_append, rowAt_cons, rowAt_cons, ih]
    split <;> rfl

omit [BoundedOrder κ] in
theorem rowAt_eq_none_iff : rowAt rows k = none ↔ k ∉ rows.map Prod.fst := by
  induction rows with
  | nil => simp [rowAt]
  | cons e rows ih =>
    rw [rowAt_cons, List.map_cons, List.mem_cons, not_or, ← ih]
    by_cases he : e.1 = k
    · simp [he]
    · simp [he, Ne.symm he]

omit [BoundedOrder κ] in
theorem rowAt_addEntry (h : id ∉ rows.map Prod.fst) :
    rowAt (addEntry (id, row) rows) k = if id = k then some row else rowAt rows k := by
  induction rows with
  | nil => exact rowAt_cons _
  | cons e rows ih =>
    rw [List.map_cons, List.mem_cons, not_or] at h
    unfold addEntry
    split
    · exact rowAt_cons _
    · rw [rowAt_cons, rowAt_cons, ih h.2]
      by_cases hk : id = k
      · rw [if_pos hk, if_pos hk, if_neg fun he => h.1 (hk.trans he.symm)]
      · rw [if_neg hk, if_neg hk]

omit [BoundedOrder κ] in
theorem rowAt_replaceEntry : rowAt (replaceEntry id row rows) k =
    if id = k then (rowAt rows k).map fun _ => row else rowAt rows k := by
  induction rows with
  | nil => simp [replaceEntry, rowAt]
  | cons e rows ih =>
    show rowAt ((if e.1 = id then (id, row) else e) :: replaceEntry id row rows) k = _
    rw [rowAt_cons, rowAt_cons, ih]
    by_cases he : e.1 = id
    · by_cases hk : id = k <;> simp [he, hk]
    · rw [if_neg he]
      by_cases hk : id = k
      · rw [if_pos hk, if_pos hk, if_neg (hk ▸ he), if_neg (hk ▸ he)]
      · rw [if_neg hk, if_neg hk]

omit [BoundedOrder κ] in
/-- A write changes the row of its key. -/
theorem rowAt_putRow (new : Option ρ) :
    rowAt (putRow rows id new) k = if id = k then new else rowAt rows k := by
  cases new with
  | none =>
    show rowAt (rows.filter fun e => decide (e.1 ≠ id)) k = _
    induction rows with
    | nil => simp [rowAt]
    | cons e rows ih =>
      rw [List.filter_cons]
      by_cases he : e.1 = id
      · rw [if_neg (by simp [he]), ih, rowAt_cons, he]
        split <;> rfl
      · rw [if_pos (by simp [he]), rowAt_cons, rowAt_cons, ih]
        by_cases hk : id = k
        · rw [if_pos hk, if_pos hk, if_neg (hk ▸ he)]
        · rw [if_neg hk, if_neg hk]
  | some r =>
    unfold putRow
    dsimp only
    split
    · next hid =>
        rw [rowAt_replaceEntry]
        split
        · next hk =>
            obtain ⟨r', hr'⟩ := Option.ne_none_iff_exists'.mp (fun h => rowAt_eq_none_iff.mp h hid)
            rw [← hk, hr', Option.map_some]
        · rfl
    · next hid => exact rowAt_addEntry hid

end Rows

namespace State

/-- The rows that the tree's leaves have for keys are those of the map. -/
def Shows (s : State κ ρ) (m : κ → Option ρ) : Prop :=
  ∀ id row, m id = some row ↔ ∃ p rows, Reaches s.store s.root p ∧
    (s.store p).content = .leaf rows ∧ rowAt rows id = some row

/-- The write that an action makes: its key, and what it decides for the row there. -/
def lands (s : State κ ρ) : Action κ ρ → Option (κ × (Option ρ → Option ρ))
  | .advance t .room _ decide =>
    match s.thread t with
    | .holding id p =>
      match (s.store p).content, (s.store p).beyond id with
      | .leaf _, none => some (id, decide)
      | _, _ => none
    | .descending id p =>
      match (s.store p).content with
      | .leaf _ => some (id, decide)
      | .inner _ => none
    | _ => none
  | _ => none

/-- The writes that a run makes, in the order they land in. -/
def landings (s : State κ ρ) : List (Action κ ρ) → List (κ × (Option ρ → Option ρ))
  | [] => []
  | a :: as => (s.lands a).toList ++ (s.step a).landings as

/-- A write of a map. -/
def applied (m : κ → Option ρ) (w : κ × (Option ρ → Option ρ)) : κ → Option ρ :=
  Function.update m w.1 (w.2 (m w.1))

variable {s s' : State κ ρ} {sh sh' : Shape κ} {p : PageId} {id : κ} {m : κ → Option ρ}
  {rows : List (κ × ρ)}

/-! ## The leaf of a key -/

/-- The page is the leaf that covers the key, with these rows. -/
structure LeafOf (s : State κ ρ) (sh : Shape κ) (id : κ) (p : PageId) (rows : List (κ × ρ)) :
    Prop where
  linked : sh.linked p
  content : (s.store p).content = .leaf rows
  covers : sh.Covers p id

theorem Inv.exists_leafOf (h : s.Inv sh) (id : κ) :
    ∃ p rows, Reaches s.store s.root p ∧ s.LeafOf sh id p rows := by
  have hroot : sh.low s.root ≤ id := by
    rw [h.tree.rooted.2.1]
    exact bot_le
  obtain ⟨p, rows, hreach, hrows, hcovers⟩ := h.exists_leaf_from Reaches.root hroot
  exact ⟨p, rows, hreach, h.linked_of_reaches hreach, hrows, hcovers⟩

theorem LeafOf.unique (hleaf : s.LeafOf sh id p rows) (h : s.Inv sh) {x : PageId}
    {rs : List (κ × ρ)} (hx : s.LeafOf sh id x rs) : x = p ∧ rs = rows := by
  have hlevel := ((h.fits_leaf hx.linked hx.content).leaf rs hx.content).1.trans
    ((h.fits_leaf hleaf.linked hleaf.content).leaf rows hleaf.content).1.symm
  obtain rfl := h.tree.eq_of_covers hx.linked hleaf.linked hlevel hx.covers hleaf.covers
  exact ⟨rfl, Content.leaf.inj (hx.content.symm.trans hleaf.content)⟩

/-- The leaf that covers a key has all the rows there are for it. -/
theorem LeafOf.rowAt_iff (hleaf : s.LeafOf sh id p rows) (h : s.Inv sh) (row : ρ) :
    rowAt rows id = some row ↔ ∃ x rs, Reaches s.store s.root x ∧
      (s.store x).content = .leaf rs ∧ rowAt rs id = some row := by
  constructor
  · intro hrow
    obtain ⟨x, rs, hreach, hx⟩ := h.exists_leafOf id
    obtain ⟨rfl, rfl⟩ := hleaf.unique h hx
    exact ⟨x, rs, hreach, hx.content, hrow⟩
  · rintro ⟨x, rs, hreach, hrs, hrow⟩
    have hx := h.linked_of_reaches hreach
    have hmem : id ∈ rs.map Prod.fst := by
      by_contra hno
      rw [rowAt_eq_none_iff.mpr hno] at hrow
      cases hrow
    obtain ⟨hlow, htop⟩ := ((h.fits_leaf hx hrs).leaf rs hrs).2.2 id hmem
    have hcovers : sh.Covers x id := by
      refine ⟨hlow, fun k hk => ?_⟩
      unfold Shape.top at htop
      rw [hk] at htop
      exact htop
    rw [← (hleaf.unique h ⟨hx, hrs, hcovers⟩).2]
    exact hrow

theorem LeafOf.rowAt_eq (hleaf : s.LeafOf sh id p rows) (h : s.Inv sh) (hm : s.Shows m) :
    rowAt rows id = m id :=
  Option.ext fun row => (hleaf.rowAt_iff h row).trans (hm id row).symm

/-- It is enough to look at the leaf of each key. -/
theorem Inv.shows (h : s.Inv sh)
    (hleaf : ∀ id, ∃ p rows, s.LeafOf sh id p rows ∧ rowAt rows id = m id) : s.Shows m := by
  intro id row
  obtain ⟨p, rows, hp, hrow⟩ := hleaf id
  rw [← hrow]
  exact hp.rowAt_iff h row

/-- A leaf that keeps its bound stays the leaf of its keys. -/
theorem LeafOf.next (hleaf : s.LeafOf sh id p rows) (h : s.Inv sh) (h' : s'.Inv sh')
    (hextends : sh.Extends sh') {rs : List (κ × ρ)} (hcontent : (s'.store p).content = .leaf rs)
    (hhigh : (s'.store p).highKey = (s.store p).highKey) : s'.LeafOf sh' id p rs := by
  obtain ⟨hlinked, hlow⟩ := hextends.linked p hleaf.linked
  refine ⟨hlinked, hcontent, ?_, fun k hk => hleaf.covers.2 k ?_⟩
  · rw [hlow]
    exact hleaf.covers.1
  · rw [← (h.leads hleaf.linked).highKey, ← hhigh, (h'.leads hlinked).highKey, hk]

/-! ## Splits -/

/-- The page is cut: in its place, or below it if it is the root. -/
def Cuts (s s' : State κ ρ) (p : PageId) : Prop :=
  ∃ mid sep l r, Cut (s.store p) mid sep ∧ s'.store l = (s.store p).kept mid sep r ∧
    s'.store r = (s.store p).moved mid ∧
    (l = p ∨ p = s'.root ∧ s'.store p = (s.store p).promoted sep l r)

/-- A key's row is in one of the halves of its leaf. -/
theorem LeafOf.cut (hleaf : s.LeafOf sh id p rows) (h : s.Inv sh) (h' : s'.Inv sh')
    (hextends : sh.Extends sh') (hcuts : s.Cuts s' p) :
    ∃ x rs, s'.LeafOf sh' id x rs ∧ rowAt rs id = rowAt rows id := by
  obtain ⟨mid, sep, l, r, hcut, hl, hr, hplace⟩ := hcuts
  have hfits := h.fits_leaf hleaf.linked hleaf.content
  obtain ⟨-, -, hlower, hupper⟩ := hfits.cut_leaf hleaf.content hcut
  obtain ⟨hlinked, hlow⟩ := hextends.linked p hleaf.linked
  have hhigh : sh'.linked l → sh'.high l = some sep := by
    intro hlinked
    rw [← (h'.leads hlinked).highKey, hl]
    rfl
  -- the halves begin where the page did, and at the separator
  have hhalves : (sh'.linked l ∧ sh'.low l = sh.low p) ∧ sh'.linked r ∧ sh'.low r = sep := by
    rcases hplace with rfl | ⟨rfl, hroot⟩
    · obtain ⟨-, q, hnext, hq, -, hqlow⟩ := (h'.leads hlinked).next sep (hhigh hlinked)
      rw [hl] at hnext
      cases hnext
      exact ⟨⟨hlinked, hlow⟩, hq, hqlow⟩
    · obtain ⟨-, ⟨hlinkedl, -, hlowl⟩, ⟨hlinkedr, -, hlowr⟩, -⟩ :=
        (h'.leads hlinked).inner [(sep, l), (⊤, r)] (by rw [hroot]; rfl)
      exact ⟨⟨hlinkedl, hlowl.trans hlow⟩, hlinkedr, hlowr⟩
  obtain ⟨⟨hlinkedl, hlowl⟩, hlinkedr, hlowr⟩ := hhalves
  have hsplit : (rowAt (rows.take mid) id).or (rowAt (rows.drop mid) id) = rowAt rows id := by
    rw [← rowAt_append, List.take_append_drop]
  by_cases hid : id < sep
  · refine ⟨l, rows.take mid, ⟨hlinkedl, ?_, ?_, fun k hk => ?_⟩, ?_⟩
    · rw [hl, Page.kept, hleaf.content]
      rfl
    · rw [hlowl]
      exact hleaf.covers.1
    · rw [hhigh hlinkedl] at hk
      exact Option.some.inj hk ▸ hid
    · rw [← hsplit, rowAt_eq_none_iff.mpr fun hmem => absurd (hupper id hmem).1 (not_le.mpr hid),
        Option.or_none]
  · refine ⟨r, rows.drop mid, ⟨hlinkedr, ?_, ?_, fun k hk => ?_⟩, ?_⟩
    · rw [hr, Page.moved, hleaf.content]
      rfl
    · rw [hlowr]
      exact not_lt.mp hid
    · rw [← (h'.leads hlinkedr).highKey, hr] at hk
      exact hleaf.covers.2 k (hfits.highKey ▸ hk)
    · rw [← hsplit, rowAt_eq_none_iff.mpr fun hmem => hid (hlower id hmem).2, Option.none_or]

/-! ## Steps -/

/-- A write is landed on the leaf of its key. -/
theorem Inv.landing (h : s.Inv sh) {a : Action κ ρ} {decide : Option ρ → Option ρ}
    (hlands : s.lands a = some (id, decide)) : ∃ p rows, s.LeafOf sh id p rows ∧
      (s.step a).store = Function.update s.store p
        ((s.store p).withRows (putRow rows id (decide (rowAt rows id)))) := by
  unfold lands at hlands
  split at hlands
  · next t mid d =>
      have hok := h.ok t
      show ∃ p rows, _ ∧ (s.advance t .room mid d).store = _
      unfold State.advance
      split at hlands
      · next key p hth =>
          rw [hth] at hok ⊢
          split at hlands
          · next rows hcontent hbeyond =>
              cases hlands
              obtain ⟨-, -, hlinked, hlow⟩ := hok
              refine ⟨p, rows, ⟨hlinked, hcontent, ?_⟩, by simp only [hcontent, hbeyond]; rfl⟩
              rcases (h.leads hlinked).hop hlow with ⟨q, hhop, -⟩ | ⟨-, -, hcovers⟩
              · simp [Page.hop, hbeyond, hcontent] at hhop
              · exact hcovers
          · cases hlands
      · next key p hth =>
          rw [hth] at hok ⊢
          split at hlands
          · next rows hcontent =>
              cases hlands
              refine ⟨p, rows, ⟨hok.linked, hcontent, hok.low, fun k hk => ?_⟩,
                by simp only [hcontent]; rfl⟩
              have htop := hok.top
              unfold Shape.top at htop
              rw [hk] at htop
              exact htop
          · cases hlands
      · cases hlands
  · cases hlands

/-- The other steps leave each leaf as it is, or cut it. -/
theorem Inv.store_step (h : s.Inv sh) {a : Action κ ρ} (hlands : s.lands a = none)
    (hp : sh.linked p) (hrows : (s.store p).content = .leaf rows) :
    (s.step a).store p = s.store p ∨ s.Cuts (s.step a) p := by
  have hfresh : ∀ {page}, Function.update s.store s.alloc page p = s.store p :=
    Function.update_of_ne (Nat.ne_of_lt (h.fresh p hp)) _ _
  cases a with
  | lookup t id =>
    left
    simp only [State.step]
    split <;> rfl
  | write t id =>
    left
    simp only [State.step]
    split
    · split <;> rfl
    · rfl
  | finish t =>
    left
    simp only [State.step]
    split <;> rfl
  | advance t check mid decide =>
    have hok := h.ok t
    have howned := h.owned t
    have hlock : ∀ (x : PageId) (th : Thread κ ρ), (s.lockThen t x th).store p = s.store p := by
      intro x th
      unfold State.lockThen
      split <;> rfl
    show (s.advance t check mid decide).store p = _ ∨ s.Cuts (s.advance t check mid decide) p
    unfold State.advance
    unfold lands at hlands
    cases hth : s.thread t with
    | idle | found => exact Or.inl rfl
    | looking id x | routing id x =>
      left
      dsimp only
      split <;> rfl
    | locking | slow | reentering | entering | adopting => exact Or.inl (hlock _ _)
    | holding id x =>
      left
      dsimp only
      split
      all_goals first | rfl | simp_all
    | descending id x =>
      left
      dsimp only
      split
      all_goals first | rfl | simp_all
      all_goals split <;> rfl
    | rooted id | checking id x c =>
      left
      dsimp only
      split
      · exact hfresh
      · rfl
      · rfl
    | growing id m left right =>
      rw [hth] at howned
      left
      apply Function.update_of_ne
      rintro rfl
      exact (howned p (Or.inr rfl)).2 hp
    | grown id m left right =>
      rw [hth] at hok howned
      obtain ⟨-, -, -, hright, sep, hcut, hleft⟩ := hok
      dsimp only
      rw [hcut.separator]
      by_cases hroot : p = s.root
      · right
        subst hroot
        have hl : left ≠ s.root := fun heq => (howned left (Or.inl rfl)).2 (heq ▸ hp)
        have hr : right ≠ s.root := fun heq => (howned right (Or.inr rfl)).2 (heq ▸ hp)
        exact ⟨m, sep, left, right, hcut, (Function.update_of_ne hl _ _).trans hleft,
          (Function.update_of_ne hr _ _).trans hright, Or.inr ⟨rfl, Function.update_self _ _ _⟩⟩
      · exact Or.inl (Function.update_of_ne hroot _ _)
    | splitting id x c q m =>
      rw [hth] at hok howned
      obtain ⟨-, -, -, -, hmoved, sep, hcut⟩ := hok
      dsimp only
      rw [hcut.separator]
      by_cases hpc : p = c
      · right
        subst hpc
        have hq : q ≠ p := fun heq => (howned q rfl).2 (heq ▸ hp)
        exact ⟨m, sep, p, q, hcut, Function.update_self _ _ _,
          (Function.update_of_ne hq _ _).trans hmoved, Or.inl rfl⟩
      · exact Or.inl (Function.update_of_ne hpc _ _)
    | moving id x c q sep target =>
      left
      dsimp only
      split
      · next children hchildren =>
          split
          · apply Function.update_of_ne
            rintro rfl
            rw [hrows] at hchildren
            cases hchildren
          · rfl
      · rfl

/-- A step leaves the map, or makes the write that it lands. -/
theorem Inv.step_shows (h : s.Inv sh) (hm : s.Shows m) (a : Action κ ρ) :
    (s.step a).Shows ((s.lands a).toList.foldl applied m) := by
  obtain ⟨sh', h', hextends⟩ := h.step a
  apply h'.shows
  intro id
  obtain ⟨p, rows, -, hleaf⟩ := h.exists_leafOf id
  have hkept : (s.step a).store p = s.store p →
      ∃ x rs, (s.step a).LeafOf sh' id x rs ∧ rowAt rs id = m id := fun hsame =>
    ⟨p, rows, hleaf.next h h' hextends (hsame ▸ hleaf.content) (by rw [hsame]), hleaf.rowAt_eq h hm⟩
  cases hlands : s.lands a with
  | none =>
    rcases h.store_step hlands hleaf.linked hleaf.content with hsame | hcuts
    · exact hkept hsame
    · obtain ⟨x, rs, hx, hrow⟩ := hleaf.cut h h' hextends hcuts
      exact ⟨x, rs, hx, hrow.trans (hleaf.rowAt_eq h hm)⟩
  | some w =>
    obtain ⟨key, decide⟩ := w
    obtain ⟨x, rs, hx, hstore⟩ := h.landing hlands
    show ∃ p rows, _ ∧ rowAt rows id = Function.update m key (decide (m key)) id
    by_cases hpx : p = x
    · subst hpx
      obtain rfl : rs = rows := Content.leaf.inj (hx.content.symm.trans hleaf.content)
      have hnew : (s.step a).store p =
          (s.store p).withRows (putRow rs key (decide (rowAt rs key))) := by
        rw [hstore, Function.update_self]
      refine ⟨p, _, hleaf.next h h' hextends (by rw [hnew]; rfl) (by rw [hnew]; rfl), ?_⟩
      rw [rowAt_putRow, hx.rowAt_eq h hm, hleaf.rowAt_eq h hm, Function.update_apply]
      simp only [eq_comm]
    · have hid : id ≠ key := by
        rintro rfl
        exact hpx (hx.unique h hleaf).1
      rw [Function.update_of_ne hid]
      exact hkept (by rw [hstore, Function.update_of_ne hpx])

theorem Inv.run_shows (h : s.Inv sh) (hm : s.Shows m) (as : List (Action κ ρ)) :
    (∃ sh', (run State.step s as).Inv sh') ∧ (run State.step s as).Shows
    ((s.landings as).foldl applied m) := by
  induction as generalizing s sh m with
  | nil => exact ⟨⟨sh, h⟩, hm⟩
  | cons a as ih =>
    obtain ⟨sh', h', -⟩ := h.step a
    rw [landings, List.foldl_append]
    exact ih h' (h.step_shows hm a)

end State

/-- In every run of any number of threads, the tree's rows are those of the map that the run's
writes make, in the order they land in, and a lookup that ends has read its key's row of it. -/
theorem tree_is_a_map {s₀ : State κ ρ} (hstarted : s₀.Started) {m : κ → Option ρ}
    (hm : s₀.Shows m) (as : List (Action κ ρ)) :
    (run State.step s₀ as).Shows ((s₀.landings as).foldl State.applied m) ∧
      ∀ t id p a leaf, (run State.step s₀ as).thread t = .looking id p →
        ((run State.step s₀ as).step a).thread t = .found id leaf →
        ∃ rows, leaf.content = .leaf rows ∧
          rowAt rows id = (s₀.landings as).foldl State.applied m id := by
  obtain ⟨sh, h⟩ := hstarted.inv
  obtain ⟨⟨sh', h'⟩, hshows⟩ := h.run_shows hm as
  refine ⟨hshows, fun t id p a leaf hth hfound => ?_⟩
  have hok := h'.ok t
  rw [hth] at hok
  have hstep := h'.step_looking hth a
  rw [hfound] at hstep
  rcases hstep with ⟨-, heq⟩ | ⟨q, -, heq, -⟩ | ⟨-, heq, ⟨rows, hrows⟩, hcovers⟩
  · cases heq
  · cases heq
  · cases heq
    exact ⟨rows, hrows, State.LeafOf.rowAt_eq ⟨hok.1, hrows, hcovers⟩ h' hshows⟩

omit [BoundedOrder κ] in
theorem State.shows_new (root : PageId) : (State.new root : State κ ρ).Shows fun _ => none := by
  refine fun id row => ⟨fun h => (Option.some_ne_none row h.symm).elim, ?_⟩
  rintro ⟨p, rows, -, hrows, hrow⟩
  cases hrows
  cases hrow

/-- A row that is moved by the split of the root is the row that was put. -/
theorem tree_is_a_map_splitting : ∃ leaf rows,
    (run State.step (State.new 0) (splittingRoot ++ [.advance 0 .room 0 id,
      .advance 1 .room 0 id, .advance 1 .room 0 id])).thread 1 = .found 5 leaf ∧
    leaf.content = .leaf rows ∧ rowAt rows 5 = some 1 := by
  have hrun := tree_is_a_map (State.started_new 0) (State.shows_new 0)
    (splittingRoot ++ [.advance 0 .room 0 id, .advance 1 .room 0 id])
  obtain ⟨rows, hrows, hrow⟩ := hrun.2 1 5 1 (.advance 1 .room 0 id)
    ⟨.leaf [(5, 1)], some 7, some 2⟩
    (by decide +kernel) (by decide +kernel)
  refine ⟨_, rows, by decide +kernel, hrows, hrow.trans ?_⟩
  decide +kernel

end SquealDb.Tree
