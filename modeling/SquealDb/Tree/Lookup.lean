import Mathlib.Data.Finset.Card
import Mathlib.Data.Finset.Filter
import Mathlib.Data.Finset.Range
import Mathlib.Order.Fin.Basic
import SquealDb.Lib.Run
import SquealDb.Tree.DescentSteps

/-!
# Lookups among splits

A lookup reads one page after another while any number of writes split pages under it.
It ends at the leaf that covers its key at the moment it reads it, so it finds the key if
the tree has it then.
-/

namespace SquealDb.Tree

open Lib

variable {κ ρ : Type*} [LinearOrder κ] [BoundedOrder κ]

/-! ## The leaf that covers a key -/

section Reads

variable {s : State κ ρ} {sh : Shape κ} {p q : PageId} {id : κ}

omit [BoundedOrder κ] in
theorem Shape.Onward.trans {x : PageId} (h : sh.Onward p q) (h' : sh.Onward q x) :
    sh.Onward p x := by
  rcases h with hlt | ⟨heq, hlow⟩
  · rcases h' with hlt' | ⟨heq', -⟩
    · exact Or.inl (by omega)
    · exact Or.inl (by omega)
  · rcases h' with hlt' | ⟨heq', hlow'⟩
    · exact Or.inl (by omega)
    · exact Or.inr ⟨by omega, lt_trans hlow hlow'⟩

omit [BoundedOrder κ] in
theorem Shape.Onward.irrefl : ¬ sh.Onward p p := by
  rintro (hlt | ⟨-, hlt⟩)
  · exact absurd hlt (lt_irrefl _)
  · exact absurd hlt (lt_irrefl _)

open Classical in
/-- The pages that a lookup at `p` has behind it or is at. -/
noncomputable def passed (s : State κ ρ) (sh : Shape κ) (p : PageId) : Finset PageId :=
  (Finset.range s.alloc).filter fun x => sh.linked x ∧ ¬ sh.Onward p x

open Classical in
omit [BoundedOrder κ] in
theorem mem_passed {x : PageId} :
    x ∈ passed s sh p ↔ x < s.alloc ∧ sh.linked x ∧ ¬ sh.Onward p x := by
  unfold passed
  rw [Finset.mem_filter, Finset.mem_range]

open Classical in
omit [BoundedOrder κ] in
theorem card_passed_le {n : Nat} (hn : n = s.alloc) : (passed s sh p).card ≤ n := by
  calc (passed s sh p).card ≤ (Finset.range s.alloc).card :=
        Finset.card_le_card (Finset.filter_subset _ _)
    _ = s.alloc := Finset.card_range _
    _ = n := hn.symm

/-- A lookup that goes on has passed more pages, whatever was split meanwhile. -/
theorem State.Inv.passed_hop {s' : State κ ρ} {sh' : Shape κ} (h' : s'.Inv sh')
    (hextends : sh.Extends sh') (hq : sh.linked q) (honward : sh.Onward p q) :
    (passed s sh p).card < (passed s' sh' q).card := by
  apply Finset.card_lt_card
  rw [Finset.ssubset_iff_of_subset]
  · refine ⟨q, mem_passed.mpr ⟨?_, (hextends.linked q hq).1, Shape.Onward.irrefl⟩, ?_⟩
    · exact h'.fresh q (hextends.linked q hq).1
    · exact fun hmem => (mem_passed.mp hmem).2.2 honward
  · intro x hx
    obtain ⟨-, hx, hnot⟩ := mem_passed.mp hx
    have hx' := (hextends.linked x hx).1
    refine mem_passed.mpr ⟨h'.fresh x hx', hx', fun hon => hnot ?_⟩
    exact honward.trans (hextends.onward q x hq hx hon)

/-- And one that stays has passed no fewer. -/
theorem State.Inv.passed_stay {s' : State κ ρ} {sh' : Shape κ} (h' : s'.Inv sh')
    (hextends : sh.Extends sh') (hp : sh.linked p) :
    (passed s sh p).card ≤ (passed s' sh' p).card := by
  apply Finset.card_le_card
  intro x hx
  obtain ⟨-, hx, hnot⟩ := mem_passed.mp hx
  have hx' := (hextends.linked x hx).1
  exact mem_passed.mpr ⟨h'.fresh x hx', hx', fun hon => hnot (hextends.onward p x hp hx hon)⟩

omit [BoundedOrder κ] in
theorem reaches_hop (hp : Reaches s.store s.root p)
    (hhop : (s.store p).hop id = some q) : Reaches s.store s.root q := by
  unfold Page.hop at hhop
  cases hbeyond : (s.store p).beyond id with
  | some x =>
    rw [hbeyond] at hhop
    cases hhop
    unfold Page.beyond at hbeyond
    split at hbeyond
    · split at hbeyond
      · exact hp.next hbeyond
      · cases hbeyond
    · cases hbeyond
  | none =>
    rw [hbeyond] at hhop
    cases hcontent : (s.store p).content with
    | leaf rows =>
      rw [hcontent] at hhop
      cases hhop
    | inner children =>
      rw [hcontent] at hhop
      obtain ⟨e, he, rfl⟩ := Option.map_eq_some_iff.mp hhop
      exact hp.child hcontent (State.mem_of_successorOrLast he)

namespace State.Inv

/-- What is found from the root is linked into the tree. -/
theorem linked_of_reaches (h : s.Inv sh) (hp : Reaches s.store s.root p) : sh.linked p := by
  induction hp with
  | root => exact h.tree.rooted.1
  | child _ hcontent hmem ih => exact (((h.leads ih).inner _ hcontent).2.mem hmem).1
  | @next p q _ hnext ih =>
    have hleads := h.leads ih
    cases hhigh : sh.high p with
    | none =>
      rw [hleads.last hhigh] at hnext
      cases hnext
    | some k =>
      obtain ⟨-, q', hq', hlinked, -⟩ := hleads.next k hhigh
      rw [hnext] at hq'
      cases hq'
      exact hlinked

/-- From a page that begins at or before a key one comes to the leaf that covers it. -/
theorem exists_leaf_from (h : s.Inv sh) (hp : Reaches s.store s.root p) (hlow : sh.low p ≤ id) :
    ∃ leaf rows, Reaches s.store s.root leaf ∧ (s.store leaf).content = .leaf rows ∧
      sh.Covers leaf id := by
  -- the pages that are not yet passed become fewer
  obtain ⟨m, hm⟩ : ∃ m : Nat, m = s.alloc := ⟨_, rfl⟩
  induction hn : m - (passed s sh p).card using Nat.strong_induction_on generalizing p with
  | _ n ih =>
    have hlinked := h.linked_of_reaches hp
    rcases (h.leads hlinked).hop hlow with ⟨q, hhop, hq, hqlow, honward⟩ |
      ⟨-, ⟨rows, hrows⟩, hcovers⟩
    · have hlt : (passed s sh p).card < (passed s sh q).card :=
        h.passed_hop (Shape.Extends.refl sh) hq honward
      have hle : (passed s sh q).card ≤ m := card_passed_le hm
      exact ih _ (by omega) (reaches_hop hp hhop) hqlow rfl
    · exact ⟨p, rows, hp, hrows, hcovers⟩

/-- The tree has a key exactly if the leaf that covers it does. -/
theorem contains_iff (h : s.Inv sh) (hp : sh.linked p) {rows : List (κ × ρ)}
    (hrows : (s.store p).content = .leaf rows) (hcovers : sh.Covers p id) :
    s.Contains id ↔ id ∈ rows.map Prod.fst := by
  have hzero : ∀ {x rs}, sh.linked x → (s.store x).content = .leaf rs → sh.level x = 0 :=
    fun hx hrs => ((h.fits_leaf hx hrs).leaf _ hrs).1
  have hsame : ∀ {x rs}, sh.linked x → (s.store x).content = .leaf rs → sh.Covers x id → x = p :=
    fun hx hrs hc => h.tree.eq_of_covers hx hp ((hzero hx hrs).trans (hzero hp hrows).symm)
      hc hcovers
  constructor
  · rintro ⟨x, rs, hreach, hrs, hmem⟩
    have hx := h.linked_of_reaches hreach
    obtain ⟨hlow, htop⟩ := ((h.fits_leaf hx hrs).leaf rs hrs).2.2 id hmem
    have hxp : x = p := by
      apply hsame hx hrs
      refine ⟨hlow, fun k hk => ?_⟩
      unfold Shape.top at htop
      rw [hk] at htop
      exact htop
    rw [hxp, hrows] at hrs
    cases hrs
    exact hmem
  · intro hmem
    have hroot : sh.low s.root ≤ id := by
      rw [h.tree.rooted.2.1]
      exact bot_le
    obtain ⟨x, rs, hreach, hrs, hx⟩ := h.exists_leaf_from Reaches.root hroot
    have hxp := hsame (h.linked_of_reaches hreach) hrs hx
    rw [hxp] at hreach
    exact ⟨p, rows, hreach, hrows, hmem⟩

end State.Inv

end Reads

/-! ## Every interleaving -/

section Runs

variable {s : State κ ρ} {sh : Shape κ} {t : Nat} {id : κ}

/-- The thread of the action. -/
def Action.thread : Action κ ρ → Nat
  | .lookup t _ => t
  | .write t _ => t
  | .finish t => t
  | .advance t _ _ _ => t

/-- The action is a step of the thread. -/
def Action.advances (t : Nat) : Action κ ρ → Bool
  | .advance u _ _ _ => u == t
  | _ => false

theorem State.advance_thread_of_ne {u : Nat} (hu : t ≠ u) (check : Check) (mid : Nat)
    (decide : Option ρ → Option ρ) : (s.advance u check mid decide).thread t = s.thread t := by
  have hgoto : ∀ (s' : State κ ρ) (th : Thread κ ρ), (s'.goto u th).thread t = s'.thread t :=
    fun s' th => State.thread_goto_of_ne s' th hu
  have hlock : ∀ (p : PageId) (th : Thread κ ρ), (s.lockThen u p th).thread t = s.thread t := by
    intro p th
    unfold State.lockThen
    split
    · exact hgoto _ _
    · rfl
  unfold State.advance
  repeat' split
  all_goals first | rfl | exact hlock _ _ | exact hgoto _ _

namespace State

theorem step_thread_of_ne {a : Action κ ρ} (h : t ≠ a.thread) :
    (s.step a).thread t = s.thread t := by
  cases a with
  | advance u check mid decide => exact advance_thread_of_ne h check mid decide
  | lookup u id =>
    unfold step
    dsimp only
    split
    · exact thread_goto_of_ne s _ h
    · rfl
  | write u id =>
    unfold step
    dsimp only
    split
    · split
      · exact thread_goto_of_ne s _ h
      · rfl
    · rfl
  | finish u =>
    unfold step
    dsimp only
    split
    · exact thread_goto_of_ne s _ h
    · rfl

/-- What a lookup ended at is only ever put aside. -/
theorem step_found {leaf : Page κ ρ} (hth : s.thread t = .found id leaf) {a : Action κ ρ}
    (ha : a ≠ .finish t) : (s.step a).thread t = .found id leaf := by
  by_cases hne : t = a.thread
  · subst hne
    cases a with
    | advance u check mid decide =>
      show (s.advance u check mid decide).thread u = _
      unfold State.advance
      rw [show s.thread u = .found id leaf from hth]
      exact hth
    | lookup u id' =>
      unfold step
      dsimp only
      rw [show s.thread u = .found id leaf from hth]
      exact hth
    | write u id' =>
      unfold step
      dsimp only
      rw [show s.thread u = .found id leaf from hth]
      exact hth
    | finish u => exact absurd rfl ha
  · rw [step_thread_of_ne hne]
    exact hth

/-- A lookup stays where it is until it reads a page; then it goes onward, or has found
the leaf that covers its key. -/
theorem Inv.step_looking (h : s.Inv sh) {p : PageId} (hth : s.thread t = .looking id p)
    (a : Action κ ρ) :
    (a.advances t = false ∧ (s.step a).thread t = .looking id p) ∨
      (∃ q, a.advances t = true ∧ (s.step a).thread t = .looking id q ∧ sh.linked q ∧
        sh.Onward p q) ∨
      (a.advances t = true ∧ (s.step a).thread t = .found id (s.store p) ∧
        (∃ rows, (s.store p).content = .leaf rows) ∧ sh.Covers p id) := by
  have hok := h.ok t
  rw [hth] at hok
  obtain ⟨hp, hlow⟩ := hok
  cases a with
  | advance u check mid decide =>
    by_cases hu : t = u
    · subst hu
      right
      rcases (h.leads hp).hop hlow with ⟨q, hhop, hq, -, honward⟩ | ⟨hhop, hleaf, hcovers⟩
      · have hstep : s.step (.advance t check mid decide) = s.goto t (.looking id q) := by
          show s.advance t check mid decide = _
          simp only [State.advance, hth, hhop]
        rw [hstep]
        exact Or.inl ⟨q, beq_self_eq_true t, thread_goto_self _ _ _, hq, honward⟩
      · have hstep : s.step (.advance t check mid decide) = s.goto t (.found id (s.store p)) := by
          show s.advance t check mid decide = _
          simp only [State.advance, hth, hhop]
        rw [hstep]
        exact Or.inr ⟨beq_self_eq_true t, thread_goto_self _ _ _, hleaf, hcovers⟩
    · exact Or.inl ⟨beq_eq_false_iff_ne.mpr (Ne.symm hu), (step_thread_of_ne hu).trans hth⟩
  | lookup u id' =>
    refine Or.inl ⟨rfl, ?_⟩
    by_cases hu : t = u
    · subst hu
      unfold State.step
      dsimp only
      rw [hth]
      exact hth
    · exact (step_thread_of_ne hu).trans hth
  | write u id' =>
    refine Or.inl ⟨rfl, ?_⟩
    by_cases hu : t = u
    · subst hu
      unfold State.step
      dsimp only
      rw [hth]
      exact hth
    · exact (step_thread_of_ne hu).trans hth
  | finish u =>
    refine Or.inl ⟨rfl, ?_⟩
    by_cases hu : t = u
    · subst hu
      unfold State.step
      dsimp only
      rw [hth]
      exact hth
    · exact (step_thread_of_ne hu).trans hth

theorem run_found {leaf : Page κ ρ} (hth : s.thread t = .found id leaf) {as : List (Action κ ρ)}
    (has : .finish t ∉ as) : (run step s as).thread t = .found id leaf := by
  induction as generalizing s with
  | nil => exact hth
  | cons a as ih =>
    rw [List.mem_cons, not_or] at has
    exact ih (step_found hth (Ne.symm has.1)) has.2

/-- A lookup among any steps has passed as many pages as it has read, or it has ended at
the leaf that covered its key when it read it. -/
def LookedUp (s : State κ ρ) (sh : Shape κ) (t : Nat) (id : κ) (p : PageId)
    (as : List (Action κ ρ)) : Prop :=
  (∃ sh' q, (run step s as).thread t = .looking id q ∧
    (passed s sh p).card + as.countP (·.advances t) ≤ (passed (run step s as) sh' q).card) ∨
  (∃ n sh' q, n ≤ as.length ∧ (run step s (as.take n)).Inv sh' ∧ sh'.linked q ∧
    (∃ rows, ((run step s (as.take n)).store q).content = .leaf rows) ∧ sh'.Covers q id ∧
    (run step s as).thread t = .found id ((run step s (as.take n)).store q))

theorem Inv.run_looking (h : s.Inv sh) {p : PageId} (hth : s.thread t = .looking id p)
    {as : List (Action κ ρ)} (has : .finish t ∉ as) : s.LookedUp sh t id p as := by
  induction as generalizing s sh p with
  | nil => exact Or.inl ⟨sh, p, hth, le_refl _⟩
  | cons a as ih =>
    rw [List.mem_cons, not_or] at has
    have hok := h.ok t
    rw [hth] at hok
    obtain ⟨sh₁, h₁, hextends⟩ := h.step a
    -- the rest of the run, seen from the state after the first step
    have hrest : ∀ {q : PageId}, (s.step a).thread t = .looking id q →
        (passed s sh p).card + (if a.advances t then 1 else 0) ≤
          (passed (s.step a) sh₁ q).card → s.LookedUp sh t id p (a :: as) := by
      intro q hq hcard
      rcases ih h₁ hq has.2 with ⟨sh', q', hlooking, hle⟩ | ⟨n, sh', q', hn, hinv, hrest⟩
      · refine Or.inl ⟨sh', q', hlooking, ?_⟩
        rw [List.countP_cons]
        exact le_trans (by omega) hle
      · refine Or.inr ⟨n + 1, sh', q', ?_, hinv, hrest⟩
        rw [List.length_cons]
        omega
    rcases h.step_looking hth a with ⟨hnot, hstay⟩ | ⟨q, hadv, hq, hlinked, honward⟩ |
      ⟨-, hfound, hleaf, hcovers⟩
    · apply hrest hstay
      rw [hnot]
      exact h₁.passed_stay hextends hok.1
    · apply hrest hq
      rw [hadv]
      exact h₁.passed_hop hextends hlinked honward
    · refine Or.inr ⟨0, sh, p, Nat.zero_le _, h, hok.1, hleaf, hcovers, ?_⟩
      exact run_found hfound has.2

/-- A tree that no thread is at. -/
def Started (s : State κ ρ) : Prop :=
  (∀ t, s.thread t = .idle) ∧
    ∃ sh, Blink s.store s.root sh ∧ ∀ p, sh.linked p → p < s.alloc

theorem Started.inv (h : s.Started) : ∃ sh, s.Inv sh := by
  obtain ⟨hidle, sh, htree, hfresh⟩ := h
  refine ⟨sh, ?_, hfresh, ?_, ?_, ?_⟩
  · apply htree.congr
    intro p _
    apply settled_eq_store
    intro u _
    rw [hidle]
    exact nofun
  · intro t p hown
    rw [hidle] at hown
    cases hown
  · intro t u p hown
    rw [hidle] at hown
    cases hown
  · intro t
    rw [hidle]
    trivial

theorem started_new (root : PageId) : (new root : State κ ρ).Started := by
  refine ⟨fun _ => rfl, ⟨fun p => p = root, fun _ => 0, fun _ => ⊥, fun _ => none⟩, ?_, ?_⟩
  · refine ⟨⟨rfl, rfl, rfl⟩, fun _ _ => le_refl _, ?_, fun p _ => ?_⟩
    · rintro p q rfl rfl - hne
      exact absurd rfl hne
    · refine ⟨rfl, fun _ => rfl, nofun, fun rows hrows => ?_, nofun⟩
      cases hrows
      exact ⟨rfl, List.Pairwise.nil, nofun⟩
  · rintro p rfl
    exact Nat.lt_succ_self _

theorem Started.reachable_inv {s₀ : State κ ρ} (h : s₀.Started)
    (hs : Reachable step (fun _ _ => True) s₀ s) : ∃ sh, s.Inv sh := by
  induction hs with
  | init => exact h.inv
  | step a _ _ ih =>
    obtain ⟨sh, hinv⟩ := ih
    obtain ⟨sh', hinv', -⟩ := hinv.step a
    exact ⟨sh', hinv'⟩

end State

/-- Lookups never miss across splits.  From any state that threads over a tree can be in,
and among whatever steps the others then take: a lookup of a key that is in the tree all
the while ends at a leaf that has the key, one of a key that is not in the tree all the
while ends at a leaf that does not, and a lookup has ended when it has made as many reads
as there are pages. -/
theorem lookup_never_misses {s₀ : State κ ρ} (hstarted : s₀.Started)
    (hs : Reachable State.step (fun _ _ => True) s₀ s) {p : PageId}
    (hth : s.thread t = .looking id p) (as : List (Action κ ρ)) (has : .finish t ∉ as) :
    (∀ leaf, (run State.step s as).thread t = .found id leaf →
      (∃ rows, leaf.content = .leaf rows) ∧
      ((∀ n, n ≤ as.length → (run State.step s (as.take n)).Contains id) →
        id ∈ leaf.content.keys) ∧
      ((∀ n, n ≤ as.length → ¬ (run State.step s (as.take n)).Contains id) →
        id ∉ leaf.content.keys)) ∧
    ((run State.step s as).alloc ≤ as.countP (·.advances t) →
      ∃ leaf, (run State.step s as).thread t = .found id leaf) := by
  obtain ⟨sh, hinv⟩ := hstarted.reachable_inv hs
  rcases hinv.run_looking hth has with ⟨sh', q, hlooking, hle⟩ |
    ⟨n, sh', q, hn, hinv', hq, ⟨rows, hrows⟩, hcovers, hfound⟩
  · constructor
    · intro leaf hleaf
      rw [hlooking] at hleaf
      cases hleaf
    · intro hmany
      -- it has passed a page before its first read
      have hok := hinv.ok t
      rw [hth] at hok
      have hself : p ∈ passed s sh p :=
        mem_passed.mpr ⟨hinv.fresh p hok.1, hok.1, Shape.Onward.irrefl⟩
      have hpos := Finset.card_pos.mpr ⟨p, hself⟩
      obtain ⟨m, hm⟩ : ∃ m : Nat, m = (run State.step s as).alloc := ⟨_, rfl⟩
      have hbound : (passed (run State.step s as) sh' q).card ≤ m := card_passed_le hm
      have hmany : m ≤ as.countP (·.advances t) := hm.trans_le hmany
      omega
  · constructor
    · intro leaf hleaf
      rw [hfound] at hleaf
      cases hleaf
      have hiff := hinv'.contains_iff hq hrows hcovers
      refine ⟨⟨rows, hrows⟩, ?_, ?_⟩
      · intro hcontains
        rw [hrows]
        exact hiff.mp (hcontains n hn)
      · intro habsent hmem
        rw [hrows] at hmem
        exact habsent n hn (hiff.mpr hmem)
    · exact fun _ => ⟨_, hfound⟩

end Runs

omit [LinearOrder κ] [BoundedOrder κ] in
theorem State.contains_of_root {s : State κ ρ} (root : PageId) {rows : List (κ × ρ)} {id : κ}
    (hroot : s.root = root) (hrows : (s.store root).content = .leaf rows)
    (hmem : id ∈ rows.map Prod.fst) : s.Contains id :=
  ⟨root, rows, hroot ▸ Reaches.root, hrows, hmem⟩

omit [LinearOrder κ] [BoundedOrder κ] in
theorem State.contains_of_child {s : State κ ρ} (root : PageId) {c : PageId} {children :
    List (κ × PageId)}
    {rows : List (κ × ρ)} {id k : κ} (hroot : s.root = root)
    (hchildren : (s.store root).content = .inner children) (hc : (k, c) ∈ children)
    (hrows : (s.store c).content = .leaf rows) (hmem : id ∈ rows.map Prod.fst) : s.Contains id := by
  refine ⟨c, rows, ?_, hrows, hmem⟩
  subst hroot
  exact Reaches.root.child hchildren hc

/-- A tree of two rows whose root is being split: both halves are published, and a lookup
is about to read the root. -/
def splittingRoot : List (Action (Fin 16) Nat) :=
  [.write 0 5, .advance 0 .room 0 id, .advance 0 .room 0 id, .advance 0 .room 0 fun _ => some 1,
    .write 0 7, .advance 0 .room 0 id, .advance 0 .room 0 id, .advance 0 .room 0 fun _ => some 2,
    .write 0 9, .advance 0 .room 0 id, .advance 0 .room 0 id, .advance 0 .full 0 id,
    .advance 0 .room 0 id, .advance 0 .full 1 id, .advance 0 .room 0 id, .lookup 1 5]

theorem lookup_finds_in_left_half : ∃ leaf,
    (run State.step (run State.step (State.new 0) splittingRoot)
      [.advance 0 .room 0 id, .advance 1 .room 0 id, .advance 1 .room 0 id]).thread 1 =
      .found 5 leaf ∧
    5 ∈ leaf.content.keys := by
  have hfound : (run State.step (run State.step (State.new 0) splittingRoot)
      [.advance 0 .room 0 id, .advance 1 .room 0 id, .advance 1 .room 0 id]).thread 1 =
      .found 5 ⟨.leaf [(5, 1)], some 7, some 2⟩ := by decide +kernel
  have hlooking : (run State.step (State.new 0) splittingRoot).thread 1 = .looking 5 0 :=
    by decide +kernel
  refine ⟨_, hfound, ?_⟩
  have hlookup := lookup_never_misses (State.started_new 0)
    (reachable_run splittingRoot (allowed_true _ _)) hlooking
    [.advance 0 .room 0 id, .advance 1 .room 0 id, .advance 1 .room 0 id] (by simp)
  refine (hlookup.1 _ hfound).2.1 fun n hn => ?_
  have hcases : n = 0 ∨ n = 1 ∨ n = 2 ∨ n = 3 := by
    simp only [List.length_cons, List.length_nil] at hn
    omega
  have hleft : ((7 : Fin 16), 1) ∈ [((7 : Fin 16), 1), (⊤, 2)] := List.mem_cons_self
  have hrows : (5 : Fin 16) ∈ [((5 : Fin 16), 1)].map Prod.fst := by decide
  rcases hcases with rfl | rfl | rfl | rfl
  · have hrows : (5 : Fin 16) ∈ [((5 : Fin 16), 1), (7, 2)].map Prod.fst := by decide
    exact State.contains_of_root 0 (by decide +kernel) (by decide +kernel) hrows
  · exact State.contains_of_child 0 (by decide +kernel) (by decide +kernel) hleft
      (by decide +kernel) hrows
  · exact State.contains_of_child 0 (by decide +kernel) (by decide +kernel) hleft
      (by decide +kernel) hrows
  · exact State.contains_of_child 0 (by decide +kernel) (by decide +kernel) hleft
      (by decide +kernel) hrows

end SquealDb.Tree
