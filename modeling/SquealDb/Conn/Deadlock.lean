import Mathlib.Data.Prod.Lex
import Mathlib.Data.Set.Finite.Lemmas
import Mathlib.Data.Set.Finite.List
import SquealDb.Conn.TableLock
import SquealDb.Lib.ParentPointers

/-!
# Looking for a cycle of waits

`deadlocked` of `conn/tablelock.rs`, on locks and waits that do not change while it reads
them.  A waiting request searches breadth first, from the owners that block it, for its own
owner; what it finds is one cycle of waits, and it gives up if it was the last of that
cycle to begin waiting.
-/

namespace SquealDb.Conn.TableLock

open SquealDb.Lib.ParentPointers

variable {Owner Lock Instant : Type} [LinearOrder Owner]

/-- `Wait`: what a waiting owner waits for. -/
structure Wait (Lock Instant : Type) where
  lock : Lock
  exclusive : Bool
  since : Instant

/-- The locks and the waits of all owners at one moment.  No two owners began waiting at
the same time. -/
structure Frozen (Owner Lock Instant : Type) [DecidableEq Owner] where
  locks : Lock → State Owner
  waits : List (Owner × Wait Lock Instant)
  since_distinct : ∀ o o' w w', waits.lookup o = some w → waits.lookup o' = some w' →
    w.since = w'.since → o = o'

namespace Frozen

/-- `State::blockers`, sorted as it returns them. -/
def blockers (f : Frozen Owner Lock Instant) (owner : Owner) (lock : Lock)
    (exclusive : Bool) : List Owner :=
  ((f.locks lock).blockers owner exclusive).insertionSort (· ≤ ·)

/-- The owner waits for the other. -/
def WaitsFor (f : Frozen Owner Lock Instant) (o b : Owner) : Prop :=
  ∃ w, f.waits.lookup o = some w ∧ b ∈ f.blockers o w.lock w.exclusive

theorem waitsFor_iff {f : Frozen Owner Lock Instant} {o b : Owner} :
    f.WaitsFor o b ↔ ∃ w, f.waits.lookup o = some w ∧ b ≠ o ∧
      ((f.locks w.lock).exclusive = some b ∨
        if w.exclusive = true then b ∈ (f.locks w.lock).shared
        else b ∈ (f.locks w.lock).waiting) := by
  simp only [WaitsFor, blockers, List.mem_insertionSort, State.mem_blockers]

/-- A simple cycle of waits. -/
structure WaitCycle (f : Frozen Owner Lock Instant) (c : Cycle Owner) : Prop where
  ne_nil : c ≠ Cycle.nil
  nodup : c.Nodup
  chain : c.Chain f.WaitsFor

/-- The owner is on the cycle, and of those on it began waiting last. -/
def Latest [LE Instant] (f : Frozen Owner Lock Instant) (c : Cycle Owner) (owner : Owner) : Prop :=
  owner ∈ c ∧ ∃ w, f.waits.lookup owner = some w ∧
    ∀ o ∈ c, ∃ w', f.waits.lookup o = some w' ∧ w'.since ≤ w.since

end Frozen

/-! ## The search -/

/-- The loop over the cycle's members: from the owner the cycle closes with, against the
waits.  It fails where `via` has no entry. -/
def members (via : List (Owner × Owner)) (owner : Owner) (found : List Owner)
    (current : Owner) : Option (List Owner) :=
  if current ≠ owner ∧ found.length ≤ via.length then do
    let next ← via.lookup current
    members via owner (found ++ [current]) next
  else some found
termination_by via.length + 1 - found.length
decreasing_by
  rename_i h
  rw [List.length_append, List.length_singleton]
  omega

/-- What the search keeps: how each owner was reached, newest first, the owners to look
at, and those it has looked at. -/
structure Search (Owner : Type) where
  via : List (Owner × Owner)
  todo : List Owner
  seen : List Owner

/-- `via.entry(b).or_insert(o)`. -/
def reach (o : Owner) (via : List (Owner × Owner)) (b : Owner) : List (Owner × Owner) :=
  if b ∈ via.map Prod.fst then via else (b, o) :: via

/-- The owners that wait and have not been looked at. -/
def Search.unseen (s : Search Owner) (f : Frozen Owner Lock Instant) : Nat :=
  (f.waits.filter fun w => decide (w.1 ∉ s.seen)).length

theorem Search.unseen_cons (f : Frozen Owner Lock Instant) (s : Search Owner) (o : Owner)
    (via : List (Owner × Owner)) (todo : List Owner) :
    (Search.mk via todo (o :: s.seen)).unseen f =
      ((f.waits.filter fun w => decide (w.1 ∉ s.seen)).filter
        fun w => decide (w.1 ≠ o)).length := by
  rw [List.filter_filter]
  simp only [Search.unseen, List.mem_cons, not_or, ne_eq, Bool.decide_and]

theorem Search.unseen_le (f : Frozen Owner Lock Instant) (s : Search Owner) (o : Owner)
    (via : List (Owner × Owner)) (todo : List Owner) :
    (Search.mk via todo (o :: s.seen)).unseen f ≤ s.unseen f := by
  rw [s.unseen_cons f]
  exact List.length_filter_le _ _

variable {o owner : Owner} {w : Wait Lock Instant} {via : List (Owner × Owner)}
  {f : Frozen Owner Lock Instant} {s : Search Owner}

theorem Search.unseen_lt (f : Frozen Owner Lock Instant) (s : Search Owner)
    (hw : f.waits.lookup o = some w) (ho : o ∉ s.seen) (via : List (Owner × Owner))
    (todo : List Owner) :
    (Search.mk via todo (o :: s.seen)).unseen f < s.unseen f := by
  obtain ⟨l₁, l₂, hsplit, -⟩ := List.lookup_eq_some_iff.1 hw
  rw [s.unseen_cons f, Search.unseen, List.length_filter_lt_length_iff_exists]
  refine ⟨(o, w), List.mem_filter.2 ⟨?_, by simpa using ho⟩, by simp⟩
  rw [hsplit]
  simp

namespace Frozen

theorem blockers_nodup (f : Frozen Owner Lock Instant) (o : Owner) (lock : Lock)
    (exclusive : Bool) : (f.blockers o lock exclusive).Nodup :=
  (List.perm_insertionSort _ _).nodup_iff.2 (List.nodup_dedup _)

theorem waits_of_waitsFor {f : Frozen Owner Lock Instant} {o b : Owner}
    (h : Relation.TransGen f.WaitsFor o b) : ∃ w, f.waits.lookup o = some w := by
  obtain ⟨a, hstep, -⟩ := Relation.TransGen.head'_iff.1 h
  obtain ⟨w, hw, -⟩ := hstep
  exact ⟨w, hw⟩

theorem WaitCycle.waits {f : Frozen Owner Lock Instant} {c : Cycle Owner}
    (hc : f.WaitCycle c) {o : Owner} (ho : o ∈ c) : ∃ w, f.waits.lookup o = some w :=
  waits_of_waitsFor (transGen_of_mem_cycle hc.chain ho)

end Frozen

/-! ### What its loop keeps -/

/-- What the loop of `deadlocked` keeps: the pointers lead back to the owner, what is to
be looked at has one, and whoever the owner or one looked at waits for is still to be
looked at or was. -/
structure Searching (f : Frozen Owner Lock Instant) (owner : Owner) (s : Search Owner) :
    Prop where
  recorded : Recorded f.WaitsFor owner s.via
  todo_recorded : ∀ b ∈ s.todo, b ∈ s.via.map Prod.fst
  owner_unseen : owner ∉ s.seen
  closed : ∀ o, o = owner ∨ o ∈ s.seen → ∀ b, f.WaitsFor o b → b ∈ s.todo ∨ b ∈ s.seen

/-- Recording the blockers of one owner. -/
theorem recorded_foldl (f : Frozen Owner Lock Instant) (bs : List Owner)
    (hvia : Recorded f.WaitsFor owner via) (ho : o = owner ∨ o ∈ via.map Prod.fst)
    (hbs : ∀ b ∈ bs, f.WaitsFor o b) :
    Recorded f.WaitsFor owner (bs.foldl (reach o) via) ∧
      ∀ x, x ∈ via.map Prod.fst ∨ x ∈ bs → x ∈ (bs.foldl (reach o) via).map Prod.fst := by
  induction bs generalizing via with
  | nil => exact ⟨hvia, by simp⟩
  | cons b bs ih =>
    rw [List.forall_mem_cons] at hbs
    rw [List.foldl_cons]
    have hstep : Recorded f.WaitsFor owner (reach o via b) ∧
        ∀ x, x ∈ via.map Prod.fst ∨ x = b → x ∈ (reach o via b).map Prod.fst := by
      unfold reach
      split
      · rename_i hb
        refine ⟨hvia, ?_⟩
        rintro x (hx | rfl)
        · exact hx
        · exact hb
      · rename_i hb
        refine ⟨hvia.cons hb ho hbs.1, ?_⟩
        rintro x (hx | rfl)
        · exact List.mem_cons_of_mem _ hx
        · exact List.mem_cons_self
    have hrest := ih hstep.1 (ho.imp_right fun h => hstep.2 o (Or.inl h)) hbs.2
    refine ⟨hrest.1, ?_⟩
    rintro x (hx | hx)
    · exact hrest.2 x (Or.inl (hstep.2 x (Or.inl hx)))
    · rcases List.mem_cons.1 hx with rfl | hx
      · exact hrest.2 x (Or.inl (hstep.2 x (Or.inr rfl)))
      · exact hrest.2 x (Or.inr hx)

/-- With nothing left to look at, the owner does not wait for itself. -/
theorem Searching.finished (h : Searching f owner s) (htodo : s.todo = []) :
    ¬ Relation.TransGen f.WaitsFor owner owner := by
  have hclosed : ∀ x, Relation.TransGen f.WaitsFor owner x → x ∈ s.seen := by
    intro x hx
    induction hx with
    | single hstep => simpa [htodo] using h.closed _ (Or.inl rfl) _ hstep
    | tail _ hstep ih => simpa [htodo] using h.closed _ (Or.inr ih) _ hstep
  intro hself
  exact h.owner_unseen (hclosed owner hself)

/-- An owner already looked at, or one that does not wait, is passed over. -/
theorem Searching.pass {todo seen : List Owner} (h : Searching f owner s)
    (htodo : s.todo = o :: todo) (hne : o ≠ owner) (hseen : ∀ x, x ∈ seen ↔ x = o ∨ x ∈ s.seen)
    (hstill : o ∈ s.seen ∨ f.waits.lookup o = none) :
    Searching f owner { s with todo := todo, seen := seen } := by
  constructor
  · exact h.recorded
  · intro b hb
    exact h.todo_recorded b (htodo ▸ List.mem_cons_of_mem _ hb)
  · show owner ∉ seen
    rw [hseen, not_or]
    exact ⟨hne.symm, h.owner_unseen⟩
  · intro x hx b hb
    have hold : x = owner ∨ x ∈ s.seen := by
      rcases hx with hx | hx
      · exact Or.inl hx
      · rcases (hseen x).1 hx with rfl | hx
        · rcases hstill with hx | hnone
          · exact Or.inr hx
          · obtain ⟨w, hw, -⟩ := hb
            rw [hnone] at hw
            cases hw
        · exact Or.inr hx
    show b ∈ todo ∨ b ∈ seen
    rw [hseen]
    rcases h.closed x hold b hb with hb | hb
    · rw [htodo, List.mem_cons] at hb
      rcases hb with rfl | hb
      · exact Or.inr (Or.inl rfl)
      · exact Or.inl hb
    · exact Or.inr (Or.inr hb)

/-- The blockers of an owner that waits are put behind what is still to be looked at. -/
theorem Searching.expand {todo : List Owner} (h : Searching f owner s)
    (htodo : s.todo = o :: todo) (hne : o ≠ owner) (hw : f.waits.lookup o = some w) :
    Searching f owner
      { via := (f.blockers o w.lock w.exclusive).foldl (reach o) s.via
        todo := todo ++ f.blockers o w.lock w.exclusive
        seen := o :: s.seen } := by
  have hfold := recorded_foldl f (f.blockers o w.lock w.exclusive) h.recorded
    (Or.inr (h.todo_recorded o (htodo ▸ List.mem_cons_self))) fun b hb => ⟨w, hw, hb⟩
  constructor
  · exact hfold.1
  · intro b hb
    rcases List.mem_append.1 hb with hb | hb
    · exact hfold.2 b (Or.inl (h.todo_recorded b (htodo ▸ List.mem_cons_of_mem _ hb)))
    · exact hfold.2 b (Or.inr hb)
  · show owner ∉ o :: s.seen
    rw [List.mem_cons, not_or]
    exact ⟨hne.symm, h.owner_unseen⟩
  · intro x hx b hb
    show b ∈ todo ++ f.blockers o w.lock w.exclusive ∨ b ∈ o :: s.seen
    by_cases hxo : x = o
    · subst hxo
      obtain ⟨w', hw', hb⟩ := hb
      rw [hw] at hw'
      cases hw'
      exact Or.inl (List.mem_append_right _ hb)
    · have hold : x = owner ∨ x ∈ s.seen :=
        hx.imp_right fun hx => (List.mem_cons.1 hx).resolve_left hxo
      rcases h.closed x hold b hb with hb | hb
      · rw [htodo, List.mem_cons] at hb
        rcases hb with rfl | hb
        · exact Or.inr List.mem_cons_self
        · exact Or.inl (List.mem_append_left _ hb)
      · exact Or.inr (List.mem_cons_of_mem _ hb)

/-! ### The loop -/

variable [LinearOrder Instant]

/-- The owner is found: whether, of the members of the cycle, it began waiting last. -/
def verdict (f : Frozen Owner Lock Instant) (owner : Owner) (via : List (Owner × Owner)) :
    Option Bool := do
  let last ← via.lookup owner
  let found ← members via owner [owner] last
  match found.mapM fun m => (f.waits.lookup m).map fun w => toLex (w.since, m) with
  | none => some false
  | some sinces => some (decide (sinces.max?.map (·.2) = some owner))

/-- The loop of `deadlocked`. -/
def search (f : Frozen Owner Lock Instant) (owner : Owner) (s : Search Owner) :
    Option Bool :=
  match _htodo : s.todo with
  | [] => some false
  | o :: todo =>
    if o = owner then verdict f owner s.via
    else if _hseen : o ∈ s.seen then search f owner { s with todo := todo }
    else
      match _hw : f.waits.lookup o with
      | none => search f owner { s with todo := todo, seen := o :: s.seen }
      | some w =>
        let blockers := f.blockers o w.lock w.exclusive
        search f owner
          { via := blockers.foldl (reach o) s.via
            todo := todo ++ blockers
            seen := o :: s.seen }
termination_by (s.unseen f, s.todo.length)
decreasing_by
  · apply Prod.Lex.right
    rw [_htodo]
    exact Nat.lt_succ_self _
  · rcases Nat.lt_or_eq_of_le (s.unseen_le f o s.via todo) with h | h
    · exact Prod.Lex.left _ _ h
    · rw [h, _htodo]
      exact Prod.Lex.right _ (Nat.lt_succ_self _)
  · exact Prod.Lex.left _ _ (s.unseen_lt f _hw _hseen _ _)

def deadlocked (f : Frozen Owner Lock Instant) (owner : Owner) (lock : Lock)
    (exclusive : Bool) : Option Bool :=
  let blockers := f.blockers owner lock exclusive
  search f owner
    { via := blockers.foldl (fun via b => (b, owner) :: via) []
      todo := blockers
      seen := [] }

namespace Frozen

/-- Every member of a cycle waits, so the latest is told by comparing the times. -/
theorem latest_iff (f : Frozen Owner Lock Instant) {c : Cycle Owner} (hc : f.WaitCycle c)
    {owner : Owner} (howner : owner ∈ c) :
    f.Latest c owner ↔ ∀ o ∈ c, ∀ w w', f.waits.lookup owner = some w →
      f.waits.lookup o = some w' → w'.since ≤ w.since := by
  constructor
  · rintro ⟨-, w₀, hw₀, hlatest⟩ o ho w w' hw hw'
    obtain ⟨w₁, hw₁, hle⟩ := hlatest o ho
    rw [hw₀] at hw
    rw [hw₁] at hw'
    cases hw
    cases hw'
    exact hle
  · intro h
    obtain ⟨w, hw⟩ := hc.waits howner
    refine ⟨howner, w, hw, ?_⟩
    intro o ho
    obtain ⟨w', hw'⟩ := hc.waits ho
    exact ⟨w', hw', h o ho w w' hw hw'⟩

end Frozen

/-! ## What the owner found says -/

theorem members_eq {current : Owner} {path : List Owner} (h : Climbs via owner current path)
    {found : List Owner} (hlen : found.length + path.length ≤ via.length + 1) :
    members via owner found current = some (found ++ path) := by
  induction h generalizing found with
  | done =>
    rw [members, if_neg (by simp), List.append_nil]
  | step hne hlookup _ ih =>
    rw [List.length_cons] at hlen
    rw [members, if_pos ⟨hne, by omega⟩, hlookup]
    show members via owner _ _ = _
    rw [ih (by rw [List.length_append, List.length_singleton]; omega), List.append_assoc]
    rfl

/-- A lookup for each of a list that has them all. -/
private theorem mapM_some_mem {α β : Type} {g : α → Option β} {l : List α}
    (h : ∀ a ∈ l, ∃ b, g a = some b) :
    ∃ out, l.mapM g = some out ∧ ∀ b, b ∈ out ↔ ∃ a ∈ l, g a = some b := by
  induction l with
  | nil => exact ⟨[], rfl, by simp⟩
  | cons a l ih =>
    rw [List.forall_mem_cons] at h
    obtain ⟨b, hb⟩ := h.1
    obtain ⟨out, hout, hmem⟩ := ih h.2
    refine ⟨b :: out, by rw [List.mapM_cons, hb, hout]; rfl, ?_⟩
    intro x
    rw [List.mem_cons, hmem x]
    simp [hb, eq_comm]

theorem verdict_spec {last : Owner} (hvia : Recorded f.WaitsFor owner via)
    (hlast : via.lookup owner = some last) :
    ∃ c b, f.WaitCycle c ∧ owner ∈ c ∧ verdict f owner via = some b ∧
      (b = true ↔ f.Latest c owner) := by
  obtain ⟨path, hclimbs, hlen, hnodup, hchain⟩ := hvia.cycle hlast
  have hmem : ∀ o, o ∈ ((owner :: path.reverse : List Owner) : Cycle Owner) ↔
      o ∈ owner :: path := by
    intro o
    rw [Cycle.mem_coe_iff, List.mem_cons, List.mem_cons, List.mem_reverse]
  have howner := (hmem owner).2 List.mem_cons_self
  have hcycle : f.WaitCycle ((owner :: path.reverse : List Owner) : Cycle Owner) := by
    refine ⟨?_, ?_, hchain⟩
    · intro hnil
      rw [hnil] at howner
      exact Cycle.notMem_nil _ howner
    · rw [Cycle.nodup_coe_iff, List.nodup_cons, List.mem_reverse, List.nodup_reverse]
      exact List.nodup_cons.1 hnodup
  have hmembers : members via owner [owner] last = some (owner :: path) :=
    members_eq hclimbs (by rw [List.length_singleton]; omega)
  have hwaits : ∀ o ∈ owner :: path, ∃ x : Instant ×ₗ Owner,
      ((f.waits.lookup o).map fun w => toLex (w.since, o)) = some x := by
    intro o ho
    obtain ⟨w, hw⟩ := hcycle.waits ((hmem o).2 ho)
    exact ⟨toLex (w.since, o), by rw [hw]; rfl⟩
  obtain ⟨sinces, hsinces, hin⟩ := mapM_some_mem hwaits
  refine ⟨_, decide (sinces.max?.map (·.2) = some owner), hcycle, howner, ?_, ?_⟩
  · simp only [verdict, hlast, hmembers, Option.bind_eq_bind, Option.bind_some, hsinces]
  · rw [decide_eq_true_iff, Option.map_eq_some_iff, f.latest_iff hcycle howner]
    constructor
    · rintro ⟨x, hmax, hxo⟩ o ho w w' hw hw'
      have hx := List.max?_eq_some_iff.1 hmax
      obtain ⟨o', -, hx'⟩ := (hin x).1 hx.1
      obtain ⟨w₀, hw₀, rfl⟩ := Option.map_eq_some_iff.1 hx'
      obtain rfl : o' = owner := hxo
      rw [hw] at hw₀
      cases hw₀
      have hle := hx.2 (toLex (w'.since, o)) ((hin _).2 ⟨o, (hmem o).1 ho, by rw [hw']; rfl⟩)
      rcases Prod.Lex.le_iff.1 hle with hlt | heq
      · exact le_of_lt hlt
      · exact le_of_eq heq.1
    · intro hlatest
      obtain ⟨w, hw⟩ := hcycle.waits howner
      refine ⟨toLex (w.since, owner), List.max?_eq_some_iff.2 ⟨?_, ?_⟩, rfl⟩
      · exact (hin _).2 ⟨owner, List.mem_cons_self, by rw [hw]; rfl⟩
      · intro x hx
        obtain ⟨o, ho, hx'⟩ := (hin x).1 hx
        obtain ⟨w', hw', rfl⟩ := Option.map_eq_some_iff.1 hx'
        rw [Prod.Lex.le_iff]
        rcases lt_or_eq_of_le (hlatest o ((hmem o).2 ho) w w' hw hw') with hlt | heq
        · exact Or.inl hlt
        · obtain rfl := f.since_distinct o owner w' w hw' hw heq
          exact Or.inr ⟨heq, le_refl _⟩

/-- What the search comes to: no cycle the owner is on, or one, with the answer whether the
owner is the latest of it. -/
def Finds (f : Frozen Owner Lock Instant) (owner : Owner) (answer : Bool) : Prop :=
  (answer = false ∧ ¬ Relation.TransGen f.WaitsFor owner owner) ∨
    ∃ c, f.WaitCycle c ∧ owner ∈ c ∧ (answer = true ↔ f.Latest c owner)

/-- The search ends, with every pointer it follows in place. -/
theorem search_spec (f : Frozen Owner Lock Instant) (owner : Owner) (s : Search Owner)
    (h : Searching f owner s) : ∃ answer, search f owner s = some answer ∧
      Finds f owner answer := by
  fun_induction search f owner s with
  | case1 s htodo => exact ⟨false, rfl, Or.inl ⟨rfl, h.finished htodo⟩⟩
  | case2 s todo htodo =>
    have hmem := h.todo_recorded owner (htodo ▸ List.mem_cons_self)
    obtain ⟨last, hlast⟩ := exists_lookup hmem
    obtain ⟨c, answer, hc, howner, hverdict, hlatest⟩ := verdict_spec h.recorded hlast
    exact ⟨answer, hverdict, Or.inr ⟨c, hc, howner, hlatest⟩⟩
  | case3 s o todo htodo hne hseen ih =>
    apply ih
    apply h.pass htodo hne _ (Or.inl hseen)
    intro x
    constructor
    · exact Or.inr
    · rintro (rfl | hx)
      · exact hseen
      · exact hx
  | case4 s o todo htodo hne hseen hw ih =>
    exact ih (h.pass htodo hne (fun x => List.mem_cons) (Or.inr hw))
  | case5 s o todo htodo hne hseen w hw blockers ih =>
    exact ih (h.expand htodo hne hw)

theorem deadlocked_spec (f : Frozen Owner Lock Instant) (hw : f.waits.lookup owner = some w) :
    ∃ answer, deadlocked f owner w.lock w.exclusive = some answer ∧
      Finds f owner answer := by
  have hbs : ∀ b ∈ f.blockers owner w.lock w.exclusive, f.WaitsFor owner b :=
    fun b hb => ⟨w, hw, hb⟩
  have hfold : ∀ (bs : List Owner) (via : List (Owner × Owner)), bs.Nodup →
      (∀ b ∈ bs, b ∉ via.map Prod.fst) →
      bs.foldl (fun via b => (b, owner) :: via) via = bs.foldl (reach owner) via := by
    intro bs
    induction bs with
    | nil => intro via _ _; rfl
    | cons b bs ih =>
      intro via hnodup hnew
      rw [List.nodup_cons] at hnodup
      rw [List.forall_mem_cons] at hnew
      rw [List.foldl_cons, List.foldl_cons, reach, if_neg hnew.1]
      apply ih _ hnodup.2
      intro x hx
      rw [List.map_cons, List.mem_cons, not_or]
      exact ⟨fun heq : x = b => hnodup.1 (heq ▸ hx), hnew.2 x hx⟩
  have hstart := recorded_foldl f _ (.nil : Recorded f.WaitsFor owner []) (Or.inl rfl) hbs
  apply search_spec
  rw [hfold _ [] (f.blockers_nodup owner w.lock w.exclusive) (by simp)]
  constructor
  · exact hstart.1
  · exact fun b hb => hstart.2 b (Or.inr hb)
  · exact List.not_mem_nil
  · rintro o (rfl | ho) b ⟨w', hw', hb⟩
    · rw [hw] at hw'
      cases hw'
      exact Or.inl hb
    · exact absurd ho List.not_mem_nil

/-! ## Who is refused -/

namespace Frozen

/-- The owner waits, and `deadlocked` says its request must give up. -/
def Refused (f : Frozen Owner Lock Instant) (owner : Owner) : Prop :=
  ∃ w, f.waits.lookup owner = some w ∧ deadlocked f owner w.lock w.exclusive = some true

theorem Refused.latest {f : Frozen Owner Lock Instant} {owner : Owner}
    (h : f.Refused owner) : ∃ c, f.WaitCycle c ∧ f.Latest c owner := by
  obtain ⟨w, hw, hrefused⟩ := h
  obtain ⟨answer, hanswer, hfinds⟩ := deadlocked_spec f hw
  rw [hrefused] at hanswer
  cases hanswer
  rcases hfinds with ⟨habsurd, -⟩ | ⟨c, hc, -, hlatest⟩
  · cases habsurd
  · exact ⟨c, hc, hlatest.1 rfl⟩

/-- Of all owners that wait for themselves, the last to begin waiting is refused: it is the
latest of whichever cycle its search finds. -/
theorem exists_refused (f : Frozen Owner Lock Instant) {a : Owner}
    (ha : Relation.TransGen f.WaitsFor a a) :
    ∃ c owner, f.WaitCycle c ∧ owner ∈ c ∧ f.Refused owner := by
  let circular : Set (Owner × Wait Lock Instant) :=
    {p | f.waits.lookup p.1 = some p.2 ∧ Relation.TransGen f.WaitsFor p.1 p.1}
  have hfinite : circular.Finite := by
    apply (List.finite_toSet f.waits).subset
    rintro ⟨o, w⟩ ⟨hw, -⟩
    obtain ⟨l₁, l₂, hsplit, -⟩ := List.lookup_eq_some_iff.1 hw
    show (o, w) ∈ f.waits
    rw [hsplit]
    simp
  obtain ⟨wa, hwa⟩ := waits_of_waitsFor ha
  obtain ⟨⟨owner, w⟩, ⟨hw, hself⟩, hmax⟩ :=
    Set.exists_max_image circular (fun p => p.2.since) hfinite ⟨(a, wa), hwa, ha⟩
  obtain ⟨answer, hanswer, hfinds⟩ := deadlocked_spec f hw
  rcases hfinds with ⟨-, hnone⟩ | ⟨c, hc, howner, hlatest⟩
  · exact absurd hself hnone
  · have hrefused : answer = true := by
      rw [hlatest, f.latest_iff hc howner]
      intro o ho w₁ w' hw₁ hw'
      rw [show f.waits.lookup owner = some w from hw] at hw₁
      cases hw₁
      exact hmax (o, w') ⟨hw', transGen_of_mem_cycle hc.chain ho⟩
    exact ⟨c, owner, hc, howner, w, hw, hrefused ▸ hanswer⟩

theorem latest_unique (f : Frozen Owner Lock Instant) {c : Cycle Owner} {o o' : Owner}
    (h : f.Latest c o) (h' : f.Latest c o') : o = o' := by
  obtain ⟨ho, w, hw, hle⟩ := h
  obtain ⟨ho', w', hw', hle'⟩ := h'
  obtain ⟨v', hv', hv'w⟩ := hle o' ho'
  obtain ⟨v, hv, hvw'⟩ := hle' o ho
  rw [hw] at hv
  rw [hw'] at hv'
  cases hv
  cases hv'
  exact f.since_distinct o o' w w' hw hw' (le_antisymm hvw' hv'w)

end Frozen

/-- Deadlock detection.  The search ends for every owner that waits; it says yes only to
the latest of a cycle of waits; where owners wait in a circle, it says yes to one on a
cycle; and where there is one simple cycle, to exactly one owner. -/
theorem deadlocked_sound_complete (f : Frozen Owner Lock Instant) :
    (∀ owner w, f.waits.lookup owner = some w →
      ∃ answer, deadlocked f owner w.lock w.exclusive = some answer ∧
        (answer = true → ∃ c, f.WaitCycle c ∧ f.Latest c owner)) ∧
    (∀ a, Relation.TransGen f.WaitsFor a a →
      ∃ c owner, f.WaitCycle c ∧ owner ∈ c ∧ f.Refused owner) ∧
    ((∃! c, f.WaitCycle c) → ∃! owner, f.Refused owner) := by
  refine ⟨?_, fun a ha => f.exists_refused ha, ?_⟩
  · intro owner w hw
    obtain ⟨answer, hanswer, -⟩ := deadlocked_spec f hw
    refine ⟨answer, hanswer, ?_⟩
    rintro rfl
    exact Frozen.Refused.latest ⟨w, hw, hanswer⟩
  · rintro ⟨c, hc, honly⟩
    obtain ⟨a, ha⟩ : ∃ a, a ∈ c := by
      induction c using Cycle.induction_on with
      | nil => exact absurd rfl hc.ne_nil
      | cons a l _ => exact ⟨a, by simp⟩
    obtain ⟨-, owner, -, -, hrefused⟩ :=
      f.exists_refused (transGen_of_mem_cycle hc.chain ha)
    refine ⟨owner, hrefused, ?_⟩
    intro other hother
    obtain ⟨c₁, hc₁, hlatest₁⟩ := hrefused.latest
    obtain ⟨c₂, hc₂, hlatest₂⟩ := Frozen.Refused.latest hother
    rw [honly c₁ hc₁] at hlatest₁
    rw [honly c₂ hc₂] at hlatest₂
    exact f.latest_unique hlatest₂ hlatest₁

/-! ## Two owners -/

/-- Owner 0 holds lock 0 and has asked for lock 1 exclusively; then owner 1, which has
lock 1 shared, has asked for lock 0. -/
def crossed : Frozen Nat Nat Nat where
  locks lock :=
    if lock = 0 then { shared := [], exclusive := some 0, waiting := [] }
    else { shared := [1], exclusive := none, waiting := [0] }
  waits := [(0, ⟨1, true, 5⟩), (1, ⟨0, false, 8⟩)]
  since_distinct := by
    intro o o' w w' hw hw' hsince
    simp only [List.lookup_cons, List.lookup_nil] at hw hw'
    grind

theorem crossed_waitsFor {o b : Nat} :
    crossed.WaitsFor o b ↔ o = 0 ∧ b = 1 ∨ o = 1 ∧ b = 0 := by
  rw [Frozen.waitsFor_iff]
  by_cases h0 : o = 0
  · subst h0
    simp [crossed]
    omega
  · by_cases h1 : o = 1
    · subst h1
      simp [crossed, List.lookup_cons]
      omega
    · have hnone : crossed.waits.lookup o = none := by
        simp [crossed, List.lookup_eq_none_iff, h0, h1]
      simp [hnone, h0, h1]

theorem crossed_cycle {c : Cycle Nat} (hc : crossed.WaitCycle c) : c = ([0, 1] : List Nat) := by
  induction c using Quotient.inductionOn with
  | _ l =>
    change crossed.WaitCycle (l : Cycle Nat) at hc
    obtain ⟨hne, hnodup, hchain⟩ := hc
    rcases l with _ | ⟨a, _ | ⟨b, _ | ⟨x, rest⟩⟩⟩
    · exact absurd rfl hne
    · simp [Cycle.chain_coe_cons, crossed_waitsFor] at hchain
      omega
    · simp only [Cycle.chain_coe_cons] at hchain
      rcases crossed_waitsFor.mp hchain.rel with ⟨rfl, rfl⟩ | ⟨rfl, rfl⟩
      · rfl
      · exact Quotient.sound ⟨1, rfl⟩
    · simp only [Cycle.chain_coe_cons, List.cons_append, List.isChain_cons_cons,
        crossed_waitsFor] at hchain
      simp only [Cycle.nodup_coe_iff, List.nodup_cons, List.mem_cons, not_or] at hnodup
      omega

/-- The two wait for each other, and that is the only cycle: the later one is refused. -/
theorem deadlocked_sound_complete_crossed :
    (∃! owner, crossed.Refused owner) ∧ crossed.Refused 1 := by
  have honly : ∃! owner, crossed.Refused owner := by
    refine (deadlocked_sound_complete crossed).2.2 ⟨_, ⟨by decide, by decide, ?_⟩, fun _ =>
      crossed_cycle⟩
    simp [Cycle.chain_coe_cons, crossed_waitsFor]
  obtain ⟨owner, hrefused, -⟩ := id honly
  obtain ⟨c, hc, howner, w, hw, hlatest⟩ := hrefused.latest
  obtain rfl := crossed_cycle hc
  obtain ⟨w', hw', hle⟩ := hlatest 1 (by simp)
  cases hw'
  rcases (by simpa using howner : owner = 0 ∨ owner = 1) with rfl | rfl
  · cases hw
    exact absurd hle (by decide)
  · exact ⟨honly, hrefused⟩

end SquealDb.Conn.TableLock
