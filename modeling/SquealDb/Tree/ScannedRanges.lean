import Mathlib.Data.List.Sort
import SquealDb.Tree.RangeScan

/-!
# The rows of a range scan

What a cursor over key ranges yields is told by the rows still ahead of it: those of the
range it reads, then all of each range behind it. A step takes the first of them, or moves
on to the next range's start.
-/

namespace SquealDb.Tree

open Codec Lib

variable {ρ τ : Type}

/-! ## The tree that is read -/

/-- A tree of record keys of `n` fields, that no write touches. -/
structure IndexTree.Keyed (t : IndexTree ρ) (sh : Shape TreeKey) (alloc n : Nat) : Prop where
  still : Still t.store t.root sh alloc
  fields : ∀ row, Still.Has t.store sh row → ∃ k, row.1.fields = some k ∧ k.length = n
  known : ∀ m, t.remembered = some m → m = n

/-- All rows of the tree, in ascending order. -/
structure AllRows (t : IndexTree ρ) (sh : Shape TreeKey) (rows : List (TreeKey × ρ)) : Prop where
  ascending : (rows.map Prod.fst).Pairwise (· < ·)
  mem_iff : ∀ row, row ∈ rows ↔ Still.Has t.store sh row

/-- Rows of which no two have one key are told by what they hold. -/
theorem eq_of_mem_iff {rows rows' : List (TreeKey × ρ)}
    (h : (rows.map Prod.fst).Pairwise (· < ·)) (h' : (rows'.map Prod.fst).Pairwise (· < ·))
    (hmem : ∀ row, row ∈ rows ↔ row ∈ rows') : rows = rows' := by
  have : Std.Irrefl fun a b : TreeKey × ρ => a.1 < b.1 := ⟨fun a => lt_irrefl a.1⟩
  have : Std.Antisymm fun a b : TreeKey × ρ => a.1 < b.1 :=
    ⟨fun _ _ hab hba => absurd hba (lt_asymm hab)⟩
  exact List.Pairwise.eq_of_mem_iff (List.pairwise_map.mp h) (List.pairwise_map.mp h') hmem

/-- Where a property holds of a beginning of a list, dropping that leaves the others. -/
private theorem dropWhile_eq_filter {α : Type} {p : α → Bool} {l : List α}
    (h : l.Pairwise fun a b => p b = true → p a = true) :
    l.dropWhile p = l.filter fun a => !p a := by
  induction l with
  | nil => rfl
  | cons a l ih =>
    obtain ⟨hhead, htail⟩ := List.pairwise_cons.mp h
    cases ha : p a with
    | true => simp [ha, ih htail]
    | false =>
      have hnone : ∀ b ∈ l, p b = false := by
        intro b hb
        cases hpb : p b with
        | false => rfl
        | true => exact absurd (hhead b hb hpb) (by simp [ha])
      have hall : l.filter (fun a => !p a) = l :=
        List.filter_eq_self.mpr fun b hb => by simp [hnone b hb]
      simp [ha, hall]

/-! ## Where a scan of a range starts -/

theorem Bound.beforeStart_mono (start : Bound TreeKey) {a b : TreeKey} (h : a < b)
    (hb : start.beforeStart b = true) : start.beforeStart a = true := by
  cases start with
  | included k => exact decide_eq_true (lt_trans h (of_decide_eq_true hb))
  | excluded k => exact decide_eq_true (le_trans (le_of_lt h) (of_decide_eq_true hb))
  | unbounded => cases hb

/-- The key lies in the range. -/
def KeyRange.holds (r : KeyRange) (k : TreeKey) : Bool :=
  match k.fields with
  | some fields => r.position fields == .eq
  | none => false

namespace TreeKey

theorem id_of_fields {k : TreeKey} {fields : IndexKey} (h : k.fields = some fields) :
    k.id = .record fields := by
  unfold TreeKey.fields at h
  cases hid : k.id with
  | int n =>
    rw [hid] at h
    cases h
  | record f =>
    rw [hid] at h
    cases h
    rfl

theorem cmp_of_fields {a b : TreeKey} {f g : IndexKey} (ha : a.fields = some f)
    (hb : b.fields = some g) : a.cmp b = cmpValues f g := by
  rw [cmp, id_of_fields ha, id_of_fields hb]
  rfl

theorem cmp_ofId {f : IndexKey} {b : TreeKey} {g : IndexKey} (hb : b.fields = some g) :
    (ofId (.record f)).cmp b = cmpValues f g := by
  rw [cmp_of_fields rfl hb]
  have htight : IndexKey.tight g = g := by
    have heq := b.tight_eq
    rw [id_of_fields hb] at heq
    exact DBIdType.record.inj heq
  calc cmpValues (IndexKey.tight f) g = cmpValues (IndexKey.tight f) (IndexKey.tight g) := by
        rw [htight]
    _ = cmpValues f g := cmpValues_tight f g

end TreeKey

namespace KeyRange

variable {r : KeyRange} {k : TreeKey} {n : Nat}

theorem holds_iff {fields : IndexKey} (h : k.fields = some fields) :
    r.holds k = (r.position fields == .eq) := by
  rw [holds, h]

/-- The key `range_start` builds is never behind a key of the range. -/
theorem start_not_before {fields : IndexKey} (hfields : k.fields = some fields)
    (hlen : fields.length = n) (hfit : r.startFields.length ≤ n) (hholds : r.holds k = true) :
    (Bound.included (TreeKey.ofId (.record (r.start n)))).beforeStart k = false := by
  rw [holds_iff hfields] at hholds
  have hle := r.start_le (beq_iff_eq.mp hholds) (hlen ▸ hfit)
  rw [hlen, ← TreeKey.cmp_ofId hfields] at hle
  exact decide_eq_false (not_lt.mpr (TreeKey.le_iff.mpr hle))

/-- The values a start is built of can stand in a key. -/
def Storable (r : KeyRange) : Prop := ∀ v ∈ r.startFields, v.validate = .ok ()

theorem newFromOwned_start (h : r.Storable) (n : Nat) :
    IndexKey.newFromOwned (r.start n) = .ok (r.start n) := by
  rw [IndexKey.newFromOwned_iff]
  intro v hv
  rcases List.mem_append.mp hv with hv | hv
  · exact h v hv
  · rw [List.eq_of_mem_replicate hv]
    rfl

end KeyRange

namespace IndexTree.Keyed

variable {t : IndexTree ρ} {sh : Shape TreeKey} {alloc n : Nat} {rows : List (TreeKey × ρ)}

/-- The first leaf, at which every scan that has no start begins. -/
theorem firstLeaf (h : t.Keyed sh alloc n) : ∃ leaf, sh.linked leaf ∧ sh.level leaf = 0 ∧
    sh.low leaf = ⊥ ∧ Comes (fun fuel => Scan.lift (firstLeafPage t.store fuel t.root))
      (t.store leaf) := by
  obtain ⟨leaf, hleaf, hzero, hlow, m, hfind⟩ :=
    h.still.firstLeafPage_total h.still.tree.rooted.1 h.still.tree.rooted.2.1
  refine ⟨leaf, hleaf, hzero, hlow, m, fun fuel hfuel => ?_⟩
  show Scan.lift (firstLeafPage t.store fuel t.root) = _
  rw [hfind fuel hfuel]
  rfl

theorem exists_rows (h : t.Keyed sh alloc n) : ∃ rows, AllRows t sh rows := by
  obtain ⟨leaf, hleaf, hzero, hlow, -⟩ := h.firstLeaf
  obtain ⟨rows, -, hascending, -, hmem⟩ := h.still.exists_chain hleaf hzero
  refine ⟨rows, hascending, fun row => ?_⟩
  rw [hmem]
  constructor
  · rintro ⟨q, hq, hq0, -, hrow⟩
    exact ⟨q, hq, hq0, hrow⟩
  · rintro ⟨q, hq, hq0, hrow⟩
    exact ⟨q, hq, hq0, hlow ▸ bot_le, hrow⟩

theorem keyFields_comes (h : t.Keyed sh alloc n) :
    ∃ len, Comes (fun fuel => t.keyFields fuel) len ∧ ∀ m, len = some m → m = n := by
  unfold IndexTree.keyFields
  cases hknown : t.remembered with
  | some m =>
      exact ⟨some m, Comes.pure (some m), fun _ heq => Option.some.inj heq ▸ h.known m hknown⟩
  | none =>
    obtain ⟨leaf, hleaf, hzero, -, hfirst⟩ := h.firstLeaf
    cases hhead : (t.store leaf).rows.head? with
    | none =>
      refine ⟨none, Comes.bind hfirst ?_, nofun⟩
      simp only [shownFields, hhead]
      exact Comes.pure none
    | some entry =>
      obtain ⟨k, hk, hlen⟩ := h.fields entry ⟨leaf, hleaf, hzero, List.mem_of_head? hhead⟩
      refine ⟨some k.length, Comes.bind hfirst ?_, fun _ heq => Option.some.inj heq ▸ hlen⟩
      simp only [shownFields, hhead, hk]
      exact Comes.pure (some k.length)

theorem rangeKey_comes {r : KeyRange} (hfit : r.startFields.length ≤ n) (hr : r.Storable) :
    rangeKey r n = Pure.pure (.included (TreeKey.ofId (.record (r.start n)))) := by
  rw [rangeKey, if_neg (Nat.not_lt.mpr hfit), KeyRange.newFromOwned_start hr]

/-- The start of a range lies before no row of it. -/
theorem rangeStart_comes (h : t.Keyed sh alloc n) (hrows : AllRows t sh rows) {r : KeyRange}
    (hfit : r.startFields.length ≤ n) (hr : r.Storable) :
    ∃ start, Comes (fun fuel => t.rangeStart fuel r) start ∧
      ∀ row ∈ rows, r.holds row.1 = true → start.beforeStart row.1 = false := by
  obtain ⟨len, hlen, heq⟩ := h.keyFields_comes
  unfold IndexTree.rangeStart
  cases len with
  | none => exact ⟨.unbounded, Comes.bind hlen (Comes.pure _), fun _ _ _ => rfl⟩
  | some m =>
    obtain rfl := heq m rfl
    refine ⟨.included (TreeKey.ofId (.record (r.start m))), Comes.bind hlen ?_, ?_⟩
    · simp only [rangeKey_comes hfit hr]
      exact Comes.pure _
    · intro row hrow hholds
      obtain ⟨k, hk, hlength⟩ := h.fields row ((hrows.mem_iff row).mp hrow)
      exact KeyRange.start_not_before hk hlength hfit hholds

end IndexTree.Keyed

/-! ## The rows ahead of a cursor -/

/-- The rows of the leaves behind a leaf. -/
def Behind (store : PageId → Page TreeKey ρ) (leaf : Page TreeKey ρ)
    (rest : List (TreeKey × ρ)) : Prop :=
  (nextLeafPage store leaf = none ∧ rest = []) ∨
    ∃ next, nextLeafPage store leaf = some next ∧ Chain store next rest

theorem Chain.behind {store : PageId → Page TreeKey ρ} {leaf : Page TreeKey ρ}
    {rows : List (TreeKey × ρ)} (h : Chain store leaf rows) :
    ∃ rest, rows = leaf.rows ++ rest ∧ Behind store leaf rest := by
  cases h with
  | last hnext => exact ⟨[], (List.append_nil _).symm, .inl ⟨hnext, rfl⟩⟩
  | next hnext hrest => exact ⟨_, rfl, .inr ⟨_, hnext, hrest⟩⟩

/-- The rows that reading on from here comes to. -/
def Ahead (store : PageId → Page TreeKey ρ) (iter : LeafEntries ρ) (leaf : Page TreeKey ρ)
    (rows : List (TreeKey × ρ)) : Prop :=
  ∃ rest, rows = iter.left leaf ++ rest ∧ Behind store leaf rest

namespace IndexTree.Keyed

variable {t : IndexTree ρ} {sh : Shape TreeKey} {alloc n : Nat} {rows : List (TreeKey × ρ)}

/-- From a leaf that begins before all rows from the start on, those rows are ahead. -/
theorem ahead_of_leaf (h : t.Keyed sh alloc n) (hrows : AllRows t sh rows) {start : Bound TreeKey}
    {p : PageId} (hp : sh.linked p) (hlevel : sh.level p = 0)
    (hlow : ∀ k, start.beforeStart k = false → sh.low p ≤ k)
    (htop : ∀ high, sh.high p = some high → ∀ k, high ≤ k → start.beforeStart k = false) :
    Ahead t.store (LeafEntries.from' start) (t.store p)
      (rows.filter fun row => !start.beforeStart row.1) := by
  obtain ⟨all, hchain, hascending, hafter, hmem⟩ := h.still.exists_chain hp hlevel
  obtain ⟨rest, hall, hbehind⟩ := hchain.behind
  refine ⟨rest, ?_, hbehind⟩
  have hpairs : all.Pairwise fun a b => a.1 < b.1 := List.pairwise_map.mp hascending
  -- what is left of the chain is what does not lie before the start
  have hleft : (LeafEntries.from' start).left (t.store p) ++ rest =
      all.filter fun row => !start.beforeStart row.1 := by
    have hleaf : ((t.store p).rows.dropWhile fun row => start.beforeStart row.1) =
        (t.store p).rows.filter fun row => !start.beforeStart row.1 :=
      dropWhile_eq_filter ((List.pairwise_map.mp (h.still.rows_ascending hp hlevel)).imp
        fun hlt => start.beforeStart_mono hlt)
    have hrest : (rest.filter fun row => !start.beforeStart row.1) = rest := by
      apply List.filter_eq_self.mpr
      intro row hrow
      have hmem' := (hmem row).mp (hall ▸ List.mem_append_right _ hrow)
      obtain ⟨q, hq, hq0, hle, hin⟩ := hmem'
      have hne : p ≠ q := by
        rintro rfl
        have happend := (List.pairwise_append.mp (hall ▸ hpairs)).2.2 row hin row hrow
        exact lt_irrefl _ happend
      obtain ⟨high, hhigh, hbefore⟩ :=
        h.still.before_of_le hp hq (hlevel.trans hq0.symm) hle hne
      rw [htop high hhigh row.1 (le_trans hbefore (h.still.rows_range hq hq0 hin).1)]
      rfl
    rw [hall, List.filter_append, hrest]
    exact congrArg (· ++ rest) hleaf
  rw [hleft]
  apply eq_of_mem_iff
  · exact List.pairwise_map.mpr ((List.pairwise_map.mp hrows.ascending).filter _)
  · exact List.pairwise_map.mpr (hpairs.filter _)
  · intro row
    rw [List.mem_filter, List.mem_filter, hrows.mem_iff, hmem]
    constructor
    · rintro ⟨⟨q, hq, hq0, hrow⟩, hstart⟩
      refine ⟨⟨q, hq, hq0, ?_, hrow⟩, hstart⟩
      have hle := hlow row.1 (by simpa using hstart)
      by_contra hnot
      obtain ⟨high, hhigh, hbefore⟩ := h.still.before_of_le hq hp (hq0.trans hlevel.symm)
        (le_of_lt (not_le.mp hnot)) fun heq => hnot (heq ▸ le_refl _)
      have hlt := (h.still.rows_range hq hq0 hrow).2
      rw [Shape.top, hhigh] at hlt
      exact absurd (lt_of_lt_of_le hlt (le_trans hbefore hle)) (lt_irrefl _)
    · rintro ⟨⟨q, hq, hq0, -, hrow⟩, hstart⟩
      exact ⟨⟨q, hq, hq0, hrow⟩, hstart⟩

/-- The leaf a scan starts at has the rows from the start on ahead. -/
theorem startLeaf_comes (h : t.Keyed sh alloc n) (hrows : AllRows t sh rows)
    (start : Bound TreeKey) : ∃ leaf, Comes (fun fuel => t.startLeaf fuel start) leaf ∧
      Ahead t.store (LeafEntries.from' start) leaf
        (rows.filter fun row => !start.beforeStart row.1) := by
  have hfind : ∀ k, ∃ leaf, sh.linked leaf ∧ sh.level leaf = 0 ∧ sh.Covers leaf k ∧
      Comes (fun fuel => Scan.lift (findLeafPage t.store k fuel t.root)) (t.store leaf) := by
    intro k
    have hlow : sh.low t.root ≤ k := h.still.tree.rooted.2.1 ▸ bot_le
    obtain ⟨leaf, hleaf, hzero, hcovers, m, hfind⟩ :=
      h.still.findLeafPage_total h.still.tree.rooted.1 hlow
    refine ⟨leaf, hleaf, hzero, hcovers, m, fun fuel hfuel => ?_⟩
    show Scan.lift (findLeafPage t.store k fuel t.root) = _
    rw [hfind fuel hfuel]
    rfl
  cases start with
  | included k =>
    obtain ⟨leaf, hleaf, hzero, hcovers, hcomes⟩ := hfind k
    refine ⟨t.store leaf, hcomes, h.ahead_of_leaf hrows hleaf hzero ?_ ?_⟩
    · intro k' hk'
      exact le_trans hcovers.1 (not_lt.mp (of_decide_eq_false hk'))
    · intro high hhigh k' hk'
      exact decide_eq_false (not_lt.mpr (le_trans (le_of_lt (hcovers.2 high hhigh)) hk'))
  | excluded k =>
    obtain ⟨leaf, hleaf, hzero, hcovers, hcomes⟩ := hfind k
    refine ⟨t.store leaf, hcomes, h.ahead_of_leaf hrows hleaf hzero ?_ ?_⟩
    · intro k' hk'
      exact le_trans hcovers.1 (le_of_lt (not_le.mp (of_decide_eq_false hk')))
    · intro high hhigh k' hk'
      exact decide_eq_false (not_le.mpr (lt_of_lt_of_le (hcovers.2 high hhigh) hk'))
  | unbounded =>
    obtain ⟨leaf, hleaf, hzero, hlow, hcomes⟩ := h.firstLeaf
    refine ⟨t.store leaf, hcomes, h.ahead_of_leaf hrows hleaf hzero ?_ ?_⟩
    · exact fun k' _ => hlow ▸ bot_le
    · exact fun _ _ _ _ => rfl

end IndexTree.Keyed

namespace RangeCursor

variable {t : IndexTree ρ} {c : RangeCursor ρ} {rows : List (TreeKey × ρ)}

section Entries

variable {fuel : Nat}

theorem nextIndexEntry_cons {entry : TreeKey × ρ} {left : List (TreeKey × ρ)}
    (hleft : c.currentIter.left c.currentLeaf = entry :: left) :
    c.nextIndexEntry t (fuel + 1) =
      Pure.pure
        (some entry, { c with currentIter := { c.currentIter with entries := some left } }) := by
  rw [nextIndexEntry, LeafEntries.advance, hleft]

theorem nextIndexEntry_last (hleft : c.currentIter.left c.currentLeaf = [])
    (hnext : nextLeafPage t.store c.currentLeaf = none) : c.nextIndexEntry t (fuel + 1) =
      Pure.pure (none, { c with currentIter := { c.currentIter with entries := some [] } }) := by
  rw [nextIndexEntry, LeafEntries.advance, hleft]
  simp only [hnext]

theorem nextIndexEntry_next {leaf : Page TreeKey ρ}
    (hleft : c.currentIter.left c.currentLeaf = [])
    (hnext : nextLeafPage t.store c.currentLeaf = some leaf) : c.nextIndexEntry t (fuel + 1) =
      { c with currentLeaf := leaf, currentIter := LeafEntries.from' .unbounded }.nextIndexEntry
        t fuel := by
  rw [nextIndexEntry, LeafEntries.advance, hleft]
  simp only [hnext]

end Entries

theorem left_unbounded (leaf : Page TreeKey ρ) :
    (LeafEntries.from' .unbounded).left leaf = leaf.rows := by
  show leaf.rows.dropWhile (fun _ => false) = leaf.rows
  cases leaf.rows <;> rfl

/-- What the reading of an entry comes to where these rows are ahead. -/
def ComesToFirst (t : IndexTree ρ) (c : RangeCursor ρ) (rows : List (TreeKey × ρ)) : Prop :=
  ∃ leaf iter, Comes (fun fuel => c.nextIndexEntry t fuel)
      (rows.head?, { c with currentLeaf := leaf, currentIter := iter }) ∧
    Ahead t.store iter leaf rows.tail

theorem comesToFirst_cons {entry : TreeKey × ρ} {left rest : List (TreeKey × ρ)}
    (hleft : c.currentIter.left c.currentLeaf = entry :: left)
    (hbehind : Behind t.store c.currentLeaf rest) : ComesToFirst t c (entry :: left ++ rest) :=
  ⟨c.currentLeaf, { c.currentIter with entries := some left },
    Comes.loop (fun _ => nextIndexEntry_cons hleft) (Comes.pure _), rest, rfl, hbehind⟩

theorem comesToFirst_last (hleft : c.currentIter.left c.currentLeaf = [])
    (hnext : nextLeafPage t.store c.currentLeaf = none) : ComesToFirst t c [] :=
  ⟨c.currentLeaf, { c.currentIter with entries := some [] },
    Comes.loop (fun _ => nextIndexEntry_last hleft hnext) (Comes.pure _),
    [], rfl, .inl ⟨hnext, rfl⟩⟩

theorem comesToFirst_next {leaf : Page TreeKey ρ}
    (hleft : c.currentIter.left c.currentLeaf = [])
    (hnext : nextLeafPage t.store c.currentLeaf = some leaf)
    (h : ComesToFirst t { c with currentLeaf := leaf, currentIter := LeafEntries.from' .unbounded }
      rows) : ComesToFirst t c rows := by
  obtain ⟨leaf', iter, hcomes, hahead⟩ := h
  exact ⟨leaf', iter, Comes.loop (fun _ => nextIndexEntry_next hleft hnext) hcomes, hahead⟩

/-- A leaf that the links lead to is read from its beginning. -/
theorem comesToFirst_of_chain {leaf : Page TreeKey ρ} (h : Chain t.store leaf rows) :
    ComesToFirst t { c with currentLeaf := leaf, currentIter := LeafEntries.from' .unbounded }
      rows := by
  induction h with
  | @last leaf hnext =>
    cases hrows : leaf.rows with
    | nil => exact comesToFirst_last ((left_unbounded leaf).trans hrows) hnext
    | cons entry left =>
      rw [← List.append_nil (entry :: left)]
      exact comesToFirst_cons ((left_unbounded leaf).trans hrows) (.inl ⟨hnext, rfl⟩)
  | @next leaf next rest hnext hrest ih =>
    cases hrows : leaf.rows with
    | nil => exact comesToFirst_next ((left_unbounded leaf).trans hrows) hnext ih
    | cons entry left =>
      exact comesToFirst_cons ((left_unbounded leaf).trans hrows) (.inr ⟨next, hnext, hrest⟩)

/-- What is read next is the first of the rows ahead. -/
theorem nextIndexEntry_comes (h : Ahead t.store c.currentIter c.currentLeaf rows) :
    ComesToFirst t c rows := by
  obtain ⟨rest, rfl, hbehind⟩ := h
  cases hleft : c.currentIter.left c.currentLeaf with
  | cons entry left => exact comesToFirst_cons hleft hbehind
  | nil =>
    rcases hbehind with ⟨hnext, rfl⟩ | ⟨next, hnext, hchain⟩
    · exact comesToFirst_last hleft hnext
    · exact comesToFirst_next hleft hnext (comesToFirst_of_chain hchain)

end RangeCursor

/-! ## The rows that are due -/

/-- The rows of a range that the reader sees. -/
def KeyRange.seen (r : KeyRange) (sees : TreeKey × ρ → Option τ) (rows : List (TreeKey × ρ)) :
    List τ :=
  (rows.filter fun row => r.holds row.1).filterMap sees

/-- The rows of ranges, one range after another. -/
def seenOf (sees : TreeKey × ρ → Option τ) (rows : List (TreeKey × ρ)) (ranges : List KeyRange) :
    List τ :=
  ranges.flatMap fun r => r.seen sees rows

namespace RangeCursor

/-- A cursor over these ranges. -/
structure Over (c : RangeCursor ρ) (ranges : List KeyRange) : Prop where
  given : c.ranges = some ranges
  stop : c.stop = .unbounded
  start : ranges = [] → c.start = .unbounded

/-- The cursor reads the range at `i`, and these rows of the tree are ahead of it. -/
structure Reading (t : IndexTree ρ) (all : List (TreeKey × ρ)) (ranges : List KeyRange)
    (c : RangeCursor ρ) (i : Nat) (r : KeyRange) (rows : List (TreeKey × ρ)) : Prop where
  over_ranges : c.Over ranges
  idx : c.rangeIdx = i
  range : ranges[i]? = some r
  live : c.done = false
  ahead : Ahead t.store c.currentIter c.currentLeaf rows
  sublist : rows.Sublist all
  started : ∀ row ∈ rows, c.start.beforeStart row.1 = false

/-- These rows are what the cursor still yields. -/
inductive Pending (t : IndexTree ρ) (all : List (TreeKey × ρ)) (ranges : List KeyRange)
    (sees : TreeKey × ρ → Option τ) (c : RangeCursor ρ) : List τ → Prop
  | finished (hover : c.Over ranges) (hdone : c.done = true) : Pending t all ranges sees c []
  | ended (hover : c.Over ranges) (hidx : ranges.length ≤ c.rangeIdx)
      (hahead : Ahead t.store c.currentIter c.currentLeaf []) : Pending t all ranges sees c []
  | reading {i : Nat} {r : KeyRange} {rows : List (TreeKey × ρ)}
      (h : c.Reading t all ranges i r rows) :
      Pending t all ranges sees c (r.seen sees rows ++ seenOf sees all (ranges.drop (i + 1)))

theorem Pending.over_ranges {t : IndexTree ρ} {all : List (TreeKey × ρ)} {ranges : List KeyRange}
    {sees : TreeKey × ρ → Option τ} {c : RangeCursor ρ} {out : List τ}
    (h : Pending t all ranges sees c out) : c.Over ranges := by
  cases h with
  | finished hover _ => exact hover
  | ended hover _ _ => exact hover
  | reading h => exact h.over_ranges

section Steps

variable {t : IndexTree ρ} {sh : Shape TreeKey} {alloc n i : Nat} {all : List (TreeKey × ρ)}
  {ranges : List KeyRange} {sees : TreeKey × ρ → Option τ} {c : RangeCursor ρ} {r : KeyRange}
  {rows : List (TreeKey × ρ)} {out : List τ}

/-- A start that no row of the range lies before leaves all of them. -/
theorem seen_from_start {start : Bound TreeKey}
    (h : ∀ row ∈ all, r.holds row.1 = true → start.beforeStart row.1 = false) :
    r.seen sees (all.filter fun row => !start.beforeStart row.1) = r.seen sees all := by
  unfold KeyRange.seen
  rw [List.filter_filter]
  congr 1
  apply List.filter_congr
  intro row hrow
  cases hholds : r.holds row.1 with
  | false => rfl
  | true => simp [h row hrow hholds]

/-- Coming to a range, wherever it lies in the tree. -/
theorem place_comes (sees : TreeKey × ρ → Option τ) (hk : t.Keyed sh alloc n)
    (hall : AllRows t sh all)
    (hfit : r.startFields.length ≤ n) (hst : r.Storable) :
    ∃ start leaf, Comes (fun fuel => t.rangeStart fuel r) start ∧
      Comes (fun fuel => t.startLeaf fuel start) leaf ∧
      Ahead t.store (LeafEntries.from' start) leaf
        (all.filter fun row => !start.beforeStart row.1) ∧
      r.seen sees (all.filter fun row => !start.beforeStart row.1) = r.seen sees all := by
  obtain ⟨start, hstart, hbefore⟩ := hk.rangeStart_comes hall hfit hst
  obtain ⟨leaf, hleaf, hahead⟩ := hk.startLeaf_comes hall start
  exact ⟨start, leaf, hstart, hleaf, hahead, seen_from_start hbefore⟩

theorem started_of_filter {start : Bound TreeKey} :
    ∀ row ∈ all.filter (fun row => !start.beforeStart row.1),
      start.beforeStart row.1 = false := by
  intro row hrow
  simpa using (List.mem_filter.mp hrow).2

theorem nextRange_none (hover : c.Over ranges) (hnone : ranges[c.rangeIdx + 1]? = none)
    (fuel : Nat) :
    c.nextRange t fuel = Pure.pure (false, { c with rangeIdx := c.rangeIdx + 1 }) := by
  rw [nextRange, hover.given]
  simp only [hnone]

theorem nextRange_some (sees : TreeKey × ρ → Option τ) (hk : t.Keyed sh alloc n)
    (hall : AllRows t sh all)
    (hfit : r.startFields.length ≤ n) (hst : r.Storable) (hover : c.Over ranges)
    (hlive : c.done = false) (hsome : ranges[c.rangeIdx + 1]? = some r) :
    ∃ c' rows, Comes (fun fuel => c.nextRange t fuel) (true, c') ∧
      c'.Reading t all ranges (c.rangeIdx + 1) r rows ∧ r.seen sees rows = r.seen sees all := by
  obtain ⟨start, leaf, hstart, hleaf, hahead, hseen⟩ := place_comes sees hk hall hfit hst
  refine ⟨{ c with
      rangeIdx := c.rangeIdx + 1, start, currentLeaf := leaf,
      currentIter := LeafEntries.from' start }, _, ?_,
    ⟨⟨hover.given, hover.stop, ?_⟩, rfl, hsome, hlive, hahead, List.filter_sublist,
      started_of_filter⟩, hseen⟩
  · unfold nextRange
    rw [hover.given]
    simp only [hsome]
    exact Comes.bind hstart (Comes.bind hleaf (Comes.pure _))
  · rintro rfl
    cases hsome

variable {entry : TreeKey × ρ} {fields : IndexKey}

/-- What a round does at an entry from the start on. -/
theorem visit_eq (hover : c.Over ranges) (hrange : ranges[c.rangeIdx]? = some r)
    (hstart : c.start.beforeStart entry.1 = false) (hfields : entry.1.fields = some fields)
    (fuel : Nat) :
    visit t sees fuel c entry =
      let c' := { c with currentIter := { c.currentIter with unchecked := false } }
      match r.position fields with
      | .lt => Pure.pure (.again c')
      | .gt => do
        let (more, c') ← c'.nextRange t fuel
        if more then return .again c' else return .ends none { c' with done := true }
      | .eq =>
        match sees entry with
        | some row => Pure.pure (.ends (some row) c')
        | none => Pure.pure (.again c') := by
  have hposition : ∀ iter : LeafEntries ρ,
      ({ c with currentIter := iter } : RangeCursor ρ).rangePosition entry.1 =
        Pure.pure (r.position fields) := by
    intro iter
    simp only [rangePosition, hover.given, hrange, hfields]
    rfl
  have hpast : c.stop.pastEnd entry.1 = false := by
    rw [hover.stop]
    rfl
  rw [visit, hstart, Bool.and_false, if_neg Bool.false_ne_true]
  simp only [hposition, hpast, pure_bind]
  cases r.position fields <;> rfl

/-- The cursor yields these rows from here on. -/
def Yields (t : IndexTree ρ) (all : List (TreeKey × ρ)) (ranges : List KeyRange)
    (sees : TreeKey × ρ → Option τ) (c : RangeCursor ρ) (out : List τ) : Prop :=
  ∃ c', Comes (fun fuel => c.nextLoop t sees fuel) (out.head?, c') ∧
    Pending t all ranges sees c' out.tail

theorem yields_again {c' : RangeCursor ρ}
    (h : Comes (fun fuel => c.round t sees fuel) (.again c'))
    (hyields : Yields t all ranges sees c' out) : Yields t all ranges sees c out := by
  obtain ⟨last, hcomes, hpending⟩ := hyields
  exact ⟨last, Comes.loop (fun fuel => by rw [nextLoop]) (Comes.bind h hcomes), hpending⟩

theorem yields_ends {c' : RangeCursor ρ}
    (h : Comes (fun fuel => c.round t sees fuel) (.ends out.head? c'))
    (hpending : Pending t all ranges sees c' out.tail) : Yields t all ranges sees c out :=
  ⟨c', Comes.loop (fun fuel => by rw [nextLoop]) (Comes.bind h (Comes.pure _)), hpending⟩

/-- A round at the first of the rows ahead. -/
theorem round_comes (sees : TreeKey × ρ → Option τ)
    (h : c.Reading t all ranges i r (entry :: rows)) (hfields : entry.1.fields = some fields) :
    ∃ c' : RangeCursor ρ, c'.Reading t all ranges i r rows ∧ ∀ res,
      Comes (fun fuel => match r.position fields with
        | .lt => Pure.pure (.again c')
        | .gt => do
          let (more, c') ← c'.nextRange t fuel
          if more then return .again c' else return .ends none { c' with done := true }
        | .eq =>
          match sees entry with
          | some row => Pure.pure (.ends (some row) c')
          | none => Pure.pure (.again c')) res →
        Comes (fun fuel => c.round t sees fuel) res := by
  obtain ⟨leaf, iter, hcomes, hahead⟩ := nextIndexEntry_comes h.ahead
  refine ⟨{ c with currentLeaf := leaf, currentIter := { iter with unchecked := false } },
    ⟨⟨h.over_ranges.given, h.over_ranges.stop, h.over_ranges.start⟩, h.idx, h.range, h.live, hahead,
      (List.sublist_cons_self entry rows).trans h.sublist,
      fun row hrow => h.started row (List.mem_cons_of_mem _ hrow)⟩, fun res hres => ?_⟩
  refine Comes.bind hcomes (Comes.congr hres fun fuel => ?_)
  have hover : ({ c with currentLeaf := leaf, currentIter := iter } : RangeCursor ρ).Over ranges :=
    ⟨h.over_ranges.given, h.over_ranges.stop, h.over_ranges.start⟩
  exact visit_eq hover (h.idx ▸ h.range) (h.started entry List.mem_cons_self) hfields fuel

/-- The cursor moves on to the next range, or there is none. -/
theorem later_comes (sees : TreeKey × ρ → Option τ) (hk : t.Keyed sh alloc n)
    (hall : AllRows t sh all)
    (hfit : ∀ r ∈ ranges, r.startFields.length ≤ n) (hst : ∀ r ∈ ranges, r.Storable)
    (hover : c.Over ranges) (hlive : c.done = false)
    (hlater : ∀ {c' : RangeCursor ρ} {r' rows'}, c'.Reading t all ranges (c.rangeIdx + 1) r' rows' →
      Yields t all ranges sees c'
        (r'.seen sees rows' ++ seenOf sees all (ranges.drop (c.rangeIdx + 1 + 1)))) :
    (∃ c', Comes (fun fuel => c.nextRange t fuel) (true, c') ∧
        Yields t all ranges sees c' (seenOf sees all (ranges.drop (c.rangeIdx + 1)))) ∨
      Comes (fun fuel => c.nextRange t fuel) (false, { c with rangeIdx := c.rangeIdx + 1 }) ∧
        ranges.length ≤ c.rangeIdx + 1 := by
  cases hnext : ranges[c.rangeIdx + 1]? with
  | none =>
    refine .inr ⟨?_, List.getElem?_eq_none_iff.mp hnext⟩
    exact Comes.congr (Comes.pure _) fun fuel => nextRange_none hover hnext fuel
  | some r' =>
    have hmem := List.mem_of_getElem? hnext
    obtain ⟨c', rows', hcomes, hreading, hseen⟩ :=
      nextRange_some sees hk hall (hfit r' hmem) (hst r' hmem) hover hlive hnext
    refine .inl ⟨c', hcomes, ?_⟩
    have hyields := hlater hreading
    rw [hseen] at hyields
    obtain ⟨hlt, hget⟩ := List.getElem?_eq_some_iff.mp hnext
    rw [List.drop_eq_getElem_cons hlt, hget]
    exact hyields

theorem seenOf_drop_eq_nil {m : Nat} (h : ranges.length ≤ m) :
    seenOf sees all (ranges.drop m) = [] := by
  rw [List.drop_eq_nil_of_le h]
  rfl

theorem seen_cons_of_not (h : r.holds entry.1 = false) :
    r.seen sees (entry :: rows) = r.seen sees rows := by
  unfold KeyRange.seen
  rw [List.filter_cons_of_neg (by simp [h])]

theorem seen_cons_of_holds (h : r.holds entry.1 = true) :
    r.seen sees (entry :: rows) = (sees entry).toList ++ r.seen sees rows := by
  unfold KeyRange.seen
  have hfilter : (entry :: rows).filter (fun row => r.holds row.1) =
      entry :: rows.filter fun row => r.holds row.1 := List.filter_cons_of_pos h
  rw [hfilter, List.filterMap_cons]
  cases sees entry <;> rfl

/-- Behind a key that lies behind the range no key of it follows. -/
theorem seen_eq_nil_of_gt (hk : t.Keyed sh alloc n) (hall : AllRows t sh all)
    (hfields : entry.1.fields = some fields) (hsub : (entry :: rows).Sublist all)
    (hgt : r.position fields = .gt) :
    r.seen sees (entry :: rows) = [] := by
  have hkeys : ∀ row ∈ entry :: rows, ∃ k, row.1.fields = some k ∧ k.length = n :=
    fun row hrow => hk.fields row ((hall.mem_iff row).mp (hsub.subset hrow))
  obtain ⟨f, hf, hflen⟩ := hkeys entry List.mem_cons_self
  rw [hfields] at hf
  cases hf
  have hpairs := (List.pairwise_map.mp hall.ascending).sublist hsub
  have hnone : ∀ row ∈ entry :: rows, r.holds row.1 = false := by
    intro row hrow
    obtain ⟨k, hrowfields, hlen⟩ := hkeys row hrow
    have hbehind : r.position k = .gt := by
      rcases List.mem_cons.mp hrow with rfl | hrow
      · rw [hfields] at hrowfields
        cases hrowfields
        exact hgt
      · have hlt := (List.pairwise_cons.mp hpairs).1 row hrow
        have hle := TreeKey.le_iff.mp (le_of_lt hlt)
        rw [TreeKey.cmp_of_fields hfields hrowfields] at hle
        exact (r.position_mono (hflen.trans hlen.symm) hle).2 hgt
    rw [KeyRange.holds_iff hrowfields, hbehind]
    rfl
  unfold KeyRange.seen
  rw [List.filter_eq_nil_iff.mpr fun row hrow => by simp [hnone row hrow]]
  rfl

/-- A cursor that reads a range yields what is ahead of it there, and all that the ranges
behind have. -/
theorem yields_reading (hk : t.Keyed sh alloc n) (hall : AllRows t sh all)
    (hfit : ∀ r ∈ ranges, r.startFields.length ≤ n) (hst : ∀ r ∈ ranges, r.Storable)
    (h : c.Reading t all ranges i r rows) :
    Yields t all ranges sees c (r.seen sees rows ++ seenOf sees all (ranges.drop (i + 1))) := by
  induction hleft : ranges.length - i using Nat.strong_induction_on generalizing c i r rows with
  | _ left later =>
    induction rows generalizing c with
    | nil =>
      obtain ⟨leaf, iter, hcomes, hahead⟩ := nextIndexEntry_comes h.ahead
      obtain rfl := h.idx
      have hlt := (List.getElem?_eq_some_iff.mp h.range).1
      have hover : ({ c with currentLeaf := leaf, currentIter := iter } :
          RangeCursor ρ).Over ranges :=
        ⟨h.over_ranges.given, h.over_ranges.stop, h.over_ranges.start⟩
      rcases later_comes sees hk hall hfit hst hover h.live (fun hreading =>
        later (ranges.length - (c.rangeIdx + 1)) (by omega) hreading rfl) with
        ⟨c', hnext, hyields⟩ | ⟨hnext, hend⟩
      · exact yields_again (Comes.bind hcomes (Comes.bind hnext (Comes.pure _))) hyields
      · rw [seenOf_drop_eq_nil hend]
        exact yields_ends (Comes.bind hcomes (Comes.bind hnext (Comes.pure _)))
          (.ended ⟨hover.given, hover.stop, hover.start⟩ hend hahead)
    | cons entry rows ih =>
      obtain ⟨fields, hfields, -⟩ := hk.fields entry
        ((hall.mem_iff entry).mp (h.sublist.subset List.mem_cons_self))
      obtain ⟨c', hreading, hround⟩ := round_comes sees h hfields
      have hholds := KeyRange.holds_iff (r := r) hfields
      cases hpos : r.position fields with
      | lt =>
        rw [hpos] at hholds
        rw [seen_cons_of_not hholds]
        refine yields_again (hround (.again c') ?_) (ih hreading)
        simp only [hpos]
        exact Comes.pure _
      | eq =>
        rw [hpos] at hholds
        rw [seen_cons_of_holds hholds]
        cases hsees : sees entry with
        | none =>
          refine yields_again (hround (.again c') ?_) (ih hreading)
          simp only [hpos, hsees]
          exact Comes.pure _
        | some row =>
          refine yields_ends (hround (.ends row c') ?_) (.reading hreading)
          simp only [hpos, hsees]
          exact Comes.pure _
      | gt =>
        rw [seen_eq_nil_of_gt hk hall hfields h.sublist hpos]
        have hlt := (List.getElem?_eq_some_iff.mp h.range).1
        obtain rfl := hreading.idx
        rcases later_comes sees hk hall hfit hst hreading.over_ranges hreading.live
          (fun hreading =>
            later (ranges.length - (c'.rangeIdx + 1)) (by omega) hreading rfl) with
          ⟨c'', hnext, hyields⟩ | ⟨hnext, hend⟩
        · refine yields_again (hround (.again c'') ?_) hyields
          simp only [hpos]
          exact Comes.bind hnext (Comes.pure _)
        · rw [seenOf_drop_eq_nil hend]
          refine yields_ends (hround (.ends none
            { c' with rangeIdx := c'.rangeIdx + 1, done := true }) ?_)
            (.finished ⟨hreading.over_ranges.given, hreading.over_ranges.stop,
              hreading.over_ranges.start⟩ rfl)
          simp only [hpos]
          exact Comes.bind hnext (Comes.pure _)

/-- A step yields the first of the rows that are due. -/
theorem nextRef_comes (hk : t.Keyed sh alloc n) (hall : AllRows t sh all)
    (hfit : ∀ r ∈ ranges, r.startFields.length ≤ n) (hst : ∀ r ∈ ranges, r.Storable)
    (h : Pending t all ranges sees c out) :
    ∃ c', Comes (fun fuel => c.nextRef t sees fuel) (out.head?, c') ∧
      Pending t all ranges sees c' out.tail := by
  unfold nextRef
  cases h with
  | finished hover hdone =>
    refine ⟨c, ?_, .finished hover hdone⟩
    simp only [hdone]
    exact Comes.pure _
  | ended hover hidx hahead =>
    cases hdone : c.done with
    | true => exact ⟨c, Comes.pure _, .finished hover hdone⟩
    | false =>
      obtain ⟨leaf, iter, hcomes, hahead⟩ := nextIndexEntry_comes hahead
      have hnone : ranges[c.rangeIdx + 1]? = none := List.getElem?_eq_none_iff.mpr (by omega)
      have hover' : ({ c with currentLeaf := leaf, currentIter := iter } :
          RangeCursor ρ).Over ranges := ⟨hover.given, hover.stop, hover.start⟩
      have hnext := Comes.congr (Comes.pure (ε := StoreError) _)
        fun fuel => nextRange_none (t := t) hover' hnone fuel
      have hyields : Yields t all ranges sees c [] :=
        yields_ends (Comes.bind hcomes (Comes.bind hnext (Comes.pure _)))
          (.ended ⟨hover.given, hover.stop, hover.start⟩ (Nat.le_succ_of_le hidx) hahead)
      exact hyields
  | reading h =>
    rw [h.live]
    exact yields_reading hk hall hfit hst h

/-- So do any number of steps. -/
theorem nextRefs_comes (hk : t.Keyed sh alloc n) (hall : AllRows t sh all)
    (hfit : ∀ r ∈ ranges, r.startFields.length ≤ n) (hst : ∀ r ∈ ranges, r.Storable) (m : Nat)
    (h : Pending t all ranges sees c out) :
    ∃ c', Comes (fun fuel => c.nextRefs t sees fuel m) ((List.range m).map (out[·]?), c') ∧
      Pending t all ranges sees c' (out.drop m) := by
  induction m generalizing c out with
  | zero => exact ⟨c, Comes.pure _, h⟩
  | succ m ih =>
    obtain ⟨c₁, hfirst, hpending⟩ := nextRef_comes hk hall hfit hst h
    obtain ⟨c₂, hrest, hpending⟩ := ih hpending
    refine ⟨c₂, ?_, ?_⟩
    · have houts : (List.range (m + 1)).map (out[·]?) =
          out.head? :: (List.range m).map (out.tail[·]?) := by
        rw [List.range_succ_eq_map, List.map_cons, List.map_map, List.head?_eq_getElem?]
        simp only [List.getElem?_tail, Function.comp_def]
      rw [houts]
      exact Comes.bind hfirst (Comes.bind hrest (Comes.pure _))
    · rw [List.drop_tail] at hpending
      exact hpending

/-- A new cursor has all the ranges before it, and a reset leads back to it. -/
theorem newKeyRanges_comes (hk : t.Keyed sh alloc n) (hall : AllRows t sh all)
    (hfit : ∀ r ∈ ranges, r.startFields.length ≤ n) (hst : ∀ r ∈ ranges, r.Storable) :
    ∃ c₀, Comes (fun fuel => newKeyRanges t fuel ranges) c₀ ∧
      Pending t all ranges sees c₀ (seenOf sees all ranges) ∧
      ∀ c : RangeCursor ρ, c.Over ranges → Comes (fun fuel => c.reset t fuel) c₀ := by
  unfold newKeyRanges reset
  cases ranges with
  | nil =>
    obtain ⟨leaf, hleaf, hahead⟩ := hk.startLeaf_comes hall .unbounded
    refine ⟨⟨leaf, LeafEntries.from' .unbounded, .unbounded, .unbounded, some [], 0, true⟩,
      Comes.bind (Comes.pure _) (Comes.bind hleaf (Comes.pure _)),
      .finished ⟨rfl, rfl, fun _ => rfl⟩ rfl, fun c hover => ?_⟩
    have hrewind : ∀ fuel, rewind t fuel { c with rangeIdx := 0, done := false } =
        Pure.pure { c with rangeIdx := 0, done := true } := by
      intro fuel
      simp only [rewind, hover.given, List.head?_nil]
    refine Comes.bind (Comes.congr (Comes.pure _) hrewind) ?_
    simp only [hover.start rfl, hover.given, hover.stop]
    exact Comes.bind hleaf (Comes.pure _)
  | cons r ranges =>
    obtain ⟨start, leaf, hstart, hleaf, hahead, hseen⟩ := place_comes sees hk hall
      (hfit r List.mem_cons_self) (hst r List.mem_cons_self)
    have hreading : RangeCursor.Reading t all (r :: ranges)
        ⟨leaf, LeafEntries.from' start, start, .unbounded, some (r :: ranges), 0, false⟩ 0 r
        (all.filter fun row => !start.beforeStart row.1) :=
      ⟨⟨rfl, rfl, fun h => nomatch h⟩, rfl, rfl, rfl, hahead, List.filter_sublist,
        started_of_filter⟩
    have hpending : Pending t all (r :: ranges) sees _ (_ ++ seenOf sees all ranges) :=
      .reading hreading
    rw [hseen] at hpending
    refine ⟨_, Comes.bind hstart (Comes.bind hleaf (Comes.pure _)), hpending,
      fun c hover => ?_⟩
    have hrewind : Comes (fun fuel => rewind t fuel { c with rangeIdx := 0, done := false })
        { c with rangeIdx := 0, done := false, start } := by
      unfold rewind
      simp only [hover.given, List.head?_cons]
      exact Comes.bind hstart (Comes.pure _)
    refine Comes.bind hrewind ?_
    simp only [hover.given, hover.stop]
    exact Comes.bind hleaf (Comes.pure _)

end Steps

end RangeCursor

/-! ## The scan -/

/-- A scan of key ranges, over a tree of record keys of `n` fields that no write touches,
yields range by range the rows that lie in it and that the reader sees, ascending in each,
then none; a reset at any point leads back to the beginning. Along ascending keys the
position in a range is before, then within, then behind, and the padded start of a range is
not behind any key of it. -/
theorem key_ranges_scan {t : IndexTree ρ} {sh : Shape TreeKey} {alloc n : Nat}
    (hk : t.Keyed sh alloc n) {ranges : List KeyRange}
    (hfit : ∀ r ∈ ranges, r.startFields.length ≤ n) (hst : ∀ r ∈ ranges, r.Storable)
    (sees : TreeKey × ρ → Option τ) :
    ∃ all c₀, AllRows t sh all ∧
      Comes (fun fuel => RangeCursor.newKeyRanges t fuel ranges) c₀ ∧
      (∀ m, ∃ c, Comes (fun fuel => c₀.nextRefs t sees fuel m)
          ((List.range m).map ((seenOf sees all ranges)[·]?), c) ∧
        Comes (fun fuel => c.reset t fuel) c₀) ∧
      ∀ r ∈ ranges, ∀ row ∈ all, ∀ f, row.1.fields = some f →
        (r.position f = .eq → TreeKey.ofId (.record (r.start n)) ≤ row.1) ∧
        ∀ row' ∈ all, ∀ g, row'.1.fields = some g → row.1 ≤ row'.1 →
          (r.position g = .lt → r.position f = .lt) ∧
          (r.position f = .gt → r.position g = .gt) := by
  obtain ⟨all, hall⟩ := hk.exists_rows
  obtain ⟨c₀, hnew, hpending, hreset⟩ := RangeCursor.newKeyRanges_comes hk hall hfit hst
  refine ⟨all, c₀, hall, hnew, fun m => ?_, fun r hr row hrow f hf => ?_⟩
  · obtain ⟨c, hrefs, hpending⟩ := RangeCursor.nextRefs_comes hk hall hfit hst m hpending
    exact ⟨c, hrefs, hreset c hpending.over_ranges⟩
  · have hlength : ∀ row ∈ all, ∀ f, row.1.fields = some f → f.length = n := by
      intro row hrow f hf
      obtain ⟨k, hk', hlen⟩ := hk.fields row ((hall.mem_iff row).mp hrow)
      rw [hf] at hk'
      cases hk'
      exact hlen
    have hflen := hlength row hrow f hf
    constructor
    · intro hpos
      have hnot := KeyRange.start_not_before hf hflen (hfit r hr)
        ((KeyRange.holds_iff hf).trans (by rw [hpos]; rfl))
      exact not_lt.mp (of_decide_eq_false hnot)
    · intro row' hrow' g hg hle
      have hle' := TreeKey.le_iff.mp hle
      rw [TreeKey.cmp_of_fields hf hg] at hle'
      exact r.position_mono (hflen.trans (hlength row' hrow' g hg).symm) hle'

/-! ## A tree of two leaves -/

section Example

/-- The key of one integer. -/
def intKey (i : Int64) : TreeKey := TreeKey.ofId (.record [.integer i])

/-- The rows `(NULL)`, `(1)`, `(4)` and `(7)`. -/
def fourRows : List (TreeKey × String) :=
  [(TreeKey.ofId (.record [.null]), "a"), (intKey 1, "b"), (intKey 4, "c"), (intKey 7, "d")]

/-- Two of them in each leaf. -/
def twoLeaves : IndexTree String where
  store
    | 0 => ⟨.inner [(intKey 4, 1), (⊤, 2)], none, none⟩
    | 1 => ⟨.leaf (fourRows.take 2), some (intKey 4), some 2⟩
    | _ => ⟨.leaf (fourRows.drop 2), none, none⟩
  root := 0
  remembered := none

/-- Its shape. -/
def twoLeavesShape : Shape TreeKey where
  linked p := p = 0 ∨ p = 1 ∨ p = 2
  level p := if p = 0 then 1 else 0
  low p := if p = 2 then intKey 4 else ⊥
  high p := if p = 1 then some (intKey 4) else none

theorem twoLeaves_keyed : twoLeaves.Keyed twoLeavesShape 3 1 where
  still :=
    { tree :=
        { rooted := ⟨Or.inl rfl, rfl, rfl⟩
          levels := by
            rintro p (rfl | rfl | rfl) <;> decide
          apart := by
            rintro p q (rfl | rfl | rfl) (rfl | rfl | rfl) hlevel hne
            all_goals first | exact absurd rfl hne | exact absurd hlevel (by decide) | skip
            · exact Or.inl ⟨intKey 4, rfl, le_rfl⟩
            · exact Or.inr ⟨intKey 4, rfl, le_rfl⟩
          fits := by
            rintro p (rfl | rfl | rfl)
            · refine ⟨rfl, fun _ => rfl, nofun, nofun, ?_⟩
              rintro _ ⟨⟩
              exact ⟨nofun, by decide, ⟨Or.inr (Or.inl rfl), rfl, rfl, rfl⟩, by decide,
                ⟨Or.inr (Or.inr rfl), rfl, rfl, rfl⟩, rfl⟩
            · refine ⟨rfl, nofun, ?_, ?_, nofun⟩
              · rintro _ ⟨⟩
                exact ⟨by decide, 2, rfl, Or.inr (Or.inr rfl), rfl, rfl⟩
              · rintro _ ⟨⟩
                refine ⟨rfl, by decide, ?_⟩
                show ∀ k ∈ _, (⊥ : TreeKey) ≤ k ∧ k < intKey 4
                decide
            · refine ⟨rfl, fun _ => rfl, nofun, ?_, nofun⟩
              rintro _ ⟨⟩
              refine ⟨rfl, by decide, ?_⟩
              show ∀ k ∈ _, intKey 4 ≤ k ∧ k < (⊤ : TreeKey)
              decide }
      fresh := by
        rintro p (rfl | rfl | rfl) <;> decide }
  fields := by
    rintro row ⟨p, hp, -, hrow⟩
    have hall : ∀ p < 3, ∀ row ∈ (twoLeaves.store p).rows,
        (row.1.fields.map List.length) = some 1 := by
      decide
    have hlen := hall p (by rcases hp with rfl | rfl | rfl <;> decide) row hrow
    cases hfields : row.1.fields with
    | none => simp [hfields] at hlen
    | some k => exact ⟨k, rfl, by simpa [hfields] using hlen⟩
  known := fun _ h => nomatch h

theorem twoLeaves_rows : AllRows twoLeaves twoLeavesShape fourRows where
  ascending := by decide
  mem_iff row := by
    rw [← List.take_append_drop 2 fourRows, List.mem_append]
    constructor
    · rintro (hrow | hrow)
      · exact ⟨1, Or.inr (Or.inl rfl), rfl, hrow⟩
      · exact ⟨2, Or.inr (Or.inr rfl), rfl, hrow⟩
    · rintro ⟨p, rfl | rfl | rfl, hlevel, hrow⟩
      · cases hlevel
      · exact Or.inl hrow
      · exact Or.inr hrow

/-- Keys from `1` up to `7`, across the leaves, then `NULL` and those below `2`. -/
def twoRanges : List KeyRange :=
  [⟨[], .included (.integer 1), .excluded (.integer 7)⟩, ⟨[], .unbounded, .excluded (.integer 2)⟩]

theorem key_ranges_scan_two_leaves : ∃ c₀ c,
    Comes (fun fuel => RangeCursor.newKeyRanges twoLeaves fuel twoRanges) c₀ ∧
    Comes (fun fuel => c₀.nextRefs twoLeaves (fun row => some row.2) fuel 5)
      ([some "b", some "c", some "a", some "b", none], c) ∧
    Comes (fun fuel => c.reset twoLeaves fuel) c₀ := by
  have hst : ∀ r ∈ twoRanges, r.Storable := by
    intro r hr v hv
    have hvalues : ∀ r ∈ twoRanges, ∀ v ∈ r.startFields, v = .integer 1 := by decide
    rw [hvalues r hr v hv]
    rfl
  have hfit : ∀ r ∈ twoRanges, r.startFields.length ≤ 1 := by decide
  obtain ⟨all, c₀, hall, hnew, hrefs, -⟩ :=
    key_ranges_scan twoLeaves_keyed hfit hst fun row => some row.2
  obtain ⟨c, hcomes, hreset⟩ := hrefs 5
  rw [eq_of_mem_iff hall.ascending twoLeaves_rows.ascending fun row =>
    (hall.mem_iff row).trans (twoLeaves_rows.mem_iff row).symm] at hcomes
  exact ⟨c₀, c, hnew, hcomes, hreset⟩

end Example

end SquealDb.Tree
