import SquealDb.Lib.Orderly
import SquealDb.Sql.SortResult

/-!
# Set operations

`ConcatSource` and `MergeSetOp` of `source/setop.rs` and `AggregatingSource` of
`source/aggr.rs`, over inputs that yield lists of rows: an input is what it has yet to
yield.
-/

namespace SquealDb.Sql

open Codec Lib

/-- `Source::next` of an input. -/
def nextRow : List Row → Option Row × List Row
  | [] => (none, [])
  | row :: rest => (some row, rest)

/-! ## UNION ALL -/

structure ConcatSource where
  sources : List (List Row)
  current : Nat

namespace ConcatSource

def new (sources : List (List Row)) : ConcatSource where
  sources := sources
  current := 0

def next (s : ConcatSource) : Option Row × ConcatSource :=
  if h : s.current < s.sources.length then
    match nextRow s.sources[s.current] with
    | (some row, rest) => (some row, { s with sources := s.sources.set s.current rest })
    | (none, _) => next { s with current := s.current + 1 }
  else (none, s)
termination_by s.sources.length - s.current

/-- The rows that are left. -/
def left (s : ConcatSource) : List Row := (s.sources.drop s.current).flatten

theorem next_left (s : ConcatSource) :
    s.next.1 = s.left.head? ∧ ∀ a as, s.left = a :: as → s.next.2.left = as := by
  fun_induction next s with
  | case1 s h row rest hrow =>
    have hhead : s.sources[s.current] = row :: rest := by
      cases hs : s.sources[s.current] with
      | nil => rw [hs] at hrow; cases hrow
      | cons r rs => rw [hs] at hrow; cases hrow; rfl
    have hleft : s.left = row :: (rest ++ (s.sources.drop (s.current + 1)).flatten) := by
      rw [left, List.drop_eq_getElem_cons h, hhead]
      rfl
    rw [hleft]
    refine ⟨rfl, ?_⟩
    rintro a as ⟨⟩
    have hlen : s.current < (s.sources.set s.current rest).length := by
      rwa [List.length_set]
    show ((s.sources.set s.current rest).drop s.current).flatten = _
    rw [List.drop_eq_getElem_cons hlen, List.getElem_set_self,
      List.drop_set_of_lt (Nat.lt_succ_self _)]
    rfl
  | case2 s h rest hnone ih =>
    have hhead : s.sources[s.current] = [] := by
      cases hs : s.sources[s.current] with
      | nil => rfl
      | cons r rs => rw [hs] at hnone; cases hnone
    have hleft : s.left = left { s with current := s.current + 1 } := by
      rw [left, List.drop_eq_getElem_cons h, hhead]
      rfl
    rwa [hleft]
  | case3 s h =>
    have hleft : s.left = [] := by
      rw [left, List.drop_eq_nil_of_le (Nat.le_of_not_lt h)]
      rfl
    rw [hleft]
    exact ⟨rfl, nofun⟩

/-- One input after the other. -/
theorem delivers (sources : List (List Row)) :
    Delivers (fun s => (.ok (next s) : Except SchemaError _)) (new sources)
      sources.flatten :=
  Delivers.of_view left (P := fun _ => True)
    (fun s _ => (next_left s).1) (fun s a as _ h => ⟨(next_left s).2 a as h, trivial⟩) trivial

end ConcatSource

/-! ## DISTINCT -/

structure AggregatingSource where
  source : List Row
  nextEmit : Option Row

namespace AggregatingSource

def new (source : List Row) : AggregatingSource where
  source := source
  nextEmit := none

/-- The loop of `next`: passes over the rows that equal `this`, and keeps the first that
does not. -/
def emit (this : Row) : List Row → Option Row × AggregatingSource
  | [] => (some this, { source := [], nextEmit := none })
  | next :: rest =>
    if sameRow this next then emit this rest
    else (some this, { source := rest, nextEmit := some next })

def next (s : AggregatingSource) : Option Row × AggregatingSource :=
  match s.nextEmit with
  | some this => emit this s.source
  | none =>
    match nextRow s.source with
    | (some this, rest) => emit this rest
    | (none, _) => (none, s)

/-- The rows that are left to emit. -/
def left (s : AggregatingSource) : List Row :=
  (s.nextEmit.toList ++ s.source).destutter fun a b => ¬ sameRow a b = true

theorem emit_left (this : Row) (rest : List Row) :
    (emit this rest).1 = some this ∧
      (rest.destutter' (fun a b => ¬ sameRow a b = true) this) =
        this :: (emit this rest).2.left := by
  induction rest with
  | nil => exact ⟨rfl, rfl⟩
  | cons next rest ih =>
    rw [emit, List.destutter'_cons]
    by_cases hsame : sameRow this next = true
    · rw [if_pos hsame, if_neg (not_not.2 hsame)]
      exact ih
    · rw [if_neg hsame, if_pos hsame]
      exact ⟨rfl, rfl⟩

theorem next_left (s : AggregatingSource) :
    s.next.1 = s.left.head? ∧ ∀ a as, s.left = a :: as → s.next.2.left = as := by
  have hemit : ∀ this rest,
      (emit this rest).1 = (rest.destutter' (fun a b => ¬ sameRow a b = true) this).head? ∧
        ∀ a as, (rest.destutter' (fun a b => ¬ sameRow a b = true) this) = a :: as →
          (emit this rest).2.left = as := by
    intro this rest
    obtain ⟨hfirst, hleft⟩ := emit_left this rest
    rw [hleft, hfirst]
    refine ⟨rfl, ?_⟩
    rintro a as ⟨⟩
    rfl
  unfold next left
  cases s.nextEmit with
  | some this => exact hemit this s.source
  | none =>
    cases hsource : s.source with
    | nil => exact ⟨rfl, nofun⟩
    | cons this rest => exact hemit this rest

/-- Each row that does not equal the last one kept. -/
theorem delivers (rows : List Row) :
    Delivers (fun s => (.ok (next s) : Except SchemaError _)) (new rows)
      (rows.destutter fun a b => ¬ sameRow a b = true) :=
  Delivers.of_view left (P := fun _ => True)
    (fun s _ => (next_left s).1) (fun s a as _ h => ⟨(next_left s).2 a as h, trivial⟩) trivial

end AggregatingSource

/-! ## INTERSECT and EXCEPT -/

inductive SetOp where
  | intersect
  | except
  deriving DecidableEq

/-- `MergeSetOp`.  The row the right input is on is `none` before the first, and
`some none` once there is no more. -/
structure MergeSetOp where
  op : SetOp
  left : List Row
  right : List Row
  rightRow : Option (Option Row)
  order : List SortField

namespace MergeSetOp

/-- `MergeSetOp::new`, over inputs of some width. -/
def new (op : SetOp) (width : Nat) (left right : List Row) : MergeSetOp where
  op := op
  left := left
  right := right
  rightRow := none
  order := ascending (List.range width)

/-- The inner loop of `next`: the right input up to the first row not below `left`. -/
def seek (order : List SortField) (left : Row) :
    Option Row → List Row → Bool × Option Row × List Row
  | none, right => (false, none, right)
  | some row, right =>
    match cmpByFields order row left with
    | .lt =>
      match right with
      | [] => (false, none, [])
      | row :: rest => seek order left (some row) rest
    | .eq => (true, some row, right)
    | .gt => (false, some row, right)

/-- The outer loop of `next`. -/
def merge (s : MergeSetOp) (rightRow : Option Row) (right : List Row) :
    List Row → Option Row × MergeSetOp
  | [] => (none, { s with left := [], right, rightRow := some rightRow })
  | left :: rest =>
    match seek s.order left rightRow right with
    | (found, rightRow, right) =>
      if found == (s.op == .intersect) then
        (some left, { s with left := rest, right, rightRow := some rightRow })
      else merge s rightRow right rest

def next (s : MergeSetOp) : Option Row × MergeSetOp :=
  match s.rightRow with
  | some rightRow => merge s rightRow s.right s.left
  | none =>
    match nextRow s.right with
    | (rightRow, right) => merge s rightRow right s.left

/-! ### What a merge keeps -/

/-- The right input's rows from the one it is on. -/
def rightsOf (rightRow : Option Row) (right : List Row) : List Row := rightRow.toList ++ right

/-- The left rows the operation keeps, of some left and right rows. -/
def keptOf (op : SetOp) (order : List SortField) (rights lefts : List Row) : List Row :=
  lefts.filter fun left =>
    (rights.any fun right => cmpByFields order right left == .eq) == (op == .intersect)

/-- Both inputs are ascending, and the right one has no row left once it has none to be
on. -/
structure Merging (order : List SortField) (rightRow : Option Row) (right left : List Row) :
    Prop where
  orderly : Orderly (cmpByFields order) {r | r ∈ rightsOf rightRow right ++ left}
  right_sorted : (rightsOf rightRow right).Pairwise fun a b => rowLe order a b = true
  left_sorted : left.Pairwise fun a b => rowLe order a b = true
  exhausted : rightRow = none → right = []

namespace Merging

variable {order : List SortField} {rightRow rightRow' : Option Row}
  {right right' left left' : List Row}

theorem of_sublist (h : Merging order rightRow right left)
    (hr : (rightsOf rightRow' right').Sublist (rightsOf rightRow right))
    (hl : left'.Sublist left) (hex : rightRow' = none → right' = []) :
    Merging order rightRow' right' left' where
  orderly := h.orderly.subset fun _ hin => (hr.append hl).subset hin
  right_sorted := h.right_sorted.sublist hr
  left_sorted := h.left_sorted.sublist hl
  exhausted := hex

/-- A row below the first left row ties with none. -/
theorem ne_of_below {l row r : Row} (h : Merging order rightRow right (l :: left))
    (hr : r ∈ rightsOf rightRow right) (hlt : cmpByFields order r l = .lt)
    (hrow : row ∈ l :: left) : cmpByFields order r row = .lt := by
  have hl : l ∈ rightsOf rightRow right ++ l :: left :=
    List.mem_append_right _ List.mem_cons_self
  rcases List.mem_cons.1 hrow with rfl | hrow
  · exact hlt
  · exact h.orderly.lt_of_lt_of_le (List.mem_append_left _ hr) hl
      (List.mem_append_right _ (List.mem_cons_of_mem l hrow)) hlt
      ((List.pairwise_cons.1 h.left_sorted).1 row hrow)

/-- No row from one above the first left row on ties with it. -/
theorem ne_of_above {l row : Row} (h : Merging order (some row) right (l :: left))
    (hgt : cmpByFields order row l = .gt) :
    ∀ r ∈ row :: right, cmpByFields order r l ≠ .eq := by
  have hrow : row ∈ rightsOf (some row) right ++ l :: left := List.mem_cons_self
  have hl : l ∈ rightsOf (some row) right ++ l :: left :=
    List.mem_append_right _ List.mem_cons_self
  have hbelow : cmpByFields order l row = .lt := by
    rw [h.orderly.swap row hrow l hl, hgt]
    rfl
  intro r hr
  have hin : r ∈ rightsOf (some row) right ++ l :: left := List.mem_append_left _ hr
  have hle : rowLe order row r = true := by
    rcases List.mem_cons.1 hr with rfl | hr
    · rw [rowLe, h.orderly.refl hrow]
      rfl
    · exact (List.pairwise_cons.1 h.right_sorted).1 r hr
  rw [h.orderly.swap l hl r hin, h.orderly.lt_of_lt_of_le hl hrow hin hbelow hle]
  decide

end Merging

variable {lefts right : List Row}

/-- The search passes over rows below `left`, and finds a row that ties with it if there
is one. -/
theorem seek_spec {order : List SortField} {left : Row} {rightRow : Option Row}
    (h : Merging order rightRow right (left :: lefts)) :
    ∃ skipped found rightRow' right', seek order left rightRow right =
        (found, rightRow', right') ∧
      rightsOf rightRow right = skipped ++ rightsOf rightRow' right' ∧
      (∀ r ∈ skipped, cmpByFields order r left = .lt) ∧
      found = (rightsOf rightRow' right').any (fun r => cmpByFields order r left == .eq) ∧
      (rightRow' = none → right' = []) := by
  fun_induction seek order left rightRow right with
  | case1 right =>
    obtain rfl := h.exhausted rfl
    exact ⟨[], false, none, [], rfl, rfl, by simp, rfl, fun _ => rfl⟩
  | case2 row hlt =>
    exact ⟨[row], false, none, [], rfl, rfl, by simpa using hlt, rfl, fun _ => rfl⟩
  | case3 row hlt next rest ih =>
    have hnext : Merging order (some next) rest (left :: lefts) :=
      h.of_sublist (List.sublist_cons_self row _) (List.Sublist.refl _) nofun
    obtain ⟨skipped, found, rightRow', right', hseek, hsplit, hskipped, hfound, hex⟩ :=
      ih hnext
    refine ⟨row :: skipped, found, rightRow', right', hseek, ?_, ?_, hfound, hex⟩
    · exact congrArg (row :: ·) hsplit
    · exact List.forall_mem_cons.2 ⟨hlt, hskipped⟩
  | case4 row right heq =>
    refine ⟨[], true, some row, right, rfl, rfl, by simp, ?_, nofun⟩
    simp [rightsOf, heq]
  | case5 row right hgt =>
    refine ⟨[], false, some row, right, rfl, rfl, by simp, ?_, nofun⟩
    have hnone := h.ne_of_above hgt
    rw [eq_comm, List.any_eq_false]
    intro r hr
    simpa using hnone r hr

/-- What is kept, row by row of the left. -/
theorem keptOf_skip (op : SetOp) {order : List SortField} {skipped : List Row} (rights : List Row)
    {left : Row} (h : ∀ r ∈ skipped, ∀ l ∈ left :: lefts, cmpByFields order r l = .lt) :
    keptOf op order (skipped ++ rights) (left :: lefts) =
      (if (rights.any fun r => cmpByFields order r left == .eq) == (op == .intersect)
        then [left] else []) ++ keptOf op order rights lefts := by
  have hany : ∀ l ∈ left :: lefts,
      ((skipped ++ rights).any fun r => cmpByFields order r l == .eq) =
        rights.any fun r => cmpByFields order r l == .eq := by
    intro l hl
    have hskipped : (skipped.any fun r => cmpByFields order r l == .eq) = false := by
      rw [List.any_eq_false]
      intro r hr
      rw [h r hr l hl]
      decide
    rw [List.any_append, hskipped, Bool.false_or]
  have hfilter : keptOf op order (skipped ++ rights) (left :: lefts) =
      keptOf op order rights (left :: lefts) := by
    apply List.filter_congr
    intro l hl
    rw [hany l hl]
  rw [hfilter, keptOf, List.filter_cons]
  split <;> rfl

/-- The state is in the middle of a merge. -/
def Midway (s : MergeSetOp) : Prop :=
  match s.rightRow with
  | some rightRow => Merging s.order rightRow s.right s.left
  | none => Merging s.order (nextRow s.right).1 (nextRow s.right).2 s.left

/-- The rows that are left to keep. -/
def kept (s : MergeSetOp) : List Row :=
  keptOf s.op s.order (rightsOf (s.rightRow.getD none) s.right) s.left

theorem merge_spec (s : MergeSetOp) {rightRow : Option Row}
    (h : Merging s.order rightRow right lefts) :
    (merge s rightRow right lefts).1 =
        (keptOf s.op s.order (rightsOf rightRow right) lefts).head? ∧
      ∀ a as, keptOf s.op s.order (rightsOf rightRow right) lefts = a :: as →
        (merge s rightRow right lefts).2.kept = as ∧
          (merge s rightRow right lefts).2.Midway := by
  induction lefts generalizing rightRow right with
  | nil => exact ⟨rfl, nofun⟩
  | cons left lefts ih =>
    obtain ⟨skipped, found, rightRow', right', hseek, hsplit, hskipped, hfound, hex⟩ :=
      seek_spec h
    have hnext : Merging s.order rightRow' right' lefts := by
      apply h.of_sublist _ (List.sublist_cons_self left lefts) hex
      rw [hsplit]
      exact List.sublist_append_right _ _
    have hkept := keptOf_skip s.op (rightsOf rightRow' right')
      fun r hr l hl => h.ne_of_below
        (hsplit ▸ List.mem_append_left _ hr) (hskipped r hr) hl
    rw [hsplit, hkept, ← hfound, merge, hseek]
    dsimp only
    by_cases hkeep : (found == (s.op == SetOp.intersect)) = true
    · rw [if_pos hkeep, if_pos hkeep]
      refine ⟨rfl, ?_⟩
      rintro a as ⟨⟩
      exact ⟨rfl, hnext⟩
    · rw [if_neg hkeep, if_neg hkeep]
      exact ih hnext

theorem next_kept {s : MergeSetOp} (h : s.Midway) :
    s.next.1 = s.kept.head? ∧
      ∀ a as, s.kept = a :: as → s.next.2.kept = as ∧ s.next.2.Midway := by
  unfold Midway at h
  unfold next kept
  cases hrow : s.rightRow with
  | some rightRow =>
    rw [hrow] at h
    exact s.merge_spec h
  | none =>
    rw [hrow] at h
    have hrights : rightsOf (nextRow s.right).1 (nextRow s.right).2 = s.right := by
      cases s.right <;> rfl
    have hspec := s.merge_spec h
    rw [hrights] at hspec
    exact hspec

/-- Of ascending inputs, the rows of the left that tie with a row of the right, or with
none. -/
theorem delivers (op : SetOp) {width : Nat} {left : List Row}
    (horderly : Orderly (cmpByFields (ascending (List.range width))) {r | r ∈ right ++ left})
    (hleft : Sorted (ascending (List.range width)) left)
    (hright : Sorted (ascending (List.range width)) right) :
    Delivers (fun s => (.ok (next s) : Except SchemaError _)) (new op width left right)
      (keptOf op (ascending (List.range width)) right left) := by
  have hrights : rightsOf (nextRow right).1 (nextRow right).2 = right := by
    cases right <;> rfl
  have hmidway : (new op width left right).Midway := by
    refine ⟨?_, ?_, hleft, ?_⟩
    · show Orderly _ {r | r ∈ rightsOf (nextRow right).1 (nextRow right).2 ++ left}
      rwa [hrights]
    · show (rightsOf (nextRow right).1 (nextRow right).2).Pairwise _
      rwa [hrights]
    · show (nextRow right).1 = none → (nextRow right).2 = []
      cases right with
      | nil => exact fun _ => rfl
      | cons r rs => nofun
  exact Delivers.of_view kept (P := Midway) (fun s hs => (next_kept hs).1)
    (fun s a as hs h => (next_kept hs).2 a as h) hmidway

end MergeSetOp

/-! ## Columns of one type -/

/-- Rows in order, no two of them the same row. -/
def DistinctSorted (width : Nat) (rows : List Row) : Prop :=
  rows.Pairwise fun a b => cmpByFields (ascending (List.range width)) a b = .lt

/-- What a sort of the rows on every column delivers. -/
def FullSort (width : Nat) (rows sorted : List Row) : Prop :=
  ∃ spec mem, spec.order = ascending (List.range width) ∧ spec.limit = none ∧
    Delivers SortSource.next (SortSource.new rows spec mem) sorted

/-- On columns of one type `cmp_by_fields` is a total preorder. -/
theorem OneType.orderly {order : List SortField} {rows : List Row} (h : OneType order rows) :
    Orderly (cmpByFields order) {r | r ∈ rows} where
  swap a ha b hb := by
    rw [cmpByFields_eq h ha hb, cmpByFields_eq h hb ha, cmpByKeys_swap]
  trans a ha b hb c hc := by
    rw [cmpByFields_eq h ha hb, cmpByFields_eq h hb hc, cmpByFields_eq h ha hc]
    exact keyLe_trans order a b c

/-- On rows of one width, to be the same row is to tie on every column. -/
theorem sameRow_eq {width : Nat} {a b : Row} (ha : a.length = width) (hb : b.length = width) :
    sameRow a b = (cmpByFields (ascending (List.range width)) a b == .eq) := by
  rw [sameRow, ha, hb, Nat.max_self, beq_self_eq_true, Bool.true_and]

theorem Sorted.of_distinct {width : Nat} {rows : List Row} (h : DistinctSorted width rows) :
    Sorted (ascending (List.range width)) rows :=
  h.imp fun hlt => by rw [rowLe, hlt]; rfl

section

variable {width : Nat} {rows : List Row}

/-- DISTINCT over a sort on every column. -/
theorem distinct_spec (hwidth : ∀ r ∈ rows, r.length = width)
    (htype : OneType (ascending (List.range width)) rows) {sorted : List Row}
    (hsort : FullSort width rows sorted) :
    ∃ out, Delivers (fun s => (.ok s.next : Except SchemaError _))
        (AggregatingSource.new sorted) out ∧
      DistinctSorted width out ∧ (∀ r ∈ out, r ∈ rows) ∧
      ∀ r ∈ rows, out.countP (sameRow r) = 1 := by
  obtain ⟨spec, mem, horder, hlimit, hdelivers⟩ := hsort
  obtain ⟨-, sorted', hperm, hsorted, hcut⟩ :=
    SortSource.sorted_of_delivers (horder ▸ htype) hdelivers
  obtain rfl : sorted = sorted' := by
    rw [hcut, SortSpec.cut, hlimit]
  rw [horder] at hsorted
  have hin : ∀ r ∈ sorted, r ∈ rows := fun r hr => hperm.mem_iff.1 hr
  have hsame : ∀ a ∈ rows, ∀ b ∈ rows,
      sameRow a b = (cmpByFields (ascending (List.range width)) a b == .eq) :=
    fun a ha b hb => sameRow_eq (hwidth a ha) (hwidth b hb)
  have hkept : (sorted.destutter fun a b => ¬ sameRow a b = true) =
      sorted.destutter fun a b => cmpByFields (ascending (List.range width)) a b ≠ .eq := by
    apply Orderly.destutter_congr
    intro a ha b hb
    rw [hsame a (hin a ha) b (hin b hb), beq_iff_eq]
  have hsub : ∀ r ∈ sorted.destutter fun a b =>
      cmpByFields (ascending (List.range width)) a b ≠ .eq, r ∈ rows :=
    fun r hr => hin r ((List.destutter_sublist _ _).subset hr)
  have hstream := AggregatingSource.delivers sorted
  rw [hkept] at hstream
  refine ⟨_, hstream, htype.orderly.pairwise_destutter hin hsorted, hsub, ?_⟩
  intro r hr
  rw [← htype.orderly.countP_destutter hin hsorted (hperm.mem_iff.2 hr)]
  apply List.countP_congr
  intro b hb
  rw [hsame r hr b (hsub b hb)]

/-- INTERSECT and EXCEPT over distinct rows in order. -/
theorem merge_setop_spec (hwidth : ∀ r ∈ rows, r.length = width)
    (htype : OneType (ascending (List.range width)) rows) (op : SetOp)
    {left right : List Row} (hl : ∀ r ∈ left, r ∈ rows) (hr : ∀ r ∈ right, r ∈ rows)
    (hleft : DistinctSorted width left) (hright : DistinctSorted width right) :
    ∃ out, Delivers (fun s => (.ok s.next : Except SchemaError _))
        (MergeSetOp.new op width left right) out ∧
      DistinctSorted width out ∧
      out = left.filter fun l => (right.any fun r => sameRow r l) == (op == .intersect) := by
  have horderly : Orderly (cmpByFields (ascending (List.range width)))
      {r | r ∈ right ++ left} := by
    apply htype.orderly.subset
    intro r hin
    rcases List.mem_append.1 hin with hin | hin
    · exact hr r hin
    · exact hl r hin
  have hkept : MergeSetOp.keptOf op (ascending (List.range width)) right left =
      left.filter fun l => (right.any fun r => sameRow r l) == (op == .intersect) := by
    apply List.filter_congr
    intro l hin
    have hany : (right.any fun r => cmpByFields (ascending (List.range width)) r l == .eq) =
        right.any fun r => sameRow r l := by
      rw [Bool.eq_iff_iff, List.any_eq_true, List.any_eq_true]
      apply exists_congr
      intro r
      apply and_congr_right
      intro hrin
      rw [sameRow_eq (hwidth r (hr r hrin)) (hwidth l (hl l hin))]
    rw [hany]
  have hstream := MergeSetOp.delivers op horderly (.of_distinct hleft)
    (.of_distinct hright)
  rw [hkept] at hstream
  exact ⟨_, hstream, hleft.sublist List.filter_sublist, rfl⟩

end

/-- Set operations, on two lists of rows of one width whose columns are each of one type,
or `NULL`: UNION ALL is one list after the other; DISTINCT over a sort on every column of
any of their rows keeps one of each class of the same row, in order; and of distinct rows
in order, INTERSECT and EXCEPT keep the left rows that the right has, or lacks, in order. -/
theorem set_operations_right {width : Nat} {xs ys : List Row}
    (hwidth : ∀ r ∈ xs ++ ys, r.length = width)
    (htype : OneType (ascending (List.range width)) (xs ++ ys)) :
    Delivers (fun s => (.ok s.next : Except SchemaError _)) (ConcatSource.new [xs, ys])
        (xs ++ ys) ∧
    (∀ rows sorted, (∀ r ∈ rows, r ∈ xs ++ ys) → FullSort width rows sorted →
      ∃ out, Delivers (fun s => (.ok s.next : Except SchemaError _))
          (AggregatingSource.new sorted) out ∧
        DistinctSorted width out ∧ (∀ r ∈ out, r ∈ rows) ∧
        ∀ r ∈ rows, out.countP (sameRow r) = 1) ∧
    (∀ op left right, (∀ r ∈ left, r ∈ xs ++ ys) → (∀ r ∈ right, r ∈ xs ++ ys) →
      DistinctSorted width left → DistinctSorted width right →
      ∃ out, Delivers (fun s => (.ok s.next : Except SchemaError _))
          (MergeSetOp.new op width left right) out ∧
        DistinctSorted width out ∧
        out = left.filter fun l =>
          (right.any fun r => sameRow r l) == (op == .intersect)) := by
  refine ⟨?_, ?_, ?_⟩
  · have hconcat := ConcatSource.delivers [xs, ys]
    rwa [List.flatten_cons, List.flatten_singleton] at hconcat
  · intro rows sorted hrows hsort
    exact distinct_spec (fun r hr => hwidth r (hrows r hr)) (htype.subset hrows) hsort
  · intro op left right hl hr hleft hright
    exact merge_setop_spec hwidth htype op hl hr hleft hright

/-- Integers, and `NULL` on both sides. -/
def leftRows : List Row := [[.null], [.integer 1]]
def rightRows : List Row := [[.null], [.integer 2]]

/-- `NULL` is one of the distinct rows, in both sides and no reason to differ. -/
theorem set_operations_of_integers :
    Delivers (fun s => (.ok s.next : Except SchemaError _))
        (ConcatSource.new [leftRows, rightRows]) (leftRows ++ rightRows) ∧
      (∃ sorted out, FullSort 1 (leftRows ++ rightRows) sorted ∧
        Delivers (fun s => (.ok s.next : Except SchemaError _)) (AggregatingSource.new sorted)
          out ∧
        DistinctSorted 1 out ∧ ∀ r ∈ leftRows ++ rightRows, out.countP (sameRow r) = 1) ∧
      Delivers (fun s => (.ok s.next : Except SchemaError _))
        (MergeSetOp.new .intersect 1 leftRows rightRows) [[.null]] ∧
      Delivers (fun s => (.ok s.next : Except SchemaError _))
        (MergeSetOp.new .except 1 leftRows rightRows) [[.integer 1]] := by
  have htype : OneType (ascending (List.range 1)) (leftRows ++ rightRows) := by
    intro f hf
    obtain rfl : f = ⟨true, true, 0⟩ := by simpa [ascending] using hf
    exact ⟨(ValueItem.integer 1).typeRank, by decide⟩
  have hinMemory : ¬ (oneColumn .integer).Spills { used := 0, limit := 0x100000 }
      (leftRows ++ rightRows) := by
    unfold SortSpec.Spills
    decide
  obtain ⟨sorted, -, -, hsorted⟩ := (SortSource.sorts_iff htype).mpr
    (Or.inr ⟨by decide, fun hspills => absurd hspills hinMemory⟩)
  have hfull : FullSort 1 (leftRows ++ rightRows) sorted := ⟨_, _, rfl, rfl, hsorted⟩
  have h := @set_operations_right 1 leftRows rightRows (by decide) htype
  obtain ⟨out, hout, hdistinct, -, hcount⟩ := h.2.1 _ sorted (fun _ hr => hr) hfull
  have hordered : DistinctSorted 1 leftRows ∧ DistinctSorted 1 rightRows := by
    unfold DistinctSorted
    decide
  obtain ⟨both, hboth, -, hin⟩ := h.2.2 .intersect leftRows rightRows (by decide) (by decide)
    hordered.1 hordered.2
  obtain ⟨left, hleft, -, hnot⟩ := h.2.2 .except leftRows rightRows (by decide) (by decide)
    hordered.1 hordered.2
  refine ⟨h.1, ⟨sorted, out, hfull, hout, hdistinct, hcount⟩, ?_, ?_⟩
  · rwa [hin, show leftRows.filter _ = [[.null]] by decide] at hboth
  · rwa [hnot, show leftRows.filter _ = [[.integer 1]] by decide] at hleft

end SquealDb.Sql
