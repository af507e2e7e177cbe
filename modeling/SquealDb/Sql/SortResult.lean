import SquealDb.Lib.RowStream
import SquealDb.Sql.SortRounds

/-!
# What a sort gives

`SortSource` delivers its rows in order, in memory, written out and merged, or kept in a
heap, just where it can write what it writes out.

`write_rows` takes rows for a page where what they come to is no more than the page holds;
`set_content` refuses them where their tuple is more than that, and the sort fails rather
than split them.
-/

namespace SquealDb.Sql

open Codec Lib

namespace SortSpec

variable (spec : SortSpec)

/-! ## The heap -/

/-- The first rows, with one more put in order among them, are the first of all. -/
theorem take_merge_singleton (n : Nat) (xs : List Row) (r : Row) :
    (xs.merge [r] (rowLe spec.order)).take n =
      ((xs.take n).merge [r] (rowLe spec.order)).take n := by
  induction xs generalizing n with
  | nil => rw [List.take_nil]
  | cons x xs ih =>
    cases n with
    | zero => rw [List.take_zero, List.take_zero]
    | succ n =>
      rw [List.take_succ_cons, List.cons_merge_cons, List.cons_merge_cons]
      split
      · rw [List.take_succ_cons, List.take_succ_cons, ih]
      · rw [List.merge_right, List.merge_right, List.take_succ_cons, List.take_succ_cons]
        cases n with
        | zero => rfl
        | succ n =>
          rw [List.take_succ_cons, List.take_succ_cons, List.take_take,
            Nat.min_eq_left (Nat.le_succ n)]

theorem heapPush_eq {limit : Nat} {heap : List Row} (r : Row) (h : heap.length ≤ limit) :
    spec.heapPush limit heap r = (heap.merge [r] (rowLe spec.order)).take limit := by
  have hlen : (heap.merge [r] (rowLe spec.order)).length = heap.length + 1 := by
    rw [List.length_merge, List.length_singleton]
  unfold heapPush
  dsimp only
  split
  · rename_i hlong
    have hlimit : limit = (heap.merge [r] (rowLe spec.order)).length - 1 := by omega
    rw [List.dropLast_eq_take, hlimit]
  · rename_i hshort
    exact (List.take_of_length_le (by omega)).symm

/-- The heap holds the first of the rows in order. -/
theorem heap_eq (limit : Nat) (rows : List Row) :
    rows.foldl (spec.heapPush limit) [] =
      (rows.foldl (fun sorted r => sorted.merge [r] (rowLe spec.order)) []).take limit := by
  have hfold : ∀ sorted : List Row, rows.foldl (spec.heapPush limit) (sorted.take limit) =
      (rows.foldl (fun sorted r => sorted.merge [r] (rowLe spec.order)) sorted).take limit := by
    induction rows with
    | nil =>
      intro sorted
      rfl
    | cons r rows ih =>
      intro sorted
      rw [List.foldl_cons, List.foldl_cons,
        spec.heapPush_eq r (List.length_take_le limit sorted), ← take_merge_singleton]
      exact ih _
  have hnil := hfold []
  rwa [List.take_nil] at hnil

/-- Rows put in order one by one. -/
theorem insertAll {rows : List Row} (h : OneType spec.order rows) :
    (rows.foldl (fun sorted r => sorted.merge [r] (rowLe spec.order)) []).Perm rows ∧
      Sorted spec.order (rows.foldl (fun sorted r => sorted.merge [r] (rowLe spec.order)) []) := by
  have hfold : ∀ rest sorted : List Row, OneType spec.order (sorted ++ rest) →
      Sorted spec.order sorted →
      (rest.foldl (fun sorted r => sorted.merge [r] (rowLe spec.order)) sorted).Perm
          (sorted ++ rest) ∧
        Sorted spec.order
          (rest.foldl (fun sorted r => sorted.merge [r] (rowLe spec.order)) sorted) := by
    intro rest
    induction rest with
    | nil =>
      intro sorted _ hs
      rw [List.append_nil]
      exact ⟨List.Perm.refl _, hs⟩
    | cons r rest ih =>
      intro sorted htype hs
      have hperm : (sorted.merge [r] (rowLe spec.order) ++ rest).Perm (sorted ++ r :: rest) := by
        rw [List.append_cons]
        exact (List.merge_perm_append _).append_right rest
      have hpair : OneType spec.order (sorted ++ [r]) := htype.subset fun q hq => by
        rw [List.append_cons]
        exact List.mem_append_left rest hq
      have htype' : OneType spec.order (sorted.merge [r] (rowLe spec.order) ++ rest) :=
        htype.subset fun q hq => hperm.mem_iff.mp hq
      have hmerge := sorted_merge hpair hs (List.pairwise_singleton _ r)
      obtain ⟨hrows, hsorted⟩ := ih _ htype' hmerge
      exact ⟨hrows.trans hperm, hsorted⟩
  exact hfold rows [] h List.Pairwise.nil

/-- The rows that a sort is to give of a sorted list: the first of them, where it is limited. -/
def cut (sorted : List Row) : List Row :=
  match spec.limit with
  | none => sorted
  | some limit => sorted.take limit

/-- A sort can be carried out: it keeps the first rows in a heap, or its columns take room
and it has memory for the rows or can write all that it writes out. -/
def Sortable (mem : QueryMemory) (rows : List Row) : Prop :=
  spec.limit.isSome ∨ 0 < spec.recordSize ∧ (spec.Spills mem rows → spec.WritesAll mem rows)

/-- What is left of the pages being given out is given row by row. -/
theorem progress_next (p : SortProgress) (rs : List Row) (h : p.iter = some rs) :
    match rs ++ p.pages.flatten with
    | [] => p.next.1 = none
    | r :: rest => p.next.1 = some r ∧
        ∃ rs', p.next.2.iter = some rs' ∧ rs' ++ p.next.2.pages.flatten = rest := by
  obtain ⟨iter, pages⟩ := p
  dsimp only at h ⊢
  subst h
  cases rs with
  | cons r rs => exact ⟨rfl, rs, rfl, rfl⟩
  | nil =>
    show match pages.flatten with
      | [] => (SortProgress.next.turn pages).1 = none
      | r :: rest => (SortProgress.next.turn pages).1 = some r ∧
          ∃ rs', (SortProgress.next.turn pages).2.iter = some rs' ∧
            rs' ++ (SortProgress.next.turn pages).2.pages.flatten = rest
    induction pages with
    | nil => rfl
    | cons page pages ih =>
      cases page with
      | nil => exact ih
      | cons r rs => exact ⟨rfl, rs, rfl, rfl⟩

end SortSpec

namespace SortSource

/-- The one-time phase of a sort is over. -/
def Built (s : SortSource) : Prop :=
  (s.results.isSome || (s.spec.limit.isNone && s.progress.isSome)) = true

variable {s : SortSource} {out rows : List Row} {spec : SortSpec} {mem : QueryMemory}

theorem next_of_built {s' : SortSource} {row : Option Row} (h : s.Built)
    (hgive : s.give = (row, s')) : s.next = .ok (row, s') := by
  unfold Built at h
  unfold next
  rw [if_pos h, hgive]
  rfl

/-- Rows kept in memory are delivered from the end. -/
theorem delivers_results (h : s.results = some out.reverse) : Delivers SortSource.next s out := by
  have hbuilt : s.Built := by simp [Built, h]
  induction out generalizing s with
  | nil =>
    refine ⟨{ s with results := some [] }, next_of_built hbuilt ?_⟩
    unfold give
    rw [h]
    rfl
  | cons r out ih =>
    refine ⟨{ s with results := some out.reverse }, next_of_built hbuilt ?_, ih rfl rfl⟩
    unfold give
    rw [h]
    simp

theorem give_progress {p : SortSpec.SortProgress} (hresults : s.results = none)
    (hp : s.progress = some p) :
    s.give = (p.next.1, { s with progress := some p.next.2 }) := by
  unfold give
  rw [hresults, hp]

/-- Rows written out are delivered page by page. -/
theorem delivers_progress {p : SortSpec.SortProgress} {rs : List Row}
    (hlimit : s.spec.limit = none) (hresults : s.results = none) (hp : s.progress = some p)
    (hiter : p.iter = some rs) (hout : rs ++ p.pages.flatten = out) :
    Delivers SortSource.next s out := by
  have hbuilt : s.Built := by simp [Built, hlimit, hp]
  have hgive := give_progress hresults hp
  have hnext := SortSpec.progress_next p rs hiter
  rw [hout] at hnext
  induction out generalizing s p rs with
  | nil =>
    rw [hnext] at hgive
    exact ⟨{ s with progress := some p.next.2 }, next_of_built hbuilt hgive⟩
  | cons r out ih =>
    obtain ⟨hrow, rs', hiter', hrest⟩ := hnext
    rw [hrow] at hgive
    have hnext' := SortSpec.progress_next p.next.2 rs' hiter'
    rw [hrest] at hnext'
    exact ⟨{ s with progress := some p.next.2 }, next_of_built hbuilt hgive,
      ih hlimit hresults rfl hiter' hrest (by simp [Built, hlimit]) (give_progress hresults rfl)
        hnext'⟩

/-- What `next` makes of what `build_sort` came to. -/
def built (s : SortSource) : SortSpec.BuildOutcome → SortSource
  | .empty => { s with results := some [] }
  | .inMemory sorted => { s with results := some sorted.reverse }
  | .spilled progress => { s with progress := some progress }

theorem build_eq (h : s.spec.limit = none) :
    s.build = s.spec.buildSort s.mem s.rows >>= fun outcome => pure (s.built outcome) := by
  unfold build
  rw [h]
  refine congrArg (s.spec.buildSort s.mem s.rows >>= ·) ?_
  funext outcome
  cases outcome <;> rfl

theorem delivers_built {outcome : SortSpec.BuildOutcome} {sorted : List Row}
    (hlimit : s.spec.limit = none) (hresults : s.results = none) (h : outcome.Holds sorted) :
    (s.built outcome).Built ∧ Delivers SortSource.next (s.built outcome) sorted := by
  cases outcome with
  | empty =>
    have hnil : sorted = [] := h
    subst hnil
    exact ⟨rfl, delivers_results rfl⟩
  | inMemory rows =>
    have hrows : rows = sorted := h
    subst hrows
    exact ⟨rfl, delivers_results rfl⟩
  | spilled p =>
    obtain ⟨pages, hiter, hpages, hflat⟩ := h
    have hbuilt : (s.built (.spilled p)).Built := by simp [Built, built, hlimit]
    refine ⟨hbuilt, ?_⟩
    cases pages with
    | nil =>
      have hnil : sorted = [] := hflat.symm
      subst hnil
      have hnone : p.next = (none, p) := by
        unfold SortSpec.SortProgress.next
        rw [hiter]
        rfl
      have hgive := give_progress (s := s.built (.spilled p)) hresults rfl
      rw [hnone] at hgive
      exact ⟨_, next_of_built hbuilt hgive⟩
    | cons page pages =>
      refine delivers_progress hlimit hresults rfl hiter ?_
      rw [hpages]
      exact hflat

/-- A source sorts its rows: it delivers them in order, up to its limit. -/
def Sorts (s : SortSource) : Prop :=
  ∃ sorted, sorted.Perm s.rows ∧ Sorted s.spec.order sorted ∧
    Delivers SortSource.next s (s.spec.cut sorted)

/-- The one-time phase succeeds where a sort can be carried out, and the source then
delivers its rows in order. -/
theorem build_settles (h : OneType spec.order rows) :
    Settles (new rows spec mem).build (spec.Sortable mem rows) fun s =>
      s.Built ∧ ∃ sorted, sorted.Perm rows ∧ Sorted spec.order sorted ∧
        Delivers SortSource.next s (spec.cut sorted) := by
  cases hlimit : spec.limit with
  | some limit =>
    obtain ⟨hperm, hsorted⟩ := spec.insertAll h
    have hbuild : (new rows spec mem).build =
        .ok { new rows spec mem with
          results := some (rows.foldl (spec.heapPush limit) []).reverse } := by
      unfold build new
      dsimp only
      rw [hlimit]
    rw [hbuild, spec.heap_eq]
    refine Settles.ok (Or.inl (by rw [hlimit]; rfl)) ⟨rfl, _, hperm, hsorted, ?_⟩
    unfold SortSpec.cut
    rw [hlimit]
    exact delivers_results rfl
  | none =>
    rw [build_eq hlimit]
    have hthen : ∀ outcome : SortSpec.BuildOutcome,
        (∃ sorted, sorted.Perm rows ∧ Sorted spec.order sorted ∧ outcome.Holds sorted) →
        Settles (pure ((new rows spec mem).built outcome) : Except SchemaError SortSource) True
          fun s => s.Built ∧ ∃ sorted, sorted.Perm rows ∧ Sorted spec.order sorted ∧
            Delivers SortSource.next s (spec.cut sorted) := by
      rintro outcome ⟨sorted, hperm, hsorted, hholds⟩
      obtain ⟨hbuilt, hdelivers⟩ := delivers_built (s := new rows spec mem) hlimit rfl hholds
      refine Settles.pure trivial ⟨hbuilt, sorted, hperm, hsorted, ?_⟩
      unfold SortSpec.cut
      rw [hlimit]
      exact hdelivers
    refine ((spec.buildSort_settles h).bind hthen).congr ?_ fun s hs => hs
    rw [and_iff_left trivial, SortSpec.Sortable, hlimit]
    constructor
    · intro hw
      exact Or.inr hw
    · intro hw
      exact hw.resolve_left (by simp)

theorem next_new (rows : List Row) (spec : SortSpec) (mem : QueryMemory) :
    (new rows spec mem).next = (new rows spec mem).build >>= fun s => pure s.give := by
  unfold next
  rw [if_neg (by simp [new])]

/-- What a source delivers is what it delivers once its one-time phase is over. -/
theorem delivers_new (hbuild : (new rows spec mem).build = .ok s) (hbuilt : s.Built)
    (out : List Row) :
    Delivers SortSource.next (new rows spec mem) out ↔ Delivers SortSource.next s out := by
  have hsame : (new rows spec mem).next = s.next := by
    have hnext : s.next = .ok s.give := next_of_built hbuilt rfl
    rw [next_new, hbuild, hnext]
    rfl
  cases out with
  | nil => simp only [Delivers, hsame]
  | cons r rest => simp only [Delivers, hsame]

/-- A source delivers nothing where its one-time phase fails. -/
theorem build_of_delivers (h : Delivers SortSource.next (new rows spec mem) out) :
    ∃ s, (new rows spec mem).build = .ok s := by
  have hok : ∃ x, (new rows spec mem).next = .ok x := by
    cases out with
    | nil =>
      obtain ⟨s', hs'⟩ := h
      exact ⟨_, hs'⟩
    | cons r rest =>
      obtain ⟨s', hs', -⟩ := h
      exact ⟨_, hs'⟩
  obtain ⟨x, hx⟩ := hok
  rw [next_new] at hx
  obtain ⟨s, hs, -⟩ := bind_ok_iff.mp hx
  exact ⟨s, hs⟩

/-- What a source delivers are its rows in order, up to its limit. -/
theorem sorted_of_delivers (h : OneType spec.order rows)
    (hout : Delivers SortSource.next (new rows spec mem) out) :
    spec.Sortable mem rows ∧
      ∃ sorted, sorted.Perm rows ∧ Sorted spec.order sorted ∧ out = spec.cut sorted := by
  obtain ⟨s, hs⟩ := build_of_delivers hout
  obtain ⟨hable, hbuilt, sorted, hperm, hsorted, hdelivers⟩ := (build_settles h).of_ok hs
  have hout' := (delivers_new hs hbuilt out).mp hout
  exact ⟨hable, sorted, hperm, hsorted, hout'.unique hdelivers⟩

/-- A source sorts its rows just where the sort can be carried out. -/
theorem sorts_iff (h : OneType spec.order rows) :
    (new rows spec mem).Sorts ↔ spec.Sortable mem rows := by
  constructor
  · rintro ⟨sorted, -, -, hdelivers⟩
    exact (sorted_of_delivers h hdelivers).1
  · intro hable
    obtain ⟨s, hs, hbuilt, sorted, hperm, hsorted, hdelivers⟩ := (build_settles h).exists_of hable
    exact ⟨sorted, hperm, hsorted, (delivers_new hs hbuilt _).mpr hdelivers⟩

end SortSource

/-- A sort of one column, ascending and `NULL`s first, out of memory on pages of 4096 bytes. -/
def oneColumn (type : DataType) : SortSpec :=
  { order := ascending [0], limit := none, types := [type], dataSize := 4016, itemBytes := 40 }

/-- A row whose blob fills its column. -/
def fullRow : Row := [.blob (List.replicate 1999 0) 1999]

theorem oneType_pair (row : Row) : OneType (ascending [0]) [row, row] := by
  intro f _
  refine ⟨(row.at f.index).typeRank, fun r hr => Or.inr ?_⟩
  rcases List.mem_cons.mp hr with rfl | hr
  · rfl
  · rw [List.mem_singleton.mp hr]

/-- Integers out of order, two of them equal, and a `NULL`. -/
def unsorted : List Row := [[.integer 7], [.integer 3], [.null], [.integer 7]]

theorem sortRows_unsorted : (oneColumn .integer).sortRows unsorted =
    [[.null], [.integer 3], [.integer 7], [.integer 7]] := by
  rw [SortSpec.sortRows, unsorted]
  simp +decide [List.mergeSort]

end SquealDb.Sql
