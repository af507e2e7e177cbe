import SquealDb.Codec.Wire
import SquealDb.Sql.Group
import SquealDb.Sql.RowOrder
import SquealDb.Sql.Sarg

/-!
# Sorting

`SortSource` of `source/sort.rs`, over an input that yields a list of rows.

Rows are kept while the query's memory lasts, charged a page's worth at a time.  Where it
does not, they are sorted and written to scratch runs, which are merged two at a time.  A
limited sort keeps the first rows in a heap.

A run's pages are kept as the rows they encode: what `from_bytes` reads of a page is what
`to_allocvec` wrote.  A run's cursor gives its pages' contents up to the first that has
none.  `sort_unstable_by` and `BinaryHeap` leave the order of ties open; here rows that
tie keep theirs.
-/

namespace SquealDb.Sql

open Codec Lib

def DataType.size : DataType → Nat
  | .integer | .double | .datetime => 9
  | .str n | .blob n => n.toNat + 9
  | .boolean => 2
  | .null | .unsupported => 0

/-- The bytes of a value outside the row's array, for which its capacity is a bound. -/
def DataType.heapBytes : DataType → Nat
  | .str n | .blob n => n.toNat
  | _ => 0

/-- What a sort goes by: its fields and limit, the columns of its source, what a scratch
page holds, and what a value takes in memory. -/
structure SortSpec where
  order : List SortField
  limit : Option Nat
  types : List DataType
  dataSize : Nat
  itemBytes : Nat

namespace SortSpec

variable (spec : SortSpec)

/-- `record_size` of `build_sort`. -/
def recordSize : Nat := (spec.types.map DataType.size).sum

def recordsPerPage : Nat := spec.dataSize / spec.recordSize

def rowMemory : Nat :=
  2 * 8 + spec.types.length * spec.itemBytes + (spec.types.map DataType.heapBytes).sum

/-- `chunk_bytes` of `build_initial_runs`. -/
def chunkBytes : Nat := max spec.recordsPerPage 1 * spec.rowMemory

end SortSpec

/-! ## Scratch runs -/

/-- A `Run` by the rows its pages hold; a page nothing is written to holds none. -/
structure ScratchRun where
  pages : List (List Row)

/-- What `to_allocvec` makes of some rows. -/
def encodeRows (rows : List Row) : List UInt8 :=
  Postcard.len rows.length ++ rows.flatMap Postcard.key

/-- The size of the tuple a page keeps some rows in. -/
def pageTupleSize (rows : List Row) : Nat :=
  Tuple.encodedLen
    { id := .int 0, txnId := none, preLsn := none, data := encodeRows rows, flags := 0 }

namespace ScratchRun

/-- `create_run`. -/
def create : ScratchRun := { pages := [[]] }

def setContent (dataSize : Nat) (run : ScratchRun) (rows : List Row) :
    Except SchemaError ScratchRun :=
  if dataSize < pageTupleSize rows then
    .error (.ofStore (.tupleTooLarge (pageTupleSize rows) dataSize))
  else .ok { pages := run.pages.dropLast ++ [rows] }

def newPage (run : ScratchRun) : ScratchRun := { pages := run.pages ++ [[]] }

/-- What a cursor over the run yields before it says that there is no more. -/
def read (run : ScratchRun) : List (List Row) := run.pages.takeWhile (!·.isEmpty)

end ScratchRun

def writeRows (dataSize : Nat) (run : ScratchRun) (rows : List Row) (last : Bool) :
    Except SchemaError ScratchRun :=
  if (encodeRows rows).length ≤ dataSize then do
    let run ← run.setContent dataSize rows
    return if last then run else run.newPage
  else if rows.length < 2 then
    .error (.userError ("a row of " ++ toString (encodeRows rows).length ++
      " bytes is too big to sort out of memory (a scratch page holds " ++ toString dataSize ++
      "); raise the query memory"))
  else do
    let run ← writeRows dataSize run (rows.take (rows.length / 2)) false
    writeRows dataSize run (rows.drop (rows.length / 2)) last
termination_by rows.length
decreasing_by
  all_goals
    simp only [List.length_take, List.length_drop]
    omega

namespace SortSpec

variable (spec : SortSpec)

def sortRows (rows : List Row) : List Row := rows.mergeSort (rowLe spec.order)

/-- The loop of `close_run` over the chunks of sorted rows. -/
def writeChunks (run : ScratchRun) (rows : List Row) : Except SchemaError ScratchRun :=
  if rows.length ≤ max spec.recordsPerPage 1 then
    if rows.isEmpty then .ok run else writeRows spec.dataSize run rows true
  else do
    let run ← writeRows spec.dataSize run (rows.take (max spec.recordsPerPage 1)) false
    writeChunks run (rows.drop (max spec.recordsPerPage 1))
termination_by rows.length
decreasing_by
  simp only [List.length_drop]
  omega

/-- `close_run`, into a run just created. -/
def closeRun (rows : List Row) : Except SchemaError ScratchRun :=
  spec.writeChunks .create (spec.sortRows rows)

/-! ## Initial runs -/

/-- The loop of `build_initial_runs`: `current` is the run being accumulated, `mems` how
many reservations are held. -/
structure Building where
  current : List Row
  runs : List ScratchRun
  mem : QueryMemory
  mems : Nat
  memFilled : Bool
  pagesPerRun : Nat
  pageCountInRun : Nat

/-- The run being accumulated is closed, and the next begun. -/
def Building.close (b : Building) : Except SchemaError Building := do
  let run ← spec.closeRun b.current
  return { b with current := [], runs := b.runs ++ [run] }

/-- One turn of the loop. -/
def Building.takeRow (b : Building) (r : Row) : Except SchemaError Building :=
  let b := { b with current := b.current ++ [r] }
  if b.current.length % spec.recordsPerPage ≠ 0 then .ok b
  else if b.memFilled then
    if b.pageCountInRun + 1 = b.pagesPerRun then Building.close spec { b with pageCountInRun := 0 }
    else .ok { b with pageCountInRun := b.pageCountInRun + 1 }
  else
    match b.mem.tryReserve spec.chunkBytes with
    | none =>
      Building.close spec
        { b with memFilled := true, pagesPerRun := b.mems, pageCountInRun := 0 }
    | some mem =>
      .ok { b with mem, mems := b.mems + 1, pageCountInRun := b.pageCountInRun + 1 }

/-- Where the loop starts: with a page's worth of memory, or none. -/
def Building.start (mem : QueryMemory) : Building :=
  match mem.tryReserve spec.chunkBytes with
  | some mem =>
    { current := [], runs := [], mem, mems := 1, memFilled := false, pagesPerRun := 0,
      pageCountInRun := 0 }
  | none =>
    { current := [], runs := [], mem, mems := 0, memFilled := true, pagesPerRun := 1,
      pageCountInRun := 0 }

inductive InitialBuild where
  | empty
  | inMemory (rows : List Row)
  | spilled (runs : List ScratchRun)

def buildInitialRuns (mem : QueryMemory) (rows : List Row) : Except SchemaError InitialBuild := do
  let b ← rows.foldlM (Building.takeRow spec) (Building.start spec mem)
  if !b.memFilled && b.runs.isEmpty then
    return if b.current.isEmpty then .empty else .inMemory (spec.sortRows b.current)
  else
    let b ← if b.current.isEmpty then pure b else Building.close spec b
    return if b.runs.isEmpty then .empty else .spilled b.runs

/-! ## Merging -/

/-- A side of a merge: the pages its cursor has yet to read, the rows pending of the last
one it read, and whether the cursor has said that there is no more. -/
structure MergeSide where
  pages : List (List Row)
  buf : List Row
  done : Bool

namespace MergeSide

/-- A cursor over a run, with nothing pending. -/
def of (run : ScratchRun) : MergeSide := { pages := run.read, buf := [], done := false }

/-- A page is read where nothing is pending. -/
def refill (side : MergeSide) : MergeSide :=
  if side.buf.isEmpty && !side.done then
    match side.pages with
    | page :: pages => { side with pages, buf := page }
    | [] => { side with done := true }
  else side

/-- How many rows are left. -/
def left (side : MergeSide) : Nat := side.pages.flatten.length + side.buf.length

end MergeSide

/-- One turn of `merge_two`: the next row in order, and the sides without it. -/
def mergeStep (lhs rhs : MergeSide) : Option (Row × MergeSide × MergeSide) :=
  let lhs := lhs.refill
  let rhs := rhs.refill
  match lhs.buf, rhs.buf with
  | l :: ls, r :: rs =>
    if rowLe spec.order l r then some (l, { lhs with buf := ls }, rhs)
    else some (r, lhs, { rhs with buf := rs })
  | l :: ls, [] => some (l, { lhs with buf := ls }, rhs)
  | [], r :: rs => some (r, lhs, { rhs with buf := rs })
  | [], [] => none

theorem left_refill (side : MergeSide) : side.refill.left = side.left := by
  obtain ⟨pages, buf, done⟩ := side
  cases buf with
  | cons r rs => rfl
  | nil =>
    cases done with
    | true => rfl
    | false =>
      cases pages with
      | nil => rfl
      | cons p ps =>
        simp only [MergeSide.refill, MergeSide.left, List.flatten_cons, List.length_append,
          List.length_nil]
        simp
        omega

theorem left_mergeStep {lhs rhs lhs' rhs' : MergeSide} {r : Row}
    (h : spec.mergeStep lhs rhs = some (r, lhs', rhs')) :
    lhs'.left + rhs'.left + 1 = lhs.left + rhs.left := by
  rw [← left_refill lhs, ← left_refill rhs]
  unfold mergeStep at h
  generalize lhs.refill = l at h
  generalize rhs.refill = q at h
  obtain ⟨lp, lb, ld⟩ := l
  obtain ⟨qp, qb, qd⟩ := q
  cases lb with
  | nil =>
    cases qb with
    | nil => cases h
    | cons y ys =>
      cases h
      simp only [MergeSide.left, List.length_cons]
      omega
  | cons x xs =>
    cases qb with
    | nil =>
      cases h
      simp only [MergeSide.left, List.length_cons, List.length_nil]
      omega
    | cons y ys =>
      dsimp only at h
      split at h
      · cases h
        simp only [MergeSide.left, List.length_cons]
        omega
      · cases h
        simp only [MergeSide.left, List.length_cons]
        omega

/-- The loop of `merge_two`: the rows not yet written out, and the run written to. -/
def mergeLoop (lhs rhs : MergeSide) (out : List Row) (run : ScratchRun) :
    Except SchemaError (List Row × ScratchRun) :=
  match _h : spec.mergeStep lhs rhs with
  | none => .ok (out, run)
  | some (item, lhs', rhs') =>
    if (out ++ [item]).length = spec.recordsPerPage then do
      let run ← writeRows spec.dataSize run (out ++ [item]) false
      mergeLoop lhs' rhs' [] run
    else mergeLoop lhs' rhs' (out ++ [item]) run
termination_by lhs.left + rhs.left
decreasing_by
  all_goals
    have := spec.left_mergeStep _h
    omega

def mergeTwo (lhs rhs : ScratchRun) : Except SchemaError ScratchRun := do
  let (out, run) ← spec.mergeLoop (.of lhs) (.of rhs) [] .create
  if out.isEmpty then return run else writeRows spec.dataSize run out true

/-- `merge_runs`, over the runs from the last, as they are popped. -/
def mergeRuns : List ScratchRun → Except SchemaError (List ScratchRun)
  | lhs :: rhs :: rest => do return (← spec.mergeTwo lhs rhs) :: (← mergeRuns rest)
  | rest => .ok rest

/-- The rounds of `build_sort`, as many at most as there are runs. -/
def mergeRounds : Nat → List ScratchRun → Except SchemaError (List ScratchRun)
  | 0, runs => .ok runs
  | n + 1, runs =>
    if runs.length > 1 then do mergeRounds n (← spec.mergeRuns runs.reverse) else .ok runs

/-! ## The source -/

/-- `SortProgress`: the page being given out, and those its cursor has yet to read. -/
structure SortProgress where
  iter : Option (List Row)
  pages : List (List Row)

def SortProgress.next (p : SortProgress) : Option Row × SortProgress :=
  match p.iter with
  | none => (none, p)
  | some (r :: rest) => (some r, { p with iter := some rest })
  | some [] => turn p.pages
where
  /-- The next page is begun. -/
  turn : List (List Row) → Option Row × SortProgress
    | [] => (none, { iter := none, pages := [] })
    | (r :: rest) :: pages => (some r, { iter := some rest, pages })
    | [] :: pages => turn pages

inductive BuildOutcome where
  | empty
  | inMemory (rows : List Row)
  | spilled (progress : SortProgress)

def buildSort (mem : QueryMemory) (rows : List Row) : Except SchemaError BuildOutcome := do
  if spec.recordSize = 0 then .error (.unknownError "Record size is 0")
  else
    match ← spec.buildInitialRuns mem rows with
    | .empty => return .empty
    | .inMemory sorted => return .inMemory sorted
    | .spilled runs =>
      match (← spec.mergeRounds runs.length runs).getLast? with
      | none => return .empty
      | some last =>
        return .spilled { iter := last.read.head?, pages := last.read.tail }

/-- `CrateHeap::push`: the rows of the heap in order, of which the greatest leaves a heap
too large. -/
def heapPush (limit : Nat) (heap : List Row) (r : Row) : List Row :=
  let heap := heap.merge [r] (rowLe spec.order)
  if heap.length > limit then heap.dropLast else heap

end SortSpec

/-- `SortSource`: `results` are given out from the end. -/
structure SortSource where
  rows : List Row
  spec : SortSpec
  mem : QueryMemory
  results : Option (List Row)
  progress : Option SortSpec.SortProgress

namespace SortSource

/-- `SortSource::new`, over a source of some rows. -/
def new (rows : List Row) (spec : SortSpec) (mem : QueryMemory) : SortSource :=
  { rows, spec, mem, results := none, progress := none }

/-- The one-time phase of `next`: the rows are sorted, or the first of them kept. -/
def build (s : SortSource) : Except SchemaError SortSource :=
  match s.spec.limit with
  | some limit =>
    .ok { s with results := some (s.rows.foldl (s.spec.heapPush limit) []).reverse }
  | none => do
    match ← s.spec.buildSort s.mem s.rows with
    | .empty => return { s with results := some [] }
    | .inMemory sorted => return { s with results := some sorted.reverse }
    | .spilled progress => return { s with progress := some progress }

/-- What `next` gives once the one-time phase is over. -/
def give (s : SortSource) : Option Row × SortSource :=
  match s.results with
  | some results => (results.getLast?, { s with results := some results.dropLast })
  | none =>
    match s.progress with
    | some progress =>
      let (row, progress) := progress.next
      (row, { s with progress := some progress })
    | none => (none, s)

def next (s : SortSource) : Except SchemaError (Option Row × SortSource) := do
  if s.results.isSome || (s.spec.limit.isNone && s.progress.isSome) then return s.give
  else return (← s.build).give

end SortSource

end SquealDb.Sql
