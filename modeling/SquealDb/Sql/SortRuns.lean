import SquealDb.Lib.Fallible
import SquealDb.Sql.Sort

/-!
# What a sort writes out

Which rows `write_rows` can write, and what the runs it writes to then read back: those of
one run, and those of two runs merged.

A page refuses the tuple of rows that come to no more than a page holds but whose tuple,
with its header, comes to more: `Writable` leaves these out.
-/

namespace SquealDb.Sql

open Codec Lib

/-! ## Blocks of rows -/

/-- A list cut into blocks of `n`, of which the last may be shorter; uncut for no `n`. -/
def chunks {α : Type} (n : Nat) (xs : List α) : List (List α) :=
  if xs = [] then []
  else if _h : n = 0 ∨ xs.length ≤ n then [xs]
  else xs.take n :: chunks n (xs.drop n)
termination_by xs.length
decreasing_by
  simp only [List.length_drop]
  omega

theorem chunks_nil {α : Type} (n : Nat) : chunks n ([] : List α) = [] := by
  unfold chunks
  rfl

variable {n : Nat} {rows : List Row}

theorem chunks_short {α : Type} {xs : List α} (hne : xs ≠ []) (h : n = 0 ∨ xs.length ≤ n) :
    chunks n xs = [xs] := by
  rw [chunks, if_neg hne, dif_pos h]

theorem chunks_append {α : Type} {xs : List α} (hn : 0 < n) (h : xs.length = n) (ys : List α) :
    chunks n (xs ++ ys) = xs :: chunks n ys := by
  have hne : xs ≠ [] := by
    intro hxs
    rw [hxs, List.length_nil] at h
    omega
  cases ys with
  | nil => rw [List.append_nil, chunks_nil, chunks_short hne (Or.inr h.le)]
  | cons y ys =>
    have hlong : ¬ (n = 0 ∨ (xs ++ y :: ys).length ≤ n) := by
      simp only [List.length_append, List.length_cons]
      omega
    rw [chunks, if_neg (by simp), dif_neg hlong, List.take_left' h, List.drop_left' h]

theorem flatten_chunks {α : Type} (n : Nat) (xs : List α) : (chunks n xs).flatten = xs := by
  induction xs using chunks.induct n with
  | case1 => rw [chunks_nil, List.flatten_nil]
  | case2 xs hne h => rw [chunks_short hne h, List.flatten_singleton]
  | case3 xs hne h ih =>
    rw [chunks, if_neg hne, dif_neg h, List.flatten_cons, ih, List.take_append_drop]

/-! ## Writing -/

/-- Rows that `write_rows` can write: where they come to no more than a page holds, so does
their tuple, and otherwise each half of them can be written. -/
def Writable (dataSize : Nat) (rows : List Row) : Prop :=
  if (encodeRows rows).length ≤ dataSize then pageTupleSize rows ≤ dataSize
  else if rows.length < 2 then False
  else
    Writable dataSize (rows.take (rows.length / 2)) ∧
      Writable dataSize (rows.drop (rows.length / 2))
termination_by rows.length
decreasing_by
  all_goals
    simp only [List.length_take, List.length_drop]
    omega

namespace ScratchRun

/-- The pages of a run hold rows, none of them empty but the current one where it has just
been begun. -/
def Holds (run : ScratchRun) (rows : List Row) (begun : Bool) : Prop :=
  ∃ blocks : List (List Row), (∀ b ∈ blocks, b ≠ []) ∧ blocks.flatten = rows ∧
    run.pages = blocks ++ if begun then [[]] else []

theorem holds_create : create.Holds [] true :=
  ⟨[], fun _ hb => (List.not_mem_nil hb).elim, rfl, rfl⟩

variable {run : ScratchRun} {rows : List Row}

/-- A run reads back the rows it holds. -/
theorem Holds.read {begun : Bool} (h : run.Holds rows begun) : run.read.flatten = rows := by
  obtain ⟨blocks, hne, hrows, hpages⟩ := h
  have hall : ∀ b ∈ blocks, (!b.isEmpty) = true := by
    intro b hb
    have hb' := hne b hb
    cases b with
    | nil => exact absurd rfl hb'
    | cons r rs => rfl
  have hread : run.read = blocks := by
    rw [ScratchRun.read, hpages, List.takeWhile_append_of_pos hall]
    cases begun <;> simp
  rw [hread, hrows]

theorem setContent_settles {written : List Row} (dataSize : Nat) (h : run.Holds written true)
    (hne : rows ≠ []) :
    Settles (run.setContent dataSize rows) (pageTupleSize rows ≤ dataSize)
      fun run' => run'.Holds (written ++ rows) false := by
  unfold ScratchRun.setContent
  by_cases hfit : dataSize < pageTupleSize rows
  · rw [if_pos hfit]
    show ¬ _
    omega
  · rw [if_neg hfit]
    obtain ⟨blocks, hblocks, hrows, hpages⟩ := h
    have hpages' : run.pages.dropLast ++ [rows] = blocks ++ [rows] := by
      rw [hpages]
      simp
    refine Settles.ok (by omega) ⟨blocks ++ [rows], ?_, ?_, ?_⟩
    · intro b hb
      rcases List.mem_append.mp hb with hb | hb
      · exact hblocks b hb
      · rw [List.mem_singleton.mp hb]
        exact hne
    · rw [List.flatten_append, List.flatten_singleton, hrows]
    · simpa using hpages'

theorem Holds.newPage (h : run.Holds rows false) :
    run.newPage.Holds rows true := by
  obtain ⟨blocks, hblocks, hrows, hpages⟩ := h
  refine ⟨blocks, hblocks, hrows, ?_⟩
  rw [ScratchRun.newPage, hpages]
  simp

end ScratchRun

/-- Writing rows succeeds where they are `Writable`, and adds them to the run. -/
theorem writeRows_settles (dataSize : Nat) (last : Bool) {run : ScratchRun} {written : List Row}
    (h : run.Holds written true) (hne : rows ≠ []) :
    Settles (writeRows dataSize run rows last) (Writable dataSize rows)
      fun run' => run'.Holds (written ++ rows) (!last) := by
  induction hn : rows.length using Nat.strong_induction_on generalizing run written rows last
  rename_i n ih
  rw [writeRows, Writable]
  by_cases hlen : (encodeRows rows).length ≤ dataSize
  · rw [if_pos hlen, if_pos hlen]
    have hset := run.setContent_settles dataSize h hne
    have hlast : ∀ run' : ScratchRun, run'.Holds (written ++ rows) false →
        Settles (pure (if last then run' else run'.newPage) : Except SchemaError ScratchRun)
          True fun r => r.Holds (written ++ rows) (!last) := by
      intro run' hrun'
      cases last with
      | true => exact Settles.pure trivial hrun'
      | false => exact Settles.pure trivial hrun'.newPage
    exact (hset.bind hlast).congr (and_iff_left trivial) fun r hr => hr
  · rw [if_neg hlen, if_neg hlen]
    by_cases hshort : rows.length < 2
    · rw [if_pos hshort, if_pos hshort]
      exact fun hfalse => hfalse
    · rw [if_neg hshort, if_neg hshort]
      have hfirst : rows.take (rows.length / 2) ≠ [] := by
        rw [← List.length_pos_iff, List.length_take]
        omega
      have hrest : rows.drop (rows.length / 2) ≠ [] := by
        rw [← List.length_pos_iff, List.length_drop]
        omega
      have h₁ := ih (rows.take (rows.length / 2)).length
        (by rw [List.length_take]; omega) false h hfirst rfl
      refine h₁.bind fun run' hrun' => ?_
      have h₂ := ih (rows.drop (rows.length / 2)).length
        (by rw [List.length_drop]; omega) last hrun' hrest rfl
      refine h₂.congr Iff.rfl fun r hr => ?_
      rwa [List.append_assoc, List.take_append_drop] at hr

/-- The blocks of `n` rows that a run is written in are `Writable`. -/
def BlocksWritable (dataSize n : Nat) (rows : List Row) : Prop :=
  ∀ b ∈ chunks n rows, Writable dataSize b

theorem blocksWritable_nil (dataSize n : Nat) : BlocksWritable dataSize n [] := by
  intro b hb
  rw [chunks_nil] at hb
  exact (List.not_mem_nil hb).elim

theorem blocksWritable_short {dataSize : Nat} (hne : rows ≠ []) (h : n = 0 ∨ rows.length ≤ n) :
    BlocksWritable dataSize n rows ↔ Writable dataSize rows := by
  rw [BlocksWritable, chunks_short hne h]
  constructor
  · intro hall
    exact hall rows (List.mem_singleton.mpr rfl)
  · intro hrows b hb
    rwa [List.mem_singleton.mp hb]

theorem blocksWritable_append {dataSize : Nat} (hn : 0 < n) (h : rows.length = n)
    (rest : List Row) :
    BlocksWritable dataSize n (rows ++ rest) ↔
      Writable dataSize rows ∧ BlocksWritable dataSize n rest := by
  rw [BlocksWritable, BlocksWritable, chunks_append hn h, List.forall_mem_cons]

/-- What a run's cursor yields comes to some rows. -/
def ScratchRun.Reads (run : ScratchRun) (rows : List Row) : Prop := run.read.flatten = rows

namespace SortSpec

variable (spec : SortSpec)

variable {run : ScratchRun}

theorem writeChunks_settles {written rows : List Row} (h : run.Holds written true) :
    Settles (spec.writeChunks run rows)
      (BlocksWritable spec.dataSize (max spec.recordsPerPage 1) rows)
      fun run' => run'.Reads (written ++ rows) := by
  induction hn : rows.length using Nat.strong_induction_on generalizing run written rows
  rename_i n ih
  have hpage : 0 < max spec.recordsPerPage 1 := by omega
  rw [writeChunks]
  by_cases hshort : rows.length ≤ max spec.recordsPerPage 1
  · rw [if_pos hshort]
    cases rows with
    | nil =>
      rw [List.isEmpty_nil, if_pos rfl, List.append_nil]
      exact Settles.ok (blocksWritable_nil _ _) h.read
    | cons r rs =>
      rw [if_neg (by simp)]
      have hwrite := writeRows_settles spec.dataSize true h
        (List.cons_ne_nil r rs)
      exact hwrite.congr (blocksWritable_short (List.cons_ne_nil r rs) (Or.inr hshort)).symm
        fun run' hrun' => hrun'.read
  · rw [if_neg hshort]
    have hlen : (rows.take (max spec.recordsPerPage 1)).length = max spec.recordsPerPage 1 := by
      rw [List.length_take]
      omega
    have hne : rows.take (max spec.recordsPerPage 1) ≠ [] := by
      rw [← List.length_pos_iff, hlen]
      exact hpage
    have hwrite := writeRows_settles spec.dataSize false h hne
    have hall := hwrite.bind fun run' hrun' =>
      ih (rows.drop (max spec.recordsPerPage 1)).length
        (by rw [List.length_drop]; omega) hrun' rfl
    refine hall.congr ?_ fun run' hrun' => ?_
    · rw [← blocksWritable_append hpage hlen, List.take_append_drop]
    · rwa [List.append_assoc, List.take_append_drop] at hrun'

/-- A sorted run is written where its blocks of a page's rows are `Writable`. -/
theorem closeRun_settles (rows : List Row) :
    Settles (spec.closeRun rows)
      (BlocksWritable spec.dataSize (max spec.recordsPerPage 1) (spec.sortRows rows))
      fun run => run.Reads (spec.sortRows rows) :=
  spec.writeChunks_settles ScratchRun.holds_create

/-! ## Merging two runs -/

/-- The rows left of a side. -/
def MergeSide.rest (side : MergeSide) : List Row := side.buf ++ side.pages.flatten

/-- A side none of whose pages is empty, and with none left once its cursor is done. -/
structure MergeSide.Whole (side : MergeSide) : Prop where
  pages : ∀ p ∈ side.pages, p ≠ []
  ended : side.done = true → side.pages = []

theorem MergeSide.whole_of (run : ScratchRun) : (MergeSide.of run).Whole where
  pages := by
    intro p hp
    have hpage := List.all_eq_true.mp List.all_takeWhile p hp
    intro hnil
    rw [hnil] at hpage
    cases hpage
  ended := fun h => by cases h

theorem MergeSide.rest_of {rows : List Row} (h : run.Reads rows) :
    (MergeSide.of run).rest = rows := h

theorem MergeSide.rest_refill (side : MergeSide) : side.refill.rest = side.rest := by
  obtain ⟨pages, buf, done⟩ := side
  cases buf with
  | cons r rs => rfl
  | nil =>
    cases done with
    | true => rfl
    | false =>
      cases pages with
      | nil => rfl
      | cons p ps => simp [MergeSide.refill, MergeSide.rest]

theorem MergeSide.Whole.refill {side : MergeSide} (h : side.Whole) : side.refill.Whole := by
  obtain ⟨pages, buf, done⟩ := side
  cases buf with
  | cons r rs => exact h
  | nil =>
    cases done with
    | true => exact h
    | false =>
      cases pages with
      | nil => exact ⟨h.pages, fun _ => rfl⟩
      | cons p ps =>
        exact ⟨fun q hq => h.pages q (List.mem_cons_of_mem p hq), fun hdone => by cases hdone⟩

/-- Where nothing is pending after a page was asked for, no row is left. -/
theorem MergeSide.Whole.rest_of_refill {side : MergeSide} (h : side.Whole)
    (hbuf : side.refill.buf = []) : side.refill.rest = [] := by
  obtain ⟨pages, buf, done⟩ := side
  cases buf with
  | cons r rs => cases hbuf
  | nil =>
    cases done with
    | true =>
      have hpages : pages = [] := h.ended rfl
      subst hpages
      rfl
    | false =>
      cases pages with
      | nil => rfl
      | cons p ps => exact absurd hbuf (h.pages p List.mem_cons_self)

theorem mergeStep_none {lhs rhs : MergeSide} (hl : lhs.Whole) (hr : rhs.Whole)
    (h : spec.mergeStep lhs rhs = none) : lhs.rest = [] ∧ rhs.rest = [] := by
  rw [← lhs.rest_refill, ← rhs.rest_refill]
  unfold mergeStep at h
  cases hlb : lhs.refill.buf with
  | nil =>
    cases hrb : rhs.refill.buf with
    | nil => exact ⟨hl.rest_of_refill hlb, hr.rest_of_refill hrb⟩
    | cons y ys =>
      simp only [hlb, hrb] at h
      cases h
  | cons x xs =>
    cases hrb : rhs.refill.buf with
    | nil =>
      simp only [hlb, hrb] at h
      cases h
    | cons y ys =>
      simp only [hlb, hrb] at h
      split at h <;> cases h

/-- A turn of a merge takes the head of the merged rows, and leaves the rest of them. -/
theorem mergeStep_some {lhs rhs lhs' rhs' : MergeSide} {item : Row} (hl : lhs.Whole)
    (hr : rhs.Whole) (h : spec.mergeStep lhs rhs = some (item, lhs', rhs')) :
    lhs'.Whole ∧ rhs'.Whole ∧
      lhs.rest.merge rhs.rest (rowLe spec.order) =
        item :: lhs'.rest.merge rhs'.rest (rowLe spec.order) := by
  rw [← lhs.rest_refill, ← rhs.rest_refill]
  have hl' := hl.refill
  have hr' := hr.refill
  have hlnil := hl.rest_of_refill
  have hrnil := hr.rest_of_refill
  unfold mergeStep at h
  generalize lhs.refill = l at *
  generalize rhs.refill = r at *
  obtain ⟨lp, lb, ld⟩ := l
  obtain ⟨rp, rb, rd⟩ := r
  cases lb with
  | nil =>
    cases rb with
    | nil => cases h
    | cons y ys =>
      cases h
      refine ⟨hl', ⟨hr'.pages, hr'.ended⟩, ?_⟩
      rw [hlnil rfl, List.nil_merge, List.nil_merge]
      rfl
  | cons x xs =>
    cases rb with
    | nil =>
      cases h
      refine ⟨⟨hl'.pages, hl'.ended⟩, hr', ?_⟩
      rw [hrnil rfl, List.merge_right, List.merge_right]
      rfl
    | cons y ys =>
      dsimp only at h
      split at h
      · rename_i hle
        cases h
        refine ⟨⟨hl'.pages, hl'.ended⟩, hr', ?_⟩
        simp only [MergeSide.rest, List.cons_append]
        rw [List.cons_merge_cons_pos _ _ _ hle]
      · rename_i hle
        cases h
        refine ⟨hl', ⟨hr'.pages, hr'.ended⟩, ?_⟩
        simp only [MergeSide.rest, List.cons_append]
        rw [List.cons_merge_cons_neg _ _ _ hle]

/-- What `merge_two` does with the rows its loop has left over. -/
def flush (left : List Row × ScratchRun) : Except SchemaError ScratchRun :=
  if left.1.isEmpty then return left.2 else writeRows spec.dataSize left.2 left.1 true

theorem mergeTwo_eq (lhs rhs : ScratchRun) :
    spec.mergeTwo lhs rhs = spec.mergeLoop (.of lhs) (.of rhs) [] .create >>= spec.flush := rfl

theorem mergeLoop_settles {lhs rhs : MergeSide} {written : List Row} (out : List Row)
    (hl : lhs.Whole) (hr : rhs.Whole) (hrun : run.Holds written true)
    (hout : spec.recordsPerPage = 0 ∨ out.length < spec.recordsPerPage) :
    Settles (spec.mergeLoop lhs rhs out run >>= spec.flush)
      (BlocksWritable spec.dataSize spec.recordsPerPage
        (out ++ lhs.rest.merge rhs.rest (rowLe spec.order)))
      fun run' => run'.Reads
        (written ++ (out ++ lhs.rest.merge rhs.rest (rowLe spec.order))) := by
  induction hn : lhs.left + rhs.left using Nat.strong_induction_on
    generalizing lhs rhs written out run
  rename_i n ih
  rw [mergeLoop]
  split
  · -- both sides have run out
    rename_i hstep
    obtain ⟨hlrest, hrrest⟩ := spec.mergeStep_none hl hr hstep
    rw [hlrest, hrrest, List.nil_merge, List.append_nil]
    show Settles (spec.flush (out, run)) _ _
    unfold flush
    cases out with
    | nil =>
      rw [List.isEmpty_nil, if_pos rfl, List.append_nil]
      exact Settles.pure (blocksWritable_nil _ _) hrun.read
    | cons r rs =>
      rw [if_neg (by simp)]
      have hwrite := writeRows_settles spec.dataSize true hrun
        (List.cons_ne_nil r rs)
      have hshort : spec.recordsPerPage = 0 ∨ (r :: rs).length ≤ spec.recordsPerPage :=
        hout.imp_right Nat.le_of_lt
      exact hwrite.congr (blocksWritable_short (List.cons_ne_nil r rs) hshort).symm
        fun run' hrun' => hrun'.read
  · rename_i item lhs' rhs' hstep
    obtain ⟨hl', hr', hmerged⟩ := spec.mergeStep_some hl hr hstep
    have hleft := spec.left_mergeStep hstep
    have hsplit : out ++ lhs.rest.merge rhs.rest (rowLe spec.order) =
        (out ++ [item]) ++ lhs'.rest.merge rhs'.rest (rowLe spec.order) := by
      rw [hmerged, List.append_assoc, List.singleton_append]
    rw [hsplit]
    by_cases hfull : (out ++ [item]).length = spec.recordsPerPage
    · -- a page's worth is written out
      have hpage : 0 < spec.recordsPerPage := by
        rw [← hfull, List.length_append, List.length_singleton]
        omega
      rw [if_pos hfull, bind_assoc]
      have hwrite := writeRows_settles spec.dataSize false hrun
        (show out ++ [item] ≠ [] by simp)
      have hall := hwrite.bind fun run' hrun' =>
        ih (lhs'.left + rhs'.left) (by omega) [] hl' hr' hrun' (Or.inr hpage) rfl
      refine hall.congr ?_ fun run' hrun' => ?_
      · rw [blocksWritable_append hpage hfull]
        rfl
      · rwa [List.append_assoc] at hrun'
    · rw [if_neg hfull]
      refine ih (lhs'.left + rhs'.left) (by omega) (out ++ [item]) hl' hr' hrun ?_ rfl
      rw [List.length_append, List.length_singleton] at hfull ⊢
      omega

/-- Two runs merged are written where their merged rows' blocks are `Writable`. -/
theorem mergeTwo_settles {lhs rhs : ScratchRun} {xs ys : List Row} (hl : lhs.Reads xs)
    (hr : rhs.Reads ys) :
    Settles (spec.mergeTwo lhs rhs)
      (BlocksWritable spec.dataSize spec.recordsPerPage (xs.merge ys (rowLe spec.order)))
      fun run => run.Reads (xs.merge ys (rowLe spec.order)) := by
  have hloop := spec.mergeLoop_settles [] (MergeSide.whole_of lhs) (MergeSide.whole_of rhs)
    ScratchRun.holds_create (by
      rw [List.length_nil]
      omega)
  rw [MergeSide.rest_of hl, MergeSide.rest_of hr] at hloop
  rw [mergeTwo_eq]
  exact hloop

end SortSpec

end SquealDb.Sql
