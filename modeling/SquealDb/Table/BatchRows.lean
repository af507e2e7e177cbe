import SquealDb.Lib.Run
import SquealDb.Table.BatchColumns
import SquealDb.Table.RowHistory

/-!
# Rows put into a batch

A batch is filled with rows, checked, read, cleared and filled again. The rows are the ones
`decode_row` reads whole, in any of the forms and of any version; whatever their forms, the
batch then gives their values, as long as no column that has turned to single values meets a
packed row's value, and its buffers' ends fit 32 bits.
-/

namespace SquealDb.Table

open Codec Codec.KeyCode Lib Sql

/-! ## One column of a row -/

/-- A column of a batch: left out, or of its type and standing for the values `vs`. -/
def Stands (checked skipped : Bool) (t : DataType) (c : Column) (vs : List ValueItem) : Prop :=
  if skipped then c.isAbsent = true else c.Of t ∧ c.Shows checked vs

/-- The column can take the row's value at `pos`: one of single values takes no packed one, and
the bytes fit. -/
def Takes (t : SqlTable) (sr : StoredRow) (pos : Nat) (v : ValueItem) (c : Column) : Prop :=
  c.isAbsent = true ∨
    ((c.ofValues = true → ∀ p, sr.version = t.version →
        Packed.parse sr.values t.fields.length = some p → p.isNull pos = true) ∧
      c.data.buffered + contentLength v < 2 ^ 32)

variable {checked skipped : Bool} {t : DataType} {c : Column} {vs : List ValueItem} {pos : Nat}
  {columns : List Column} {Q : Nat → Column → Prop}

theorem Stands.not_absent (h : Stands checked skipped t c vs) (hc : c.isAbsent = false) :
    skipped = false ∧ c.Of t ∧ c.Shows checked vs := by
  rw [Stands] at h
  cases skipped with
  | true => exact absurd (hc.symm.trans h) Bool.false_ne_true
  | false => exact ⟨rfl, h⟩

/-- A column left out takes nothing. -/
theorem Stands.skip {next : Column} (h : Stands checked skipped t c vs) (hc : c.isAbsent = true)
    (hnext : next.isAbsent = true) (more : List ValueItem) :
    Stands checked skipped t next more := by
  rw [Stands] at h ⊢
  cases skipped with
  | true => exact hnext
  | false => exact absurd (h.2.not_absent.symm.trans hc) Bool.false_ne_true

theorem isAbsent_pushNull (h : c.isAbsent = true) : c.pushNull.isAbsent = true := by
  obtain ⟨data, null, nulls⟩ := c
  cases data <;> exact h

theorem isAbsent_push (h : c.isAbsent = true) (v : ValueItem) :
    ∃ next, c.push v = some next ∧ next.isAbsent = true := by
  rw [Column.push, if_pos h]
  split
  · exact ⟨c.pushNull, rfl, isAbsent_pushNull h⟩
  · exact ⟨c, rfl, h⟩

theorem stands_of (hof : c.Of t) (h : c.Shows checked vs) :
    Stands checked false t c vs := ⟨hof, h⟩

theorem Stands.finish (h : Stands false skipped t c vs) :
    ∃ next, c.finish = .ok next ∧ Stands true skipped t next vs := by
  rw [Stands] at h
  cases skipped with
  | true =>
    obtain ⟨data, null, nulls⟩ := c
    cases data with
    | absent => exact ⟨_, rfl, rfl⟩
    | _ => exact nomatch h
  | false =>
    obtain ⟨next, hnext, hshows, hof⟩ := h.2.finish h.1
    exact ⟨next, hnext, stands_of hof hshows⟩

theorem Stands.clear (h : Stands checked skipped t c vs) : Stands false skipped t c.clear [] := by
  rw [Stands] at h
  cases skipped with
  | true =>
    obtain ⟨data, null, nulls⟩ := c
    cases data with
    | absent => exact rfl
    | _ => exact nomatch h
  | false => exact stands_of (Column.clear_of h.1) (Column.clear_shows h.1)

theorem Stands.get (h : Stands true skipped t c vs) {i : Nat} {v : ValueItem}
    (hv : vs[i]? = some v) :
    c.get i = some (if skipped then .null else v) := by
  rw [Stands] at h
  cases skipped with
  | true =>
    obtain ⟨data, null, nulls⟩ := c
    cases data with
    | absent => exact ite_self _
    | _ => exact nomatch h
  | false => exact h.2.get hv

/-- A packed row's column goes into a batch's. -/
theorem pushPackedAt_ok {p : Packed} {v : ValueItem} (h : Stands false skipped t c vs)
    (hv : p.value pos (p.startOf pos) (p.endOf pos) t = some v)
    (htakes : c.isAbsent = true ∨ ((c.ofValues = true → p.isNull pos = true) ∧
      c.data.buffered + contentLength v < 2 ^ 32)) :
    ∃ next, pushPackedAt p pos (p.startOf pos) c = .ok next ∧
      Stands false skipped t next (vs ++ [v]) := by
  rw [pushPackedAt]
  by_cases hc : c.isAbsent = true
  · rw [if_pos hc]
    exact ⟨c, rfl, h.skip hc hc _⟩
  · obtain ⟨hvalues, hfit⟩ := htakes.resolve_left hc
    obtain ⟨rfl, hof, hshows⟩ := h.not_absent (by simpa using hc)
    rw [if_neg hc]
    rw [Packed.value] at hv
    by_cases hnull : p.isNull pos = true
    · rw [if_pos hnull] at hv ⊢
      obtain rfl := Option.some.inj hv
      exact ⟨c.pushNull, rfl, stands_of (Column.pushNull_of hof) (hshows.pushNull (by omega))⟩
    · rw [if_neg hnull] at hv ⊢
      obtain ⟨bytes, hbytes, hread⟩ := Option.bind_eq_some_iff.mp hv
      have hsingle : c.ofValues = false := by
        cases hc' : c.ofValues with
        | false => rfl
        | true => exact absurd (hvalues hc') hnull
      obtain ⟨next, htaken, hpush⟩ := Column.pushPacked_taken hof hsingle hread
      rw [hbytes]
      exact ⟨c.pushed next, hpush,
        stands_of (Column.pushed_of hof htaken) (hshows.pushed htaken hfit)⟩

/-- A decoded row's column goes into a batch's. -/
theorem pushAt_ok (row : List ValueItem) (h : Stands false skipped t c vs)
    (hfit : c.isAbsent = true ∨ c.data.buffered + contentLength (row.getD pos .null) < 2 ^ 32) :
    ∃ next, pushAt row pos c = some next ∧
      Stands false skipped t next (vs ++ [row.getD pos .null]) := by
  rw [pushAt]
  rw [List.getD_eq_getElem?_getD] at hfit ⊢
  by_cases hc : c.isAbsent = true
  · cases row[pos]? with
    | none => exact ⟨c.pushNull, rfl, h.skip hc (isAbsent_pushNull hc) _⟩
    | some v =>
      obtain ⟨next, hpush, hnext⟩ := isAbsent_push hc v
      exact ⟨next, hpush, h.skip hc hnext _⟩
  · obtain ⟨rfl, hof, hshows⟩ := h.not_absent (by simpa using hc)
    have hbytes := hfit.resolve_left hc
    cases hrow : row[pos]? with
    | none =>
      rw [hrow] at hbytes
      exact ⟨c.pushNull, rfl, stands_of (Column.pushNull_of hof) (hshows.pushNull hbytes)⟩
    | some v =>
      rw [hrow] at hbytes
      obtain ⟨next, hpush, hnext⟩ := hshows.push hbytes
      exact ⟨next, hpush, stands_of (Column.push_of hof hpush) hnext⟩

/-! ## A whole row -/

/-- Column `j` of a batch stands for its values of the rows. -/
def StandsAt (checked : Bool) (wanted : Option (List Bool)) (fields : SchemaVersion)
    (rows : List (List ValueItem)) (j : Nat) (c : Column) : Prop :=
  ∀ f, fields[j]? = some f →
    Stands checked (unwanted wanted j) f.datatype c (rows.map (·.getD j .null))

/-- The columns of a batch, each standing for its values of the rows so far. -/
def Holds (checked : Bool) (wanted : Option (List Bool)) (fields : SchemaVersion)
    (rows : List (List ValueItem)) (columns : List Column) : Prop :=
  columns.length = fields.length ∧
    ∀ j c, columns[j]? = some c → StandsAt checked wanted fields rows j c

theorem holds_of {wanted : Option (List Bool)} {fields : SchemaVersion}
    {rows : List (List ValueItem)} {nexts : List Column} (hcount : columns.length = fields.length)
    (hlen : nexts.length = columns.length)
    (hnexts : ∀ j next, nexts[j]? = some next → StandsAt checked wanted fields rows (0 + j) next) :
    Holds checked wanted fields rows nexts := by
  refine ⟨hlen.trans hcount, ?_⟩
  intro j next hnext
  have hstands := hnexts j next hnext
  rwa [Nat.zero_add] at hstands

theorem pushPackedRow_ok {p : Packed} (h : ∀ j c, columns[j]? = some c →
      ∃ next, pushPackedAt p (pos + j) (p.startOf (pos + j)) c = .ok next ∧ Q (pos + j) next) :
    ∃ nexts, pushPackedRow p pos (p.startOf pos) columns = .ok nexts ∧
      nexts.length = columns.length ∧ ∀ j next, nexts[j]? = some next → Q (pos + j) next := by
  induction columns generalizing pos with
  | nil => exact ⟨[], rfl, rfl, fun j next hj => nomatch hj⟩
  | cons c columns ih =>
    obtain ⟨next, hnext, hq⟩ := h 0 c rfl
    have hlater : ∀ j c, columns[j]? = some c → ∃ next,
        pushPackedAt p (pos + 1 + j) (p.startOf (pos + 1 + j)) c = .ok next ∧
          Q (pos + 1 + j) next := by
      intro j c hj
      have hnext := h (j + 1) c hj
      rwa [show pos + (j + 1) = pos + 1 + j by omega] at hnext
    obtain ⟨nexts, hrest, hlen, hqs⟩ := ih hlater
    rw [Nat.add_zero] at hnext hq
    have hstart : p.startOf (pos + 1) = p.endOf pos := rfl
    rw [hstart] at hrest
    refine ⟨next :: nexts, ?_, congrArg (· + 1) hlen, ?_⟩
    · rw [pushPackedRow, hnext]
      show (pushPackedRow p (pos + 1) (p.endOf pos) columns).map (next :: ·) = _
      rw [hrest]
      rfl
    · intro j later hj
      cases j with
      | zero =>
        obtain rfl := Option.some.inj hj
        exact hq
      | succ j =>
        have hlater := hqs j later hj
        rwa [show pos + 1 + j = pos + (j + 1) by omega] at hlater

theorem pushRow_ok {row : List ValueItem} (h : ∀ j c, columns[j]? = some c →
      ∃ next, pushAt row (pos + j) c = some next ∧ Q (pos + j) next) :
    ∃ nexts, pushRow row pos columns = some nexts ∧
      nexts.length = columns.length ∧ ∀ j next, nexts[j]? = some next → Q (pos + j) next := by
  induction columns generalizing pos with
  | nil => exact ⟨[], rfl, rfl, fun j next hj => nomatch hj⟩
  | cons c columns ih =>
    obtain ⟨next, hnext, hq⟩ := h 0 c rfl
    have hlater : ∀ j c, columns[j]? = some c →
        ∃ next, pushAt row (pos + 1 + j) c = some next ∧ Q (pos + 1 + j) next := by
      intro j c hj
      have hnext := h (j + 1) c hj
      rwa [show pos + (j + 1) = pos + 1 + j by omega] at hnext
    obtain ⟨nexts, hrest, hlen, hqs⟩ := ih hlater
    rw [Nat.add_zero] at hnext hq
    refine ⟨next :: nexts, ?_, congrArg (· + 1) hlen, ?_⟩
    · rw [pushRow, hnext]
      show (pushRow row (pos + 1) columns).map (next :: ·) = _
      rw [hrest]
      rfl
    · intro j later hj
      cases j with
      | zero =>
        obtain rfl := Option.some.inj hj
        exact hq
      | succ j =>
        have hlater := hqs j later hj
        rwa [show pos + 1 + j = pos + (j + 1) by omega] at hlater

/-- A row that is read whole goes into a batch, or is dropped for a test that fails. -/
theorem decodeRowToBatch_ok {t : SqlTable} {sr : StoredRow} {data : List UInt8}
    {row : List ValueItem} (hversions : t.versions.length ≤ 2 ^ 32)
    (hsr : StoredRow.fromBytes data = .ok sr) (hread : ReadWhole t sr row)
    {tests : List ColumnTest} {accepted : Bool} (hpasses : t.rowPasses sr tests = .ok accepted)
    (hparsed : ∀ p, sr.version = t.version → Packed.parse sr.values t.fields.length = some p →
      testsParsed p tests = .ok accepted)
    {wanted : Option (List Bool)} {rows : List (List ValueItem)} {batch : Batch}
    (h : Holds false wanted t.fields rows batch.columns)
    (htakes : ∀ j c, batch.columns[j]? = some c → Takes t sr j (row.getD j .null) c) :
    ∃ next, t.decodeRowToBatch data tests batch = some (.ok (accepted, next)) ∧
      Holds false wanted t.fields (if accepted then rows ++ [row] else rows) next.columns ∧
      next.len = if accepted then batch.len + 1 else batch.len := by
  have hfield : ∀ {j : Nat} {c}, batch.columns[j]? = some c → ∃ f, t.fields[j]? = some f := by
    intro j c hj
    have hlt : j < t.fields.length := by
      rw [← h.1]
      exact (List.getElem?_eq_some_iff.mp hj).1
    exact ⟨_, List.getElem?_eq_getElem hlt⟩
  rw [SqlTable.decodeRowToBatch, hsr]
  dsimp only
  cases hp : (if sr.version = t.version then Packed.parse sr.values t.fields.length else none) with
  | some p =>
    have hver : sr.version = t.version := by
      by_contra hne
      rw [if_neg hne] at hp
      exact nomatch hp
    rw [if_pos hver] at hp
    dsimp only
    rw [hparsed p hver hp]
    cases accepted with
    | false => exact ⟨batch, rfl, h, rfl⟩
    | true =>
      obtain ⟨hlen, hvalues⟩ := hread.packed_inv hversions hver hp
      have hcolumns : ∀ j c, batch.columns[j]? = some c → ∃ next,
          pushPackedAt p (0 + j) (p.startOf (0 + j)) c = .ok next ∧
            StandsAt false wanted t.fields (rows ++ [row]) (0 + j) next := by
        intro j c hj
        rw [Nat.zero_add]
        obtain ⟨f, hf⟩ := hfield hj
        have hlt : j < row.length := by
          rw [← hlen]
          exact (List.getElem?_eq_some_iff.mp hf).1
        have hv := List.getElem?_eq_getElem hlt
        have hget : row.getD j .null = row[j] := by
          rw [List.getD_eq_getElem?_getD, hv, Option.getD_some]
        have htake := htakes j c hj
        rw [hget] at htake
        obtain ⟨next, hpush, hstands⟩ := pushPackedAt_ok (h.2 j c hj f hf)
          (hvalues j f _ hf hv) (htake.imp_right fun ⟨hone, hfit⟩ =>
            ⟨fun hc => hone hc p hver hp, hfit⟩)
        refine ⟨next, hpush, fun g hg => ?_⟩
        obtain rfl := Option.some.inj (hf.symm.trans hg)
        rw [List.map_append, List.map_singleton, hget]
        exact hstands
      obtain ⟨nexts, hpush, hcount, hstands⟩ :=
        pushPackedRow_ok (Q := StandsAt false wanted t.fields (rows ++ [row]))
        hcolumns
      have hpush' : pushPackedRow p 0 0 batch.columns = .ok nexts := hpush
      refine ⟨batch.rowPushed nexts, ?_, holds_of h.1 hcount hstands, rfl⟩
      dsimp only
      rw [hpush']
      rfl
  | none =>
    dsimp only
    rw [decodeRowIf_eq hsr hread hpasses none]
    cases accepted with
    | false => exact ⟨batch, rfl, h, rfl⟩
    | true =>
      have hrow : wantedOf t sr none row = row := by
        rw [wantedOf, unwanted_none, masked_false, ite_self]
      have hcolumns : ∀ j c, batch.columns[j]? = some c → ∃ next,
          pushAt row (0 + j) c = some next ∧
            StandsAt false wanted t.fields (rows ++ [row]) (0 + j) next := by
        intro j c hj
        rw [Nat.zero_add]
        obtain ⟨f, hf⟩ := hfield hj
        obtain ⟨next, hpush, hstands⟩ := pushAt_ok row (h.2 j c hj f hf)
          ((htakes j c hj).imp_right And.right)
        refine ⟨next, hpush, fun g hg => ?_⟩
        obtain rfl := Option.some.inj (hf.symm.trans hg)
        rw [List.map_append]
        exact hstands
      obtain ⟨nexts, hpush, hcount, hstands⟩ :=
        pushRow_ok (Q := StandsAt false wanted t.fields (rows ++ [row]))
        hcolumns
      refine ⟨batch.rowPushed nexts, ?_, holds_of h.1 hcount hstands, rfl⟩
      show (pushRow (wantedOf t sr none row) 0 batch.columns).map _ = _
      rw [hrow, hpush]
      rfl

theorem finishAll_ok
    (h : ∀ j c, columns[j]? = some c → ∃ next, c.finish = .ok next ∧ Q (pos + j) next) :
    ∃ nexts, Batch.finishAll columns = .ok nexts ∧ nexts.length = columns.length ∧
      ∀ j next, nexts[j]? = some next → Q (pos + j) next := by
  induction columns generalizing pos with
  | nil => exact ⟨[], rfl, rfl, fun j next hj => nomatch hj⟩
  | cons c columns ih =>
    obtain ⟨next, hnext, hq⟩ := h 0 c rfl
    have hlater : ∀ j c, columns[j]? = some c →
        ∃ next, c.finish = .ok next ∧ Q (pos + 1 + j) next := by
      intro j c hj
      have hnext := h (j + 1) c hj
      rwa [show pos + (j + 1) = pos + 1 + j by omega] at hnext
    obtain ⟨nexts, hrest, hlen, hqs⟩ := ih hlater
    refine ⟨next :: nexts, ?_, congrArg (· + 1) hlen, ?_⟩
    · rw [Batch.finishAll, hnext]
      show (Batch.finishAll columns).map (next :: ·) = _
      rw [hrest]
      rfl
    · intro j later hj
      cases j with
      | zero =>
        obtain rfl := Option.some.inj hj
        exact hq
      | succ j =>
        have hlater := hqs j later hj
        rwa [show pos + 1 + j = pos + (j + 1) by omega] at hlater

/-! ## Batches over a run -/

/-- A batch being filled: the rows put in since it was cleared, whether it is checked, and
whether a reader gave an error that `decode_row` did not. -/
structure Filling where
  batch : Batch
  rows : List (List ValueItem)
  finished : Bool
  failed : Bool
  deriving DecidableEq, Repr

/-- What is done with a batch. -/
inductive Filling.Event where
  | put (data : List UInt8) (tests : List ColumnTest)
  | finish
  | clear
  deriving DecidableEq, Repr

namespace Filling

/-- A new batch for the table's rows, the columns not wanted left out. -/
def start (t : SqlTable) (wanted : Option (List Bool)) : Filling :=
  ⟨Batch.new (SqlTable.types t.fields) wanted, [], false, false⟩

def step (t : SqlTable) (s : Filling) : Event → Filling
  | .put data tests =>
    match t.decodeRow data none, t.decodeRowToBatch data tests s.batch with
    | .ok row, some (.ok (true, batch)) => { s with batch, rows := s.rows ++ [row] }
    | .ok _, some (.ok (false, batch)) => { s with batch }
    | _, _ => { s with failed := true }
  | .finish =>
    match s.batch.finish with
    | .ok batch => { s with batch, finished := true }
    | .error _ => { s with failed := true }
  | .clear => { s with batch := s.batch.clear, rows := [], finished := false }

/-- A row is put in while the batch is being filled, is one that `decode_row` reads, and each
column can take its value. -/
def Sound (t : SqlTable) (s : Filling) : Event → Prop
  | .put data tests => s.finished = false ∧ TestsOf t tests ∧
      ∃ sr row, StoredRow.fromBytes data = .ok sr ∧ t.decodeRow data none = .ok row ∧
        ∀ j c, s.batch.columns[j]? = some c → Takes t sr j (row.getD j .null) c
  | .finish => s.finished = false
  | .clear => True

/-- What holds of a batch in every state. -/
structure Inv (t : SqlTable) (wanted : Option (List Bool)) (s : Filling) : Prop where
  holds : Holds s.finished wanted t.fields s.rows s.batch.columns
  len_eq : s.batch.len = s.rows.length
  failed_eq : s.failed = false

theorem inv_start (t : SqlTable) (wanted : Option (List Bool)) : Inv t wanted (start t wanted) := by
  refine ⟨⟨?_, ?_⟩, rfl, rfl⟩
  · simp [start, Batch.new, SqlTable.types]
  · intro j c hc f hf
    have hnew : (Batch.new (SqlTable.types t.fields) wanted).columns[j]? =
        some (if unwanted wanted j then .absent else .new f.datatype) := by
      simp [Batch.new, SqlTable.types, hf]
    rw [Option.some.inj (hc.symm.trans hnew)]
    show Stands false (unwanted wanted j) f.datatype _ []
    cases unwanted wanted j with
    | true => exact rfl
    | false => exact ⟨(Column.new_shows f.datatype).2, (Column.new_shows f.datatype).1⟩

variable {t : SqlTable} {wanted : Option (List Bool)} {s : Filling}

/-- A row put in: the rows are then those before and, if it passes its tests, it. -/
theorem step_put {data : List UInt8} {tests : List ColumnTest} {row : List ValueItem}
    (hversions : t.versions.length ≤ 2 ^ 32) (h : Inv t wanted s)
    (hsound : Sound t s (.put data tests)) (hrow : t.decodeRow data none = .ok row)
    {sr : StoredRow} (hsr : StoredRow.fromBytes data = .ok sr) {accepted : Bool}
    (hpasses : t.rowPasses sr tests = .ok accepted)
    (hparsed : ∀ p, sr.version = t.version → Packed.parse sr.values t.fields.length = some p →
      testsParsed p tests = .ok accepted) :
    Inv t wanted (step t s (.put data tests)) ∧
      (step t s (.put data tests)).rows = if accepted then s.rows ++ [row] else s.rows := by
  obtain ⟨hfilling, -, sr', row', hsr', hrow', htakes⟩ := hsound
  obtain rfl := Except.ok.inj (hsr.symm.trans hsr')
  obtain rfl := Except.ok.inj (hrow.symm.trans hrow')
  obtain ⟨sr', hsr', hread⟩ := readWhole_of_decodeRow hrow
  obtain rfl := Except.ok.inj (hsr.symm.trans hsr')
  have hholds := h.holds
  rw [hfilling] at hholds
  obtain ⟨next, hdecode, hnext, hlen⟩ :=
    decodeRowToBatch_ok hversions hsr hread hpasses hparsed hholds htakes
  cases accepted with
  | true =>
    have hstep : step t s (.put data tests) =
      { s with batch := next, rows := s.rows ++ [row] } := by
      simp only [step, hrow, hdecode]
    rw [hstep]
    refine ⟨⟨?_, ?_, h.failed_eq⟩, rfl⟩
    · show Holds s.finished _ _ _ _
      rw [hfilling]
      exact hnext
    · show next.len = (s.rows ++ [row]).length
      rw [List.length_append, ← h.len_eq]
      exact hlen
  | false =>
    have hstep : step t s (.put data tests) = { s with batch := next } := by
      simp only [step, hrow, hdecode]
    rw [hstep]
    refine ⟨⟨?_, ?_, h.failed_eq⟩, rfl⟩
    · show Holds s.finished _ _ _ _
      rw [hfilling]
      exact hnext
    · show next.len = s.rows.length
      rw [← h.len_eq]
      exact hlen

theorem Inv.finish (h : Inv t wanted s) (hfilling : s.finished = false) :
    Inv t wanted (step t s .finish) := by
  have hholds := h.holds
  rw [hfilling] at hholds
  obtain ⟨hcount, hstands⟩ := hholds
  have hfinish : ∀ j c, s.batch.columns[j]? = some c → ∃ next, c.finish = .ok next ∧
      StandsAt true wanted t.fields s.rows (0 + j) next := by
    intro j c hj
    rw [Nat.zero_add]
    have hlt : j < t.fields.length := by
      rw [← hcount]
      exact (List.getElem?_eq_some_iff.mp hj).1
    have hf := List.getElem?_eq_getElem hlt
    obtain ⟨next, hnext, hstand⟩ := (hstands j c hj _ hf).finish
    refine ⟨next, hnext, fun f hf' => ?_⟩
    obtain rfl := Option.some.inj (hf.symm.trans hf')
    exact hstand
  obtain ⟨nexts, hall, hlen, hnexts⟩ :=
    finishAll_ok (Q := StandsAt true wanted t.fields s.rows) hfinish
  have hstep : step t s .finish = { s with batch := ⟨nexts, s.batch.len⟩, finished := true } := by
    simp only [step, Batch.finish, hall]
    rfl
  rw [hstep]
  exact ⟨holds_of hcount hlen hnexts, h.len_eq, h.failed_eq⟩

theorem Inv.clear (h : Inv t wanted s) : Inv t wanted (step t s .clear) := by
  obtain ⟨hcount, hstands⟩ := h.holds
  refine ⟨⟨by rw [← hcount]; exact List.length_map _, ?_⟩, rfl, h.failed_eq⟩
  intro j c hc f hf
  have hmap : (s.batch.columns.map Column.clear)[j]? = some c := hc
  rw [List.getElem?_map, Option.map_eq_some_iff] at hmap
  obtain ⟨before, hbefore, rfl⟩ := hmap
  exact (hstands j before hbefore f hf).clear

/-- In every state of a batch that takes only rows whose values its columns can take, no reader
gives an error, the checked batch gives the rows' values, and the readers accept the same rows. -/
theorem batch_gives_rows {t : SqlTable} (hversions : t.versions.length ≤ 2 ^ 32)
    (wanted : Option (List Bool)) {s : Filling}
    (h : Reachable (step t) (Sound t) (start t wanted) s) :
    s.failed = false ∧ s.batch.len = s.rows.length ∧
    (s.finished = true → ∀ i row j, s.rows[i]? = some row → j < t.fields.length →
      ∃ c, s.batch.columns[j]? = some c ∧
        c.get i = some (if unwanted wanted j then .null else row.getD j .null)) ∧
    ∀ data tests row, t.decodeRow data none = .ok row → TestsOf t tests →
      ∃ accepted, ReadAlike t data tests row accepted ∧ (Sound t s (.put data tests) →
        (step t s (.put data tests)).rows = if accepted then s.rows ++ [row] else s.rows) := by
  have hinv : Inv t wanted s := by
    apply h.invariant (inv_start t wanted)
    intro s e hs hok
    cases e with
    | put data tests =>
      obtain ⟨-, htests, sr, row, hsr, hrow, -⟩ := id hok
      obtain ⟨sr', hsr', hread⟩ := readWhole_of_decodeRow hrow
      obtain ⟨accepted, hpasses, -, hparsed⟩ := rowPasses_ok hversions hread htests
      exact (step_put hversions hs hok hrow hsr' hpasses hparsed).1
    | finish => exact hs.finish hok
    | clear => exact hs.clear
  refine ⟨hinv.failed_eq, hinv.len_eq, ?_, ?_⟩
  · intro hfinished i row j hrow hj
    obtain ⟨hcount, hstands⟩ := hinv.holds
    have hlt : j < s.batch.columns.length := by
      rw [hcount]
      exact hj
    have hc := List.getElem?_eq_getElem hlt
    have hstand := hstands j _ hc _ (List.getElem?_eq_getElem hj)
    rw [hfinished] at hstand
    refine ⟨_, hc, hstand.get ?_⟩
    rw [List.getElem?_map, hrow]
    rfl
  · intro data tests row hrow htests
    obtain ⟨sr, hsr, hread⟩ := readWhole_of_decodeRow hrow
    obtain ⟨accepted, hpasses, hfails, hparsed⟩ := rowPasses_ok hversions hread htests
    exact ⟨accepted, readAlike hversions hsr hread hpasses hfails hparsed, fun hsound =>
      (step_put hversions hinv hsound hrow hsr hpasses hparsed).2⟩

/-- `CREATE TABLE t (a VARCHAR(8))`. -/
def oneText : SqlTable := ({ oneColumn with fields := [⟨0, "a", .str 8, true, none⟩] }).table

/-- A row as builds before packed rows wrote it, its string's capacity not the column's. -/
def oldText : List UInt8 := StoredRow.toBytes ⟨0, IndexKey.toBytes [.str "ab" 4]⟩

theorem batch_gives_rows_old : ∃ c,
    (run (step oneText) (start oneText none) [.put oldText [], .finish]).batch.columns[0]? =
    some c ∧
      c.get 0 = some (.str "ab" 4) := by
  have hrow : oneText.decodeRow oldText none = .ok [.str "ab" 4] := by decide +kernel
  have hput : Sound oneText (start oneText none) (.put oldText []) := by
    have htests : TestsOf oneText [] := fun _ htest => absurd htest List.not_mem_nil
    refine ⟨rfl, htests, ⟨0, IndexKey.toBytes [.str "ab" 4]⟩, _, ?_, hrow, ?_⟩
    · decide +kernel
    · intro j c hc
      cases j with
      | zero =>
        obtain rfl := Option.some.inj hc
        have hsingle : ¬(Column.new (.str 8)).ofValues = true := by decide
        have hbytes : (Column.new (.str 8)).data.buffered + contentLength (.str "ab" 4) < 2 ^
          32 := by
          decide +kernel
        exact .inr ⟨fun hvalues => absurd hvalues hsingle, hbytes⟩
      | succ j => exact nomatch hc
  have hreach : Reachable (step oneText) (Sound oneText) (start oneText none)
      (run (step oneText) (start oneText none) [.put oldText [], .finish]) :=
    .step Event.finish (.step (Event.put oldText []) .init hput)
      (show (step oneText (start oneText none) (.put oldText [])).finished =
      false by decide +kernel)
  exact (batch_gives_rows (by decide) none hreach).2.2.1 (by decide +kernel) 0 [.str "ab" 4] 0
    (by decide +kernel) (by decide)

/-- After such a row the batch takes no packed one, though `decode_row` reads both. -/
theorem batch_refuses_packed :
    oneText.decodeRow oldText none = .ok [.str "ab" 4] ∧
      oneText.decodeRow (oneText.encodeRow [.str "cd" 8]) none = .ok [.str "cd" 8] ∧
      (run (step oneText) (start oneText none)
        [.put oldText [], .put (oneText.encodeRow [.str "cd" 8]) []]).failed = true ∧
      (run (step oneText) (start oneText none) [.put oldText [], .finish, .clear,
        .put (oneText.encodeRow [.str "cd" 8]) []]).failed = true := by
  decide +kernel

end Filling

end SquealDb.Table
