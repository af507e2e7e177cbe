import Mathlib.Data.List.Forall2
import SquealDb.Sql.SortRuns

/-!
# From the initial runs to one

The runs `build_initial_runs` writes are the input cut into blocks of as many pages as
memory was had for, each sorted; the rounds of `build_sort` merge them into one.
-/

namespace SquealDb.Sql

open Codec Lib

namespace SortSpec

variable (spec : SortSpec)

/-- Runs that each read back the rows of a segment. -/
def ReadAll (runs : List ScratchRun) (segs : List (List Row)) : Prop :=
  List.Forall₂ ScratchRun.Reads runs segs

/-! ## Rounds -/

/-- The segments that a round leaves. -/
def mergedPairs : List (List Row) → List (List Row)
  | xs :: ys :: rest => xs.merge ys (rowLe spec.order) :: mergedPairs rest
  | rest => rest

/-- A round can write what it merges. -/
def PairsWritable : List (List Row) → Prop
  | xs :: ys :: rest =>
    BlocksWritable spec.dataSize spec.recordsPerPage (xs.merge ys (rowLe spec.order)) ∧
      PairsWritable rest
  | _ => True

variable {segs : List (List Row)} {mem : QueryMemory} {rows : List Row}

theorem mergeRuns_settles {runs : List ScratchRun} (h : ReadAll runs segs) :
    Settles (spec.mergeRuns runs) (spec.PairsWritable segs)
      fun runs' => ReadAll runs' (spec.mergedPairs segs) := by
  induction runs using mergeRuns.induct generalizing segs with
  | case1 lhs rhs rest ih =>
    obtain ⟨xs, h, hl, h', rfl⟩ := List.forall₂_cons_left_iff.mp h
    obtain ⟨ys, segs, hr, hrest, rfl⟩ := List.forall₂_cons_left_iff.mp h'
    rw [mergeRuns]
    refine (spec.mergeTwo_settles hl hr).bind fun run hrun => ?_
    refine ((ih hrest).bind fun runs' hruns' => ?_).congr (and_iff_left trivial)
      fun r hr => hr
    exact Settles.pure trivial (List.Forall₂.cons hrun hruns')
  | case2 rest hshort =>
    cases h with
    | nil => exact Settles.ok trivial List.Forall₂.nil
    | cons hrun h =>
      cases h with
      | nil => exact Settles.ok trivial (List.Forall₂.cons hrun List.Forall₂.nil)
      | cons hrun' h => exact absurd rfl (hshort _ _ _)

theorem length_mergedPairs (segs : List (List Row)) :
    (spec.mergedPairs segs).length = (segs.length + 1) / 2 := by
  induction segs using mergedPairs.induct with
  | case1 xs ys rest ih =>
    rw [mergedPairs, List.length_cons, ih, List.length_cons, List.length_cons]
    omega
  | case2 rest hshort =>
    cases rest with
    | nil => rfl
    | cons x rest =>
      cases rest with
      | nil =>
        rw [mergedPairs]
        · rw [List.length_singleton]
        · exact hshort
      | cons y rest => exact absurd rfl (hshort x y rest)

/-- A round keeps the rows of the runs it merges. -/
theorem mergedPairs_perm (segs : List (List Row)) :
    (spec.mergedPairs segs).flatten.Perm segs.flatten := by
  induction segs using mergedPairs.induct with
  | case1 xs ys rest ih =>
    rw [mergedPairs]
    simp only [List.flatten_cons, ← List.append_assoc]
    exact (List.merge_perm_append _).append ih
  | case2 rest hshort =>
    cases rest with
    | nil => exact List.Perm.refl _
    | cons x rest =>
      cases rest with
      | nil => exact List.Perm.refl _
      | cons y rest => exact absurd rfl (hshort x y rest)

/-- A round keeps runs in order. -/
theorem sorted_mergedPairs (h : OneType spec.order segs.flatten)
    (hs : ∀ seg ∈ segs, Sorted spec.order seg) :
    ∀ seg ∈ spec.mergedPairs segs, Sorted spec.order seg := by
  induction segs using mergedPairs.induct with
  | case1 xs ys rest ih =>
    have hpair : OneType spec.order (xs ++ ys) := h.subset fun r hr => by
      simp only [List.flatten_cons, ← List.append_assoc]
      exact List.mem_append_left _ hr
    have hrest : OneType spec.order rest.flatten := h.subset fun r hr => by
      simp only [List.flatten_cons, ← List.append_assoc]
      exact List.mem_append_right _ hr
    obtain ⟨hx, hs⟩ := List.forall_mem_cons.mp hs
    obtain ⟨hy, hs⟩ := List.forall_mem_cons.mp hs
    rw [mergedPairs]
    exact List.forall_mem_cons.mpr ⟨sorted_merge hpair hx hy, ih hrest hs⟩
  | case2 rest hshort =>
    cases rest with
    | nil => exact hs
    | cons x rest =>
      cases rest with
      | nil => exact hs
      | cons y rest => exact absurd rfl (hshort x y rest)

/-- The rounds can write what they merge. -/
def RoundsWritable : Nat → List (List Row) → Prop
  | 0, _ => True
  | n + 1, segs =>
    segs.length > 1 → spec.PairsWritable segs.reverse ∧
      RoundsWritable n (spec.mergedPairs segs.reverse)

/-- The rounds leave one run, with the rows of all in order. -/
theorem mergeRounds_settles {n : Nat} {runs : List ScratchRun} (h : ReadAll runs segs)
    (hn : segs.length ≤ n + 1) (htype : OneType spec.order segs.flatten)
    (hs : ∀ seg ∈ segs, Sorted spec.order seg) :
    Settles (spec.mergeRounds n runs) (spec.RoundsWritable n segs) fun runs' =>
      ∃ segs', ReadAll runs' segs' ∧ segs'.length ≤ 1 ∧ segs'.flatten.Perm segs.flatten ∧
        ∀ seg ∈ segs', Sorted spec.order seg := by
  induction n generalizing runs segs with
  | zero => exact Settles.ok trivial ⟨segs, h, hn, List.Perm.refl _, hs⟩
  | succ n ih =>
    have hlen : runs.length = segs.length := h.length_eq
    rw [mergeRounds, RoundsWritable]
    by_cases hmany : runs.length > 1
    · rw [if_pos hmany]
      have hrev : ReadAll runs.reverse segs.reverse := List.rel_reverse h
      have hperm : (spec.mergedPairs segs.reverse).flatten.Perm segs.flatten :=
        (spec.mergedPairs_perm segs.reverse).trans (List.reverse_perm segs).flatten
      have htype' : OneType spec.order segs.reverse.flatten := htype.subset fun r hr => by
        exact ((List.reverse_perm segs).flatten.mem_iff).mp hr
      have htype'' : OneType spec.order (spec.mergedPairs segs.reverse).flatten :=
        htype.subset fun r hr => hperm.mem_iff.mp hr
      have hs' := spec.sorted_mergedPairs htype' fun seg hseg => hs seg (List.mem_reverse.mp hseg)
      have hshort : (spec.mergedPairs segs.reverse).length ≤ n + 1 := by
        rw [length_mergedPairs, List.length_reverse]
        omega
      have hround := (spec.mergeRuns_settles hrev).bind fun runs' hruns' =>
        ih hruns' hshort htype'' hs'
      refine hround.congr ?_ ?_
      · rw [hlen] at hmany
        constructor
        · intro hw _
          exact hw
        · intro hw
          exact hw hmany
      · rintro runs' ⟨segs', hread, hone, hsegs, hsorted⟩
        exact ⟨segs', hread, hone, hsegs.trans hperm, hsorted⟩
    · rw [if_neg hmany]
      rw [hlen] at hmany
      exact Settles.ok (fun hlong => absurd hlong hmany)
        ⟨segs, h, by omega, List.Perm.refl _, hs⟩

/-! ## Initial runs -/

/-- How many pages' worth of rows there is memory for. -/
def pagesInMemory (mem : QueryMemory) : Nat := (mem.limit - mem.used) / spec.chunkBytes

/-- How many rows an initial run has; as many as there are, where a page has none. -/
def rowsPerRun (mem : QueryMemory) : Nat := max (spec.pagesInMemory mem) 1 * spec.recordsPerPage

/-- The rows of a sort are written out. -/
def Spills (mem : QueryMemory) (rows : List Row) : Prop :=
  spec.pagesInMemory mem = 0 ∨
    0 < spec.recordsPerPage ∧ spec.pagesInMemory mem * spec.recordsPerPage ≤ rows.length

theorem chunkBytes_pos : 0 < spec.chunkBytes := by
  unfold chunkBytes rowMemory
  exact Nat.mul_pos (by omega) (by omega)

theorem tryReserve_none_iff (mem : QueryMemory) :
    mem.tryReserve spec.chunkBytes = none ↔ spec.pagesInMemory mem = 0 := by
  have hpos := spec.chunkBytes_pos
  unfold QueryMemory.tryReserve pagesInMemory
  rw [Nat.div_eq_zero_iff]
  split
  · constructor
    · intro h
      cases h
    · omega
  · constructor
    · omega
    · intro _
      rfl

theorem pagesInMemory_tryReserve {mem' : QueryMemory}
    (h : mem.tryReserve spec.chunkBytes = some mem') :
    spec.pagesInMemory mem = spec.pagesInMemory mem' + 1 := by
  have hpos := spec.chunkBytes_pos
  unfold QueryMemory.tryReserve at h
  split at h
  · cases h
    unfold pagesInMemory
    have hsplit : mem.limit - mem.used =
        mem.limit - (mem.used + spec.chunkBytes) + spec.chunkBytes := by omega
    rw [hsplit, Nat.add_div_right _ hpos]
  · cases h

/-- What `build_initial_runs` makes of the rows its loop has read. -/
def finish (b : Building) : Except SchemaError InitialBuild :=
  if !b.memFilled && b.runs.isEmpty then
    return if b.current.isEmpty then .empty else .inMemory (spec.sortRows b.current)
  else do
    let b ← if b.current.isEmpty then pure b else Building.close spec b
    return if b.runs.isEmpty then .empty else .spilled b.runs

theorem buildInitialRuns_eq (mem : QueryMemory) (rows : List Row) :
    spec.buildInitialRuns mem rows =
      rows.foldlM (Building.takeRow spec) (Building.start spec mem) >>= spec.finish := rfl

/-- Runs were written, one for each of some sorted segments. -/
def InitialBuild.Segmented : InitialBuild → List (List Row) → Prop
  | .empty, segs => segs = []
  | .inMemory _, _ => False
  | .spilled runs, segs => ReadAll runs segs

/-- A page's worth of rows ends with a row. -/
private theorem div_of_page {n p : Nat} (h : (n + 1) % p = 0) : (n + 1) / p = n / p + 1 := by
  rw [Nat.succ_div, if_pos (Nat.dvd_of_mod_eq_zero h)]

/-- A page's worth of rows does not end with a row. -/
private theorem div_of_not_page {n p : Nat} (h : (n + 1) % p ≠ 0) : (n + 1) / p = n / p := by
  rw [Nat.succ_div, if_neg fun hdvd => h (Nat.mod_eq_zero_of_dvd hdvd), Nat.add_zero]

namespace Building

theorem close_settles (b : Building) :
    Settles (b.close spec)
      (BlocksWritable spec.dataSize (max spec.recordsPerPage 1) (spec.sortRows b.current))
      fun b' => ∃ run, run.Reads (spec.sortRows b.current) ∧
        b' = { b with current := [], runs := b.runs ++ [run] } := by
  have hthen : ∀ run : ScratchRun, run.Reads (spec.sortRows b.current) →
      Settles (pure { b with current := [], runs := b.runs ++ [run] } : Except SchemaError Building)
        True fun b' => ∃ run, run.Reads (spec.sortRows b.current) ∧
          b' = { b with current := [], runs := b.runs ++ [run] } := by
    intro run hrun
    exact Settles.pure trivial ⟨run, hrun, rfl⟩
  have hclose := (spec.closeRun_settles b.current).bind hthen
  exact hclose.congr (and_iff_left trivial) fun b' hb' => hb'

/-- Memory has run out: a run is closed every `k` pages' worth of rows. -/
structure Filled (b : Building) (k : Nat) : Prop where
  filled : b.memFilled = true
  some : 0 < k
  pages : b.pagesPerRun = k
  count : b.pageCountInRun = b.current.length / spec.recordsPerPage
  room : spec.recordsPerPage = 0 ∨ b.current.length < k * spec.recordsPerPage

variable {b : Building} {k : Nat}

/-- A row is kept, or ends a run. -/
theorem Filled.takeRow (h : b.Filled spec k) (r : Row) :
    (∃ b', b.takeRow spec r = .ok b' ∧ b'.Filled spec k ∧ b'.current = b.current ++ [r] ∧
      b'.runs = b.runs) ∨
    0 < spec.recordsPerPage ∧ (b.current ++ [r]).length = k * spec.recordsPerPage ∧
      b.takeRow spec r =
        Building.close spec { b with current := b.current ++ [r], pageCountInRun := 0 } := by
  have hlen : (b.current ++ [r]).length = b.current.length + 1 := by simp
  have hcount := h.count
  have hroom := h.room
  unfold Building.takeRow
  dsimp only
  rw [hlen]
  by_cases hpage : (b.current.length + 1) % spec.recordsPerPage = 0
  · have hrpp : 0 < spec.recordsPerPage := by
      by_contra hzero
      have hzero' : spec.recordsPerPage = 0 := by omega
      rw [hzero', Nat.mod_zero] at hpage
      omega
    have hdiv := div_of_page hpage
    have hmul : (b.current.length + 1) / spec.recordsPerPage * spec.recordsPerPage =
        b.current.length + 1 := Nat.div_mul_cancel (Nat.dvd_of_mod_eq_zero hpage)
    have hpages := h.pages
    rw [if_neg (by simpa using hpage), if_pos h.filled]
    by_cases hfull : b.pageCountInRun + 1 = b.pagesPerRun
    · rw [if_pos hfull]
      right
      refine ⟨hrpp, ?_, rfl⟩
      rw [← hmul, hdiv, ← hcount, hfull, hpages]
    · rw [if_neg hfull]
      left
      refine ⟨_, rfl, ⟨h.filled, h.some, h.pages, ?_, Or.inr ?_⟩, rfl, rfl⟩
      · show b.pageCountInRun + 1 = (b.current ++ [r]).length / spec.recordsPerPage
        rw [hlen, hdiv, hcount]
      · show (b.current ++ [r]).length < _
        have hlt : b.current.length / spec.recordsPerPage < k := by
          rw [Nat.div_lt_iff_lt_mul hrpp]
          omega
        have hle : b.current.length / spec.recordsPerPage + 1 + 1 ≤ k := by omega
        have hbound := Nat.mul_le_mul_right spec.recordsPerPage hle
        rw [hlen, ← hmul, hdiv]
        rw [Nat.add_mul _ 1] at hbound
        omega
  · rw [if_pos hpage]
    left
    refine ⟨_, rfl, ⟨h.filled, h.some, h.pages, ?_, ?_⟩, rfl, rfl⟩
    · show b.pageCountInRun = (b.current ++ [r]).length / spec.recordsPerPage
      rw [hlen, div_of_not_page hpage, hcount]
    · show spec.recordsPerPage = 0 ∨ (b.current ++ [r]).length < _
      rw [hlen]
      rcases hroom with hzero | hlt
      · exact Or.inl hzero
      · right
        have hne : b.current.length + 1 ≠ k * spec.recordsPerPage := by
          intro heq
          rw [heq, Nat.mul_mod_left] at hpage
          exact hpage rfl
        omega

/-- From where memory has run out, the rows are written in blocks of `k` pages' worth. -/
theorem Filled.settles {segs : List (List Row)} (h : b.Filled spec k)
    (hruns : ReadAll b.runs segs) (rest : List Row) :
    Settles (rest.foldlM (Building.takeRow spec) b >>= spec.finish)
      (∀ seg ∈ chunks (k * spec.recordsPerPage) (b.current ++ rest),
        BlocksWritable spec.dataSize (max spec.recordsPerPage 1) (spec.sortRows seg))
      fun built => built.Segmented
        (segs ++ (chunks (k * spec.recordsPerPage) (b.current ++ rest)).map spec.sortRows) := by
  induction rest generalizing b segs with
  | nil =>
    show Settles (spec.finish b) _ _
    unfold finish
    rw [h.filled]
    rw [if_neg (by simp), List.append_nil]
    by_cases hcur : b.current = []
    · rw [hcur, chunks_nil, List.isEmpty_nil, if_pos rfl, List.map_nil, List.append_nil]
      refine Settles.pure (fun _ hseg => (List.not_mem_nil hseg).elim) ?_
      cases hb : b.runs with
      | nil =>
        rw [hb] at hruns
        cases hruns
        rfl
      | cons run runs =>
        rw [hb] at hruns
        exact hruns
    · have hshort : k * spec.recordsPerPage = 0 ∨ b.current.length ≤ k * spec.recordsPerPage := by
        rcases h.room with hzero | hlt
        · rw [hzero, Nat.mul_zero]
          exact Or.inl rfl
        · exact Or.inr hlt.le
      rw [if_neg (by simpa using hcur), chunks_short hcur hshort]
      have hthen : ∀ b', (∃ run, run.Reads (spec.sortRows b.current) ∧
            b' = { b with current := [], runs := b.runs ++ [run] }) →
          Settles (pure (if b'.runs.isEmpty then .empty else .spilled b'.runs) :
              Except SchemaError InitialBuild)
            True fun built => built.Segmented (segs ++ [b.current].map spec.sortRows) := by
        rintro b' ⟨run, hrun, rfl⟩
        refine Settles.pure trivial ?_
        rw [if_neg (by simp)]
        exact List.rel_append hruns (List.Forall₂.cons hrun List.Forall₂.nil)
      refine ((b.close_settles spec).bind hthen).congr ?_ fun built hbuilt => hbuilt
      rw [and_iff_left trivial, List.forall_mem_singleton]
  | cons r rest ih =>
    rw [List.foldlM_cons, bind_assoc]
    rcases h.takeRow spec r with ⟨b', hb', hfilled, hcur, hsame⟩ | ⟨hrpp, hlen, hclose⟩
    · rw [hb']
      have hrest := ih hfilled (hsame ▸ hruns)
      rwa [hcur, List.append_assoc, List.singleton_append] at hrest
    · have hn : 0 < k * spec.recordsPerPage := Nat.mul_pos h.some hrpp
      have hsplit : chunks (k * spec.recordsPerPage) (b.current ++ r :: rest) =
          (b.current ++ [r]) :: chunks (k * spec.recordsPerPage) rest := by
        rw [← chunks_append hn hlen, List.append_assoc, List.singleton_append]
      rw [hclose, hsplit, List.forall_mem_cons, List.map_cons,
        ← List.singleton_append (l := List.map _ _), ← List.append_assoc]
      refine (Building.close_settles spec _).bind ?_
      rintro b' ⟨run, hrun, rfl⟩
      have hnext : Filled spec
          { b with
            current := [], pageCountInRun := 0, runs := b.runs ++ [run] } k :=
        { filled := h.filled
          some := h.some
          pages := h.pages
          count := by
            show 0 = 0 / spec.recordsPerPage
            rw [Nat.zero_div]
          room := Or.inr hn }
      exact ih hnext (List.rel_append hruns (List.Forall₂.cons hrun List.Forall₂.nil))

/-- Memory for `k` pages' worth of rows has not run out: none of the runs is closed. -/
structure Filling (b : Building) (k : Nat) : Prop where
  filling : b.memFilled = false
  runs : b.runs = []
  free : spec.pagesInMemory b.mem + b.mems = k
  mems : b.mems = b.current.length / spec.recordsPerPage + 1

theorem Filling.room (h : b.Filling spec k) (hrpp : 0 < spec.recordsPerPage) :
    b.current.length < k * spec.recordsPerPage := by
  have hfree := h.free
  have hmems := h.mems
  rw [← Nat.div_lt_iff_lt_mul hrpp]
  omega

/-- A row is kept, or is the last that there is memory for. -/
theorem Filling.takeRow (h : b.Filling spec k) (r : Row) :
    (∃ b', b.takeRow spec r = .ok b' ∧ b'.Filling spec k ∧ b'.current = b.current ++ [r]) ∨
    0 < spec.recordsPerPage ∧ (b.current ++ [r]).length = k * spec.recordsPerPage ∧
      b.takeRow spec r = Building.close spec
        { b with
          current := b.current ++ [r], memFilled := true, pagesPerRun := k,
          pageCountInRun := 0 } := by
  have hlen : (b.current ++ [r]).length = b.current.length + 1 := by simp
  have hfree := h.free
  have hmems := h.mems
  unfold Building.takeRow
  dsimp only
  rw [hlen]
  by_cases hpage : (b.current.length + 1) % spec.recordsPerPage = 0
  · have hrpp : 0 < spec.recordsPerPage := by
      by_contra hzero
      have hzero' : spec.recordsPerPage = 0 := by omega
      rw [hzero', Nat.mod_zero] at hpage
      omega
    have hdiv := div_of_page hpage
    have hmul : (b.current.length + 1) / spec.recordsPerPage * spec.recordsPerPage =
        b.current.length + 1 := Nat.div_mul_cancel (Nat.dvd_of_mod_eq_zero hpage)
    rw [if_neg (by simpa using hpage), if_neg (by simp [h.filling])]
    cases hmem : b.mem.tryReserve spec.chunkBytes with
    | none =>
      have hk : b.mems = k := by
        have hnone := (spec.tryReserve_none_iff b.mem).mp hmem
        omega
      right
      refine ⟨hrpp, ?_, ?_⟩
      · rw [← hmul, hdiv, ← hmems, hk]
      · rw [← hk]
    | some mem =>
      have hpages := spec.pagesInMemory_tryReserve hmem
      left
      refine ⟨_, rfl, ⟨h.filling, h.runs, ?_, ?_⟩, rfl⟩
      · show spec.pagesInMemory mem + (b.mems + 1) = k
        omega
      · show b.mems + 1 = (b.current ++ [r]).length / spec.recordsPerPage + 1
        rw [hlen, hdiv, hmems]
  · rw [if_pos hpage]
    left
    refine ⟨_, rfl, ⟨h.filling, h.runs, hfree, ?_⟩, rfl⟩
    show b.mems = (b.current ++ [r]).length / spec.recordsPerPage + 1
    rw [hlen, div_of_not_page hpage, hmems]

/-- Rows that there is memory for are sorted there. -/
theorem Filling.finish_eq (h : b.Filling spec k) (rest : List Row)
    (hroom : spec.recordsPerPage = 0 ∨ (b.current ++ rest).length < k * spec.recordsPerPage) :
    rest.foldlM (Building.takeRow spec) b >>= spec.finish =
      .ok (if (b.current ++ rest).isEmpty then .empty
        else .inMemory (spec.sortRows (b.current ++ rest))) := by
  induction rest generalizing b with
  | nil =>
    show spec.finish b = _
    unfold finish
    rw [if_pos (by simp [h.filling, h.runs]), List.append_nil]
    rfl
  | cons r rest ih =>
    rw [List.append_cons] at hroom ⊢
    rw [List.foldlM_cons, bind_assoc]
    rcases h.takeRow spec r with ⟨b', hb', hfilling, hcur⟩ | ⟨hrpp, hlen, -⟩
    · rw [hb']
      rw [← hcur] at hroom ⊢
      exact ih hfilling hroom
    · rw [List.length_append, hlen] at hroom
      omega

/-- Rows that there is no memory for are written in blocks of `k` pages' worth. -/
theorem Filling.settles (h : b.Filling spec k) (hrpp : 0 < spec.recordsPerPage) (rest : List Row)
    (hroom : k * spec.recordsPerPage ≤ (b.current ++ rest).length) :
    Settles (rest.foldlM (Building.takeRow spec) b >>= spec.finish)
      (∀ seg ∈ chunks (k * spec.recordsPerPage) (b.current ++ rest),
        BlocksWritable spec.dataSize (max spec.recordsPerPage 1) (spec.sortRows seg))
      fun built => built.Segmented
        ((chunks (k * spec.recordsPerPage) (b.current ++ rest)).map spec.sortRows) := by
  induction rest generalizing b with
  | nil =>
    have hlt := h.room spec hrpp
    rw [List.append_nil] at hroom
    omega
  | cons r rest ih =>
    rw [List.append_cons] at hroom ⊢
    rw [List.foldlM_cons, bind_assoc]
    rcases h.takeRow spec r with ⟨b', hb', hfilling, hcur⟩ | ⟨-, hlen, hclose⟩
    · rw [hb']
      rw [← hcur] at hroom ⊢
      exact ih hfilling hroom
    · have hn : 0 < k * spec.recordsPerPage := by
        rw [← hlen, List.length_append, List.length_singleton]
        omega
      have hk : 0 < k := Nat.pos_of_mul_pos_right hn
      rw [hclose, chunks_append hn hlen, List.forall_mem_cons, List.map_cons]
      refine (Building.close_settles spec _).bind ?_
      rintro b' ⟨run, hrun, rfl⟩
      have hnext : Filled spec
          { b with
            current := [], memFilled := true, pagesPerRun := k, pageCountInRun := 0,
            runs := b.runs ++ [run] } k :=
        { filled := rfl
          some := hk
          pages := rfl
          count := by
            show 0 = 0 / spec.recordsPerPage
            rw [Nat.zero_div]
          room := Or.inr hn }
      have hread : ReadAll (b.runs ++ [run]) [spec.sortRows (b.current ++ [r])] := by
        rw [h.runs]
        exact List.Forall₂.cons hrun List.Forall₂.nil
      exact hnext.settles spec hread rest

end Building

/-- The initial runs are the blocks of the input that memory was had for, each sorted. -/
theorem buildInitialRuns_settles (h : spec.Spills mem rows) :
    Settles (spec.buildInitialRuns mem rows)
      (∀ seg ∈ chunks (spec.rowsPerRun mem) rows,
        BlocksWritable spec.dataSize (max spec.recordsPerPage 1) (spec.sortRows seg))
      fun built => built.Segmented ((chunks (spec.rowsPerRun mem) rows).map spec.sortRows) := by
  rw [buildInitialRuns_eq]
  unfold rowsPerRun Building.start
  cases hmem : mem.tryReserve spec.chunkBytes with
  | none =>
    have hk : max (spec.pagesInMemory mem) 1 = 1 := by
      rw [(spec.tryReserve_none_iff mem).mp hmem]
      rfl
    have hfilled : Building.Filled spec
        { current := [], runs := [], mem, mems := 0, memFilled := true, pagesPerRun := 1,
          pageCountInRun := 0 } 1 :=
      { filled := rfl
        some := Nat.one_pos
        pages := rfl
        count := (Nat.zero_div _).symm
        room := by
          rw [List.length_nil]
          omega }
    rw [hk]
    exact hfilled.settles spec List.Forall₂.nil rows
  | some mem' =>
    have hpages := spec.pagesInMemory_tryReserve hmem
    have hk : max (spec.pagesInMemory mem) 1 = spec.pagesInMemory mem := by omega
    have hfilling : Building.Filling spec
        { current := [], runs := [], mem := mem', mems := 1, memFilled := false,
          pagesPerRun := 0, pageCountInRun := 0 } (spec.pagesInMemory mem) :=
      { filling := rfl
        runs := rfl
        free := hpages.symm
        mems := by rw [List.length_nil, Nat.zero_div] }
    rw [hk]
    rcases h with hnone | ⟨hrpp, hroom⟩
    · omega
    · exact hfilling.settles spec hrpp rows hroom

/-- Rows that there is memory for are sorted there. -/
theorem buildInitialRuns_of_room (h : ¬ spec.Spills mem rows) :
    spec.buildInitialRuns mem rows =
      .ok (if rows.isEmpty then .empty else .inMemory (spec.sortRows rows)) := by
  rw [buildInitialRuns_eq]
  unfold Building.start
  obtain ⟨hsome, hroom⟩ := not_or.mp h
  cases hmem : mem.tryReserve spec.chunkBytes with
  | none => exact absurd ((spec.tryReserve_none_iff mem).mp hmem) hsome
  | some mem' =>
    have hpages := spec.pagesInMemory_tryReserve hmem
    have hfilling : Building.Filling spec
        { current := [], runs := [], mem := mem', mems := 1, memFilled := false,
          pagesPerRun := 0, pageCountInRun := 0 } (spec.pagesInMemory mem) :=
      { filling := rfl
        runs := rfl
        free := hpages.symm
        mems := by rw [List.length_nil, Nat.zero_div] }
    refine hfilling.finish_eq spec rows ?_
    show spec.recordsPerPage = 0 ∨ rows.length < _
    by_cases hrpp : 0 < spec.recordsPerPage
    · exact Or.inr (Nat.lt_of_not_le fun hle => hroom ⟨hrpp, hle⟩)
    · exact Or.inl (by omega)

/-! ## The whole sort -/

/-- The sorted segments that the initial runs hold. -/
def segments (mem : QueryMemory) (rows : List Row) : List (List Row) :=
  (chunks (spec.rowsPerRun mem) rows).map spec.sortRows

/-- A sort can write all that it writes out: its initial runs, and what it merges them to. -/
def WritesAll (mem : QueryMemory) (rows : List Row) : Prop :=
  (∀ seg ∈ spec.segments mem rows,
    BlocksWritable spec.dataSize (max spec.recordsPerPage 1) seg) ∧
  spec.RoundsWritable (spec.segments mem rows).length (spec.segments mem rows)

/-- What a sort came to is a list of rows. -/
def BuildOutcome.Holds : BuildOutcome → List Row → Prop
  | .empty, sorted => sorted = []
  | .inMemory rows, sorted => rows = sorted
  | .spilled p, sorted => ∃ pages : List (List Row),
      p.iter = pages.head? ∧ p.pages = pages.tail ∧ pages.flatten = sorted

theorem sortRows_perm (rows : List Row) : (spec.sortRows rows).Perm rows :=
  List.mergeSort_perm rows _

theorem segments_perm (mem : QueryMemory) (rows : List Row) :
    (spec.segments mem rows).flatten.Perm rows := by
  have hperm : ∀ segs : List (List Row), (segs.map spec.sortRows).flatten.Perm segs.flatten := by
    intro segs
    induction segs with
    | nil => exact List.Perm.refl _
    | cons seg segs ih =>
      rw [List.map_cons, List.flatten_cons, List.flatten_cons]
      exact (spec.sortRows_perm seg).append ih
  have hflat := hperm (chunks (spec.rowsPerRun mem) rows)
  rwa [flatten_chunks] at hflat

theorem sorted_segments (h : OneType spec.order rows) :
    ∀ seg ∈ spec.segments mem rows, Sorted spec.order seg := by
  intro seg hseg
  obtain ⟨block, hblock, rfl⟩ := List.mem_map.mp hseg
  have hsub : OneType spec.order block := h.subset fun r hr => by
    rw [← flatten_chunks (spec.rowsPerRun mem) rows]
    exact List.mem_flatten_of_mem hblock hr
  exact sorted_mergeSort hsub

/-- What `build_sort` makes of the initial runs. -/
def conclude : InitialBuild → Except SchemaError BuildOutcome
  | .empty => return .empty
  | .inMemory sorted => return .inMemory sorted
  | .spilled runs => do
    match (← spec.mergeRounds runs.length runs).getLast? with
    | none => return .empty
    | some last => return .spilled { iter := last.read.head?, pages := last.read.tail }

theorem buildSort_eq (mem : QueryMemory) (rows : List Row) (h : spec.recordSize ≠ 0) :
    spec.buildSort mem rows = spec.buildInitialRuns mem rows >>= spec.conclude := by
  unfold buildSort
  rw [if_neg h]
  refine congrArg (spec.buildInitialRuns mem rows >>= ·) ?_
  funext built
  cases built <;> rfl

theorem conclude_settles {built : InitialBuild} (h : built.Segmented segs)
    (htype : OneType spec.order segs.flatten) (hs : ∀ seg ∈ segs, Sorted spec.order seg) :
    Settles (spec.conclude built) (spec.RoundsWritable segs.length segs)
      fun outcome => ∃ sorted, sorted.Perm segs.flatten ∧ Sorted spec.order sorted ∧
        outcome.Holds sorted := by
  cases built with
  | empty =>
    have hnil : segs = [] := h
    subst hnil
    exact Settles.ok trivial ⟨[], List.Perm.refl _, List.Pairwise.nil, rfl⟩
  | inMemory sorted => exact h.elim
  | spilled runs =>
    have hread : ReadAll runs segs := h
    have hlen : runs.length = segs.length := hread.length_eq
    have hrounds := spec.mergeRounds_settles (n := runs.length) hread (by omega) htype hs
    rw [← hlen]
    unfold conclude
    refine (hrounds.bind ?_).congr (and_iff_left trivial) fun outcome houtcome => houtcome
    rintro runs' ⟨segs', hread', hone, hperm, hsorted⟩
    cases hread' with
    | nil => exact Settles.ok trivial ⟨[], hperm, List.Pairwise.nil, rfl⟩
    | cons hrun hrest =>
      rename_i run seg runs' segs'
      have hnil : segs' = [] := by
        rw [List.length_cons] at hone
        exact List.eq_nil_of_length_eq_zero (by omega)
      subst hnil
      cases hrest
      rw [List.flatten_singleton] at hperm
      exact Settles.ok trivial
        ⟨seg, hperm, hsorted seg List.mem_cons_self, run.read, rfl, rfl, hrun⟩

/-- A sort gives its rows in order, where there is memory for them or it can write all that
it writes out. -/
theorem buildSort_settles (h : OneType spec.order rows) :
    Settles (spec.buildSort mem rows)
      (0 < spec.recordSize ∧ (spec.Spills mem rows → spec.WritesAll mem rows))
      fun outcome => ∃ sorted, sorted.Perm rows ∧ Sorted spec.order sorted ∧
        outcome.Holds sorted := by
  by_cases hsize : spec.recordSize = 0
  · unfold buildSort
    rw [if_pos hsize]
    intro hw
    omega
  · rw [spec.buildSort_eq mem rows hsize]
    by_cases hspills : spec.Spills mem rows
    · have hsegs := spec.segments_perm mem rows
      have htype : OneType spec.order (spec.segments mem rows).flatten :=
        h.subset fun r hr => hsegs.mem_iff.mp hr
      have hbuild := (spec.buildInitialRuns_settles hspills).bind fun built hbuilt =>
        spec.conclude_settles hbuilt htype (spec.sorted_segments h)
      refine hbuild.congr ?_ ?_
      · have hblocks : (∀ seg ∈ spec.segments mem rows,
              BlocksWritable spec.dataSize (max spec.recordsPerPage 1) seg) ↔
            ∀ seg ∈ chunks (spec.rowsPerRun mem) rows,
              BlocksWritable spec.dataSize (max spec.recordsPerPage 1) (spec.sortRows seg) :=
          List.forall_mem_map
        rw [← hblocks]
        constructor
        · intro hw
          exact ⟨by omega, fun _ => hw⟩
        · intro hw
          exact hw.2 hspills
      · rintro outcome ⟨sorted, hperm, hsorted, hholds⟩
        exact ⟨sorted, hperm.trans hsegs, hsorted, hholds⟩
    · rw [spec.buildInitialRuns_of_room hspills]
      have hw : 0 < spec.recordSize ∧ (spec.Spills mem rows → spec.WritesAll mem rows) :=
        ⟨by omega, fun hs => absurd hs hspills⟩
      cases rows with
      | nil => exact Settles.ok hw ⟨[], List.Perm.refl _, List.Pairwise.nil, rfl⟩
      | cons r rest =>
        exact Settles.ok hw ⟨spec.sortRows (r :: rest), spec.sortRows_perm _,
          sorted_mergeSort h, rfl⟩

end SortSpec

end SquealDb.Sql
