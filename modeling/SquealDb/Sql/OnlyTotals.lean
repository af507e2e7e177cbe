import SquealDb.Sql.BatchTotal
import SquealDb.Sql.GroupTotals

/-!
# Only the totals count

What a grouping promises of a group's output, next to what it gives.  Because the `SELECT`
list and the `HAVING` are evaluated on every row, a group fails where they fail over the
totals of its first rows only, and an aggregate misses a row where a `CONCAT` before it is
`NULL`.
-/

namespace SquealDb.Sql

open Codec Lib

variable {text : Text}

/-- The output a group is to have: every aggregate is fed every row, and the `SELECT` list
and the `HAVING` are evaluated once. -/
def GroupSource.groupOutput (text : Text) (s : GroupSource) (row : Row) (group : List Row) :
    Except SchemaError (Row × Bool) := do
  let (values, keep) ← s.acc.reset.totals text row group
  return (← newRow values, keep)

/-- The grouping of a whole table that can be read in batches. -/
structure Batched (s : GroupSource) : Prop where
  keys : s.keyPositions = []
  having : s.acc.having = none
  batchable : EvalExpr.batchableAll s.acc.fields = true
  noColumns : EvalExpr.noColumnsAll s.acc.fields = true

/-- What is promised of a group: its output is the one over its totals, and the same as
`BatchTotal`'s of the same rows. -/
structure OnlyTotalsCount (text : Text) (s : GroupSource) (row : Row) (group : List Row) :
    Prop where
  output : ∀ out, (∃ s', s.nextGroup text = .ok (some out, s')) ↔
    s.groupOutput text row group = .ok out
  batches : Batched s → ∀ batches : List (List Row), batches.flatten = row :: group →
    ∀ made, (∃ s', s.nextGroup text = .ok (some (made, true), s')) ↔
      BatchTotal.total text s.acc.fields batches = .ok made

/-- The expressions have a value wherever they are evaluated: over the totals of every
proper beginning of a group that has an output; and, where the group can be read in
batches, in every argument. -/
structure EvaluatesThroughout (text : Text) (s : GroupSource) (row : Row) (group : List Row) :
    Prop where
  partials : ∀ out, s.groupOutput text row group = .ok out →
    Accumulators.PartialsEvaluate text s.acc.reset row group
  arguments : Batched s → ∀ out, s.groupOutput text row group = .ok out → ∀ fed,
    (row :: group).foldlM (Accumulators.feed text) s.acc.reset = .ok fed →
      EvalExpr.hidesFailureAny text fed.fields (group.getLast?.getD row) = false

/-- Without a `HAVING`, feeding the accumulators is feeding the `SELECT` list. -/
theorem foldlM_feed_fields (fields : List EvalExpr) (rows : List Row) (fed : Accumulators) :
    rows.foldlM (Accumulators.feed text) { fields, having := none } = .ok fed ↔
      ∃ fields', rows.foldlM (EvalExpr.feedAll text) fields = .ok fields' ∧
        { fields := fields', having := none } = fed := by
  rw [foldlM_through_iff (g := EvalExpr.feedAll text)
    (c := fun fields => ({ fields, having := none } : Accumulators)) fun _ _ => rfl]

/-- The output of the grouping of a whole table. -/
theorem groupOutput_batched {s : GroupSource} (h : Batched s) (row : Row) (group : List Row)
    (out : Row × Bool) :
    s.groupOutput text row group = .ok out ↔
      ∃ fed values made,
        (row :: group).foldlM (EvalExpr.feedAll text) (EvalExpr.resetAll s.acc.fields) = .ok fed ∧
          EvalExpr.overAll text fed (group.getLast?.getD row) = .ok values ∧
            newRow values = .ok made ∧ out = (made, true) := by
  have hreset : s.acc.reset = { fields := EvalExpr.resetAll s.acc.fields, having := none } := by
    rw [Accumulators.reset, h.having]
    rfl
  unfold GroupSource.groupOutput Accumulators.totals
  rw [hreset]
  simp only [bind_ok_iff, pure_ok_iff, Prod.exists, foldlM_feed_fields]
  constructor
  · rintro ⟨values, keep, ⟨_, ⟨fed, hfed, rfl⟩, hover⟩, made, hmade, rfl⟩
    obtain ⟨vs, hvs, hkeep⟩ := by
      simpa only [Accumulators.onTotals, bind_ok_iff, pure_ok_iff] using hover
    obtain ⟨rfl, rfl⟩ := Prod.mk.inj hkeep
    exact ⟨fed, vs, made, hfed, hvs, hmade, rfl⟩
  · rintro ⟨fed, values, made, hfed, hover, hmade, rfl⟩
    refine ⟨values, true, ⟨_, ⟨fed, hfed, rfl⟩, ?_⟩, made, hmade, rfl⟩
    simp [Accumulators.onTotals, hover]

/-- What `next_group` gives of a group none of whose aggregates is passed by. -/
theorem nextGroup_output_iff {s : GroupSource} {row : Row} {group behind : List Row}
    (h : s.Begins row group behind)
    (hreach : Accumulators.ReachesAll text s.acc.reset row group) (out : Row × Bool) :
    (∃ s', s.nextGroup text = .ok (some out, s')) ↔
      s.groupOutput text row group = .ok out ∧
        Accumulators.PartialsEvaluate text s.acc.reset row group := by
  rw [GroupSource.nextGroup_ok_iff h]
  simp only [Accumulators.evalRows_ok_iff hreach, GroupSource.groupOutput, bind_ok_iff,
    pure_ok_iff, Prod.exists, Option.some.injEq]
  constructor
  · rintro ⟨values, keep, made, ⟨htotals, hpart⟩, hmade, rfl⟩
    exact ⟨⟨values, keep, htotals, made, hmade, rfl⟩, hpart⟩
  · rintro ⟨⟨values, keep, htotals, made, hmade, rfl⟩, hpart⟩
    exact ⟨values, keep, made, ⟨htotals, hpart⟩, hmade, rfl⟩

/-- Where no aggregate is passed by, only the totals count exactly if the expressions have
a value wherever they are evaluated. -/
theorem only_totals_count_iff {s : GroupSource} {row : Row} {group behind : List Row}
    (h : s.Begins row group behind)
    (hreach : Accumulators.ReachesAll text s.acc.reset row group) :
    OnlyTotalsCount text s row group ↔ EvaluatesThroughout text s row group := by
  have hnext := fun out => nextGroup_output_iff h hreach out
  have htotal : ∀ (hb : Batched s) (batches : List (List Row)),
      batches.flatten = row :: group → ∀ made,
        BatchTotal.total text s.acc.fields batches = .ok made ↔
          ∃ fed values,
            (row :: group).foldlM (EvalExpr.feedAll text) (EvalExpr.resetAll s.acc.fields) =
                .ok fed ∧
              EvalExpr.overAll text fed (group.getLast?.getD row) = .ok values ∧
                newRow values = .ok made ∧
                  EvalExpr.hidesFailureAny text fed (group.getLast?.getD row) = false := by
    intro hb batches hflat made
    rw [BatchTotal.total_ok_iff hb.batchable hb.noColumns (group.getLast?.getD row), hflat]
  have hfeed : ∀ (hb : Batched s) (fed : Accumulators),
      (row :: group).foldlM (Accumulators.feed text) s.acc.reset = .ok fed ↔
        ∃ fields',
          (row :: group).foldlM (EvalExpr.feedAll text) (EvalExpr.resetAll s.acc.fields) =
              .ok fields' ∧ { fields := fields', having := none } = fed := by
    intro hb fed
    have hreset : s.acc.reset =
        { fields := EvalExpr.resetAll s.acc.fields, having := none } := by
      rw [Accumulators.reset, hb.having]
      rfl
    rw [hreset]
    exact foldlM_feed_fields _ _ fed
  constructor
  · intro hcount
    have hpartials : ∀ out, s.groupOutput text row group = .ok out →
        Accumulators.PartialsEvaluate text s.acc.reset row group :=
      fun out hout => ((hnext out).mp ((hcount.output out).mpr hout)).2
    refine { partials := hpartials, arguments := ?_ }
    intro hb out hout fed hfed
    obtain ⟨fields, hfields, rfl⟩ := (hfeed hb fed).mp hfed
    obtain ⟨-, -, made, -, -, -, rfl⟩ := (groupOutput_batched hb row group out).mp hout
    have hgiven := (hcount.output _).mpr hout
    have hflat : [row :: group].flatten = row :: group := by simp
    obtain ⟨fields', -, hfields', -, -, hhides⟩ :=
      (htotal hb _ hflat made).mp ((hcount.batches hb _ hflat made).mp hgiven)
    obtain rfl := Except.ok.inj (hfields.symm.trans hfields')
    exact hhides
  · intro hthrough
    have houtput : ∀ out, (∃ s', s.nextGroup text = .ok (some out, s')) ↔
        s.groupOutput text row group = .ok out := by
      intro out
      rw [hnext]
      exact ⟨And.left, fun hout => ⟨hout, hthrough.partials out hout⟩⟩
    refine { output := houtput, batches := ?_ }
    intro hb batches hflat made
    rw [houtput, groupOutput_batched hb, htotal hb batches hflat made]
    constructor
    · rintro ⟨fed, values, made', hfed, hover, hmade, heq⟩
      obtain rfl := (Prod.mk.inj heq).1
      have hout : s.groupOutput text row group = .ok (made, true) :=
        (groupOutput_batched hb row group _).mpr ⟨fed, values, made, hfed, hover, hmade, rfl⟩
      exact ⟨fed, values, hfed, hover, hmade,
        hthrough.arguments hb _ hout _ ((hfeed hb _).mpr ⟨fed, hfed, rfl⟩)⟩
    · rintro ⟨fed, values, hfed, hover, hmade, -⟩
      exact ⟨fed, values, made, hfed, hover, hmade, rfl⟩

/-- The grouping of two rows as one group. -/
def ofTwo (e : EvalExpr) (first second : ValueItem) : GroupSource :=
  .new [[first], [second]] { fields := [e], having := none } []

theorem ofTwo_begins (e : EvalExpr) (first second : ValueItem) :
    (ofTwo e first second).Begins [first] [[second]] [] where
  upcoming := rfl
  group := fun _ _ => rfl
  behind := fun r h => by cases h

/-- `concat(count(*), max(x))`. -/
def countThenMax : EvalExpr :=
  .concat [.countAll (.count false [] 0), .aggregate (.max none) (.value 0)]

/-- Of a `NULL` and a `9` it is `29`: the count is fed before the `CONCAT` is `NULL`. -/
theorem only_totals_count_of_two :
    (ofTwo countThenMax .null (.integer 9)).groupOutput .plain [.null] [[.integer 9]] =
        .ok ([strValue "29"], true) ∧
      OnlyTotalsCount .plain (ofTwo countThenMax .null (.integer 9)) [.null] [[.integer 9]] := by
  have hreach : Accumulators.ReachesAll .plain
      (ofTwo countThenMax .null (.integer 9)).acc.reset [.null] [[.integer 9]] := by
    intro before r after fed heq hfed hpass
    cases before with
    | nil =>
      obtain ⟨rfl, -⟩ := List.cons.inj heq
      cases hfed
      exact absurd hpass (by decide)
    | cons b before =>
      obtain ⟨rfl, hrest⟩ := List.cons.inj heq
      cases before with
      | nil =>
        obtain ⟨rfl, -⟩ := List.cons.inj hrest
        cases hfed
        exact absurd hpass (by decide)
      | cons c before => simp at hrest
  refine ⟨rfl, (only_totals_count_iff (ofTwo_begins _ _ _) hreach).mpr ?_⟩
  refine { partials := ?_, arguments := ?_ }
  · intro out hout k hk
    obtain rfl : k = 0 := by simpa using hk
    exact ⟨_, rfl⟩
  · intro hb out hout fed hfed
    cases hfed
    rfl

/-- `1 / (count(*) - 1)`. -/
def oneOverOthers : EvalExpr :=
  .binary (.literal (.integer 1)) .divide
    (.binary (.countAll (.count false [] 0)) .minus (.literal (.integer 1)))

/-- `concat(max(x), count(*))`. -/
def maxThenCount : EvalExpr :=
  .concat [.aggregate (.max none) (.value 0), .countAll (.count false [] 0)]

/-- Of two rows `1 / (count(*) - 1)` is `1`, and the grouping fails on the first; of a
`NULL` and a `9`, `concat(max(x), count(*))` is `92`, and the grouping counts one row. -/
theorem partials_count :
    ¬OnlyTotalsCount .plain (ofTwo oneOverOthers (.integer 7) (.integer 8))
        [.integer 7] [[.integer 8]] ∧
      ¬OnlyTotalsCount .plain (ofTwo maxThenCount .null (.integer 9))
        [.null] [[.integer 9]] := by
  constructor
  · intro h
    obtain ⟨s', hs'⟩ := (h.output ([.integer 1], true)).mpr rfl
    cases hs'
  · intro h
    obtain ⟨s', hs'⟩ := (h.output ([strValue "92"], true)).mpr rfl
    have hgiven : ∃ s₀, (ofTwo maxThenCount .null (.integer 9)).nextGroup .plain =
        .ok (some ([strValue "91"], true), s₀) := ⟨_, rfl⟩
    obtain ⟨s₀, hs₀⟩ := hgiven
    have heq := congrArg (fun r => r.toOption.bind (·.1)) (hs₀.symm.trans hs')
    have hrow : ([strValue "91"], true) = ([strValue "92"], true) := Option.some.inj heq
    exact absurd (Prod.mk.inj hrow).1 (by decide +kernel)

end SquealDb.Sql
