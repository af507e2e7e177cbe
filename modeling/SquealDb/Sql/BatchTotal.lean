import SquealDb.Sql.Group
import SquealDb.Sql.Totals

/-!
# Totals read in batches

`BatchTotal` of `source/total.rs`, with `feed_batch` of `plan/funcs.rs`: the grouping of a
whole table whose aggregates are all of plain columns.  Each takes a batch's column at a
time, and the output row is what an empty group's would be over the totals.

Here every argument of a `CONCAT` is evaluated, whether one before it is `NULL` or not.
-/

namespace SquealDb.Sql

open Codec Lib

/-! ## Columns -/

namespace Aggregate

/-- `add_integer`, into a total that is an integer. -/
def addInteger (t : Int64) (v : ValueItem) : Except SchemaError Int64 :=
  match v with
  | .integer i =>
    match checkedAdd t i with
    | some t' => .ok t'
    | none => operandErrorMsg "sum" "integer overflow"
  | _ => .ok t

/-- A value is an integer. -/
def isInteger : ValueItem → Bool
  | .integer _ => true
  | _ => false

/-- One turn of `feed_column` of `Min` and `Max`: the best found so far in the column,
given the best before it. -/
def keepFound (better : Ordering) (best found : Option ValueItem) (v : ValueItem) :
    Option ValueItem :=
  if v = .null then found
  else
    match found.or best with
    | some cur => if v.cmp cur = better then some v else found
    | none => some v

/-- `feed_column` of `Min` and `Max`: what is found in the column is kept once. -/
def bestOf (better : Ordering) (best : Option ValueItem) (column : List ValueItem) :
    Option ValueItem :=
  (column.foldl (keepFound better best) none).or best

/-- What `feed_batch` makes of a column: an integer column with no `NULL` is added up in
one loop. -/
def feedColumn : Aggregate → List ValueItem → Except SchemaError Aggregate
  | count distinct values n, column =>
    .ok (count distinct values (n + (column.length - (column.filter (· = .null)).length)))
  | avg total n, column => column.foldlM feed (avg total n)
  | sum total any, column =>
    match total, column.all isInteger with
    | .inl t, true => do
      return sum (.inl (← column.foldlM addInteger t)) (any || !column.isEmpty)
    | _, _ => column.foldlM feed (sum total any)
  | min best, column => .ok (min (bestOf .lt best column))
  | max best, column => .ok (max (bestOf .gt best column))

theorem keepFound_or (better : Ordering) (best found : Option ValueItem) (v : ValueItem) :
    (keepFound better best found v).or best = keepBest better (found.or best) v := by
  unfold keepFound keepBest
  by_cases hv : v = .null
  · subst hv
    simp
  · rw [if_neg hv]
    cases hcur : found.or best with
    | none => cases v <;> first | exact absurd rfl hv | rfl
    | some cur =>
      cases v <;> first | exact absurd rfl hv | skip
      all_goals
        dsimp only
        split
        · rfl
        · exact hcur

/-- The best of a column is the best of its values one by one. -/
theorem bestOf_eq (better : Ordering) (best : Option ValueItem) (column : List ValueItem) :
    bestOf better best column = column.foldl (keepBest better) best := by
  have hfold : ∀ found : Option ValueItem,
      (column.foldl (keepFound better best) found).or best =
        column.foldl (keepBest better) (found.or best) := by
    induction column with
    | nil => exact fun _ => rfl
    | cons v column ih =>
      intro found
      rw [List.foldl_cons, List.foldl_cons, ih, keepFound_or]
  exact hfold none

theorem feed_count (values : List ValueItem) (n : Nat) (column : List ValueItem) :
    column.foldlM feed (count false values n) =
      .ok (count false values (n + (column.length - (column.filter (· = .null)).length))) := by
  induction column generalizing n with
  | nil => rfl
  | cons v column ih =>
    have hle := List.length_filter_le (fun v => decide (v = ValueItem.null)) column
    rw [List.foldlM_cons]
    by_cases hv : v = .null
    · subst hv
      simp only [feed, if_true, bind, Except.bind, ih, List.filter_cons_of_pos,
        decide_true, List.length_cons, Nat.add_sub_add_right]
    · simp only [feed, if_neg hv, Bool.false_eq_true, if_false, bind, Except.bind, ih]
      rw [List.filter_cons_of_neg (by simpa using hv), List.length_cons]
      congr 2
      omega

theorem feed_integers (t : Int64) (any : Bool) {column : List ValueItem}
    (h : column.all isInteger = true) :
    column.foldlM feed (sum (.inl t) any) =
      (do return sum (.inl (← column.foldlM addInteger t)) (any || !column.isEmpty)) := by
  induction column generalizing t any with
  | nil => simp [bind, Except.bind, pure, Except.pure]
  | cons v column ih =>
    rw [List.all_cons, Bool.and_eq_true] at h
    obtain ⟨hv, hrest⟩ := h
    cases v <;> simp only [isInteger, Bool.false_eq_true] at hv
    rename_i i
    rw [List.foldlM_cons, List.foldlM_cons]
    simp only [feed, addInteger]
    cases hadd : checkedAdd t i with
    | none => rfl
    | some t' =>
      show column.foldlM feed (sum (.inl t') true) = _
      rw [ih t' true hrest]
      cases any <;> rfl

/-- A column feeds an aggregate that is not `DISTINCT` as its values would. -/
theorem feedColumn_eq (acc : Aggregate) (column : List ValueItem)
    (h : ∀ values n, acc ≠ count true values n) :
    acc.feedColumn column = column.foldlM feed acc := by
  cases acc with
  | count distinct values n =>
    cases distinct with
    | true => exact absurd rfl (h values n)
    | false => exact (feed_count values n column).symm
  | avg total n => rfl
  | sum total any =>
    cases total with
    | inr d => rfl
    | inl t =>
      cases hall : column.all isInteger with
      | true =>
        simp only [feedColumn, hall]
        exact (feed_integers t any hall).symm
      | false => simp only [feedColumn, hall]
  | min best =>
    rw [feedColumn, bestOf_eq]
    clear h
    induction column generalizing best with
    | nil => rfl
    | cons v column ih => exact ih _
  | max best =>
    rw [feedColumn, bestOf_eq]
    clear h
    induction column generalizing best with
    | nil => rfl
    | cons v column ih => exact ih _

/-- An aggregate that is not `DISTINCT` stays so. -/
theorem foldlM_feed_distinct {acc acc' : Aggregate} {column : List ValueItem}
    (h : ∀ values n, acc ≠ count true values n) (hfeed : column.foldlM feed acc = .ok acc') :
    ∀ values n, acc' ≠ count true values n := by
  induction column generalizing acc with
  | nil =>
    cases hfeed
    exact h
  | cons v column ih =>
    rw [List.foldlM_cons, bind_ok_iff] at hfeed
    obtain ⟨acc₁, hstep, hrest⟩ := hfeed
    apply ih _ hrest
    rintro values n rfl
    cases acc with
    | count distinct vs m =>
      cases distinct with
      | true => exact h vs m rfl
      | false =>
        simp only [feed, Bool.false_eq_true, if_false] at hstep
        split at hstep <;> cases hstep
    | avg total m => cases v <;> cases hstep
    | sum total any =>
      cases v <;> cases total <;> simp only [feed] at hstep <;> try cases hstep
      split at hstep <;> cases hstep
    | min best => cases hstep
    | max best => cases hstep

end Aggregate

/-! ## Expressions -/

namespace EvalExpr

/-- `batch_input`: the column an aggregate reads, none for `count(*)`.  No other
aggregate is made of a wildcard. -/
def batchInput : EvalExpr → Option (Option Nat)
  | countAll (.count false _ _) => some Option.none
  | aggregate (.count true _ _) _ => Option.none
  | aggregate _ (value p) => some (some p)
  | _ => Option.none

mutual

/-- `every_aggregate`, of those a batch can feed. -/
def batchable : EvalExpr → Bool
  | unary _ e => batchable e
  | binary l _ r => batchable l && batchable r
  | countAll acc => (batchInput (countAll acc)).isSome
  | aggregate acc arg => (batchInput (aggregate acc arg)).isSome
  | call _ arg => batchable arg
  | concat args | scalar _ args | subquery _ args => batchableAll args
  | none | literal _ | value _ | param _ => true

@[inherit_doc batchable]
def batchableAll : List EvalExpr → Bool
  | [] => true
  | e :: es => batchable e && batchableAll es

end

mutual

/-- No column is read outside an aggregate. -/
def noColumns : EvalExpr → Bool
  | unary _ e => noColumns e
  | binary l _ r => noColumns l && noColumns r
  | call _ arg => noColumns arg
  | concat args | scalar _ args | subquery _ args => noColumnsAll args
  | value _ => false
  | countAll _ | aggregate _ _ | none | literal _ | param _ => true

@[inherit_doc noColumns]
def noColumnsAll : List EvalExpr → Bool
  | [] => true
  | e :: es => noColumns e && noColumnsAll es

end

def notInBatch : SchemaError := .internalSchemaError "an aggregate fed a batch it can't read"

mutual

/-- `for_each_aggregate` of `feed_batch`. -/
def feedBatch : EvalExpr → List Row → Except SchemaError EvalExpr
  | unary op e, batch => do return unary op (← feedBatch e batch)
  | binary l op r, batch => do return binary (← feedBatch l batch) op (← feedBatch r batch)
  | countAll acc, batch =>
    match acc with
    | .count false values n => .ok (countAll (.count false values (n + batch.length)))
    | _ => .error notInBatch
  | aggregate acc arg, batch =>
    match batchInput (aggregate acc arg) with
    | some (some p) => do return aggregate (← acc.feedColumn (batch.map (·.at p))) arg
    | _ => .error notInBatch
  | call f arg, batch => do return call f (← feedBatch arg batch)
  | concat args, batch => do return concat (← feedBatchAll args batch)
  | scalar kind args, batch => do return scalar kind (← feedBatchAll args batch)
  | subquery data operands, batch => do return subquery data (← feedBatchAll operands batch)
  | none, _ => .ok none
  | literal v, _ => .ok (literal v)
  | value pos, _ => .ok (value pos)
  | param i, _ => .ok (param i)

@[inherit_doc feedBatch]
def feedBatchAll : List EvalExpr → List Row → Except SchemaError (List EvalExpr)
  | [], _ => .ok []
  | e :: es, batch => do return (← feedBatch e batch) :: (← feedBatchAll es batch)

end

end EvalExpr

/-- `BatchTotal::total`, over a source that yields some batches. -/
def BatchTotal.total (text : Text) (fields : List EvalExpr) (batches : List (List Row)) :
    Except SchemaError Row := do
  let fed ← batches.foldlM EvalExpr.feedBatchAll (EvalExpr.resetAll fields)
  newRow (← EvalExpr.emptyGroupAll text fed)

namespace EvalExpr

variable {text : Text}

/-! ## Batches feed as their rows do -/

theorem batchInput_countAll {acc : Aggregate} (h : (batchInput (countAll acc)).isSome = true) :
    ∃ values n, acc = .count false values n := by
  cases acc with
  | count distinct values n =>
    cases distinct with
    | true => cases h
    | false => exact ⟨values, n, rfl⟩
  | avg total n => cases h
  | sum total any => cases h
  | min best => cases h
  | max best => cases h

theorem batchInput_aggregate {acc : Aggregate} {arg : EvalExpr}
    (h : (batchInput (aggregate acc arg)).isSome = true) :
    ∃ p, arg = value p ∧ batchInput (aggregate acc arg) = some (some p) ∧
      ∀ values n, acc ≠ .count true values n := by
  unfold batchInput at h
  split at h
  · cases ‹aggregate acc arg = _›
  · cases h
  · rename_i hnot heq
    cases heq
    refine ⟨_, rfl, ?_, ?_⟩
    · unfold batchInput
      split <;> simp_all
    · rintro values n rfl
      exact hnot values n rfl
  · cases h

theorem feedAll_nil (rows : List Row) : rows.foldlM (feedAll text) [] = .ok [] :=
  foldlM_fixed (fun _ => rfl) rows

theorem feedAll_cons_iff (e : EvalExpr) (es out : List EvalExpr) (rows : List Row) :
    rows.foldlM (feedAll text) (e :: es) = .ok out ↔
      ∃ e' es', rows.foldlM (feed text) e = .ok e' ∧ rows.foldlM (feedAll text) es = .ok es' ∧
        e' :: es' = out :=
  foldlM_pair_iff (fun _ _ _ => rfl) rows e es out

mutual

/-- A batch feeds the aggregates of an expression as its rows would. -/
theorem feedBatch_ok_iff (e : EvalExpr) (h : batchable e = true) (batch : List Row)
    (out : EvalExpr) :
    feedBatch e batch = .ok out ↔ batch.foldlM (feed text) e = .ok out := by
  cases e with
  | unary op e =>
    rw [foldlM_through_iff (g := feed text) (c := unary op) fun _ _ => rfl]
    simp only [feedBatch, bind_ok_iff, pure_ok_iff, feedBatch_ok_iff e h]
  | binary l op r =>
    simp only [batchable, Bool.and_eq_true] at h
    rw [foldlM_pair_iff (g := feed text) (k := feed text) (c := fun a b => binary a op b)
      fun _ _ _ => rfl]
    simp only [feedBatch, bind_ok_iff, pure_ok_iff, feedBatch_ok_iff l h.1,
      feedBatch_ok_iff r h.2]
    grind
  | countAll acc =>
    obtain ⟨values, n, rfl⟩ := batchInput_countAll h
    have hcount : batch.foldlM (feed text) (countAll (.count false values n)) =
        .ok (countAll (.count false values (n + batch.length))) := by
      clear h
      induction batch generalizing n with
      | nil => rfl
      | cons row batch ih =>
        rw [List.foldlM_cons, List.length_cons, ← Nat.add_assoc, Nat.add_right_comm]
        exact ih (n + 1)
    rw [hcount]
    rfl
  | aggregate acc arg =>
    obtain ⟨p, rfl, hinput, hdistinct⟩ := batchInput_aggregate h
    rw [foldlM_through_iff (g := fun acc row => acc.feed (Row.at row p))
      (c := fun acc => aggregate acc (value p)) fun _ _ => rfl]
    simp only [feedBatch, hinput, bind_ok_iff, pure_ok_iff,
      Aggregate.feedColumn_eq acc _ hdistinct, List.foldlM_map]
  | call f arg =>
    rw [foldlM_through_iff (g := feed text) (c := call f) fun _ _ => rfl]
    simp only [feedBatch, bind_ok_iff, pure_ok_iff, feedBatch_ok_iff arg h]
  | concat args =>
    rw [foldlM_through_iff (g := feedAll text) (c := concat) fun _ _ => rfl]
    simp only [feedBatch, bind_ok_iff, pure_ok_iff, feedBatchAll_ok_iff args h]
  | scalar kind args =>
    rw [foldlM_through_iff (g := feedAll text) (c := scalar kind) fun _ _ => rfl]
    simp only [feedBatch, bind_ok_iff, pure_ok_iff, feedBatchAll_ok_iff args h]
  | subquery data operands =>
    rw [foldlM_through_iff (g := feedAll text) (c := subquery data) fun _ _ => rfl]
    simp only [feedBatch, bind_ok_iff, pure_ok_iff, feedBatchAll_ok_iff operands h]
  | none => rw [foldlM_fixed (fun _ => rfl)]; rfl
  | literal v => rw [foldlM_fixed (fun _ => rfl)]; rfl
  | value pos => rw [foldlM_fixed (fun _ => rfl)]; rfl
  | param i => rw [foldlM_fixed (fun _ => rfl)]; rfl

@[inherit_doc feedBatch_ok_iff]
theorem feedBatchAll_ok_iff (es : List EvalExpr) (h : batchableAll es = true)
    (batch : List Row) (out : List EvalExpr) :
    feedBatchAll es batch = .ok out ↔ batch.foldlM (feedAll text) es = .ok out := by
  cases es with
  | nil =>
    rw [feedAll_nil]
    rfl
  | cons e es =>
    simp only [batchableAll, Bool.and_eq_true] at h
    rw [feedAll_cons_iff]
    simp only [feedBatchAll, bind_ok_iff, pure_ok_iff, feedBatch_ok_iff e h.1,
      feedBatchAll_ok_iff es h.2]
    grind

end

/-! ## The output over the totals -/

mutual

/-- A batch leaves an expression as it was but for what its aggregates hold. -/
theorem feedBatch_shape (e e' : EvalExpr) (batch : List Row) (h : feedBatch e batch = .ok e') :
    batchable e' = batchable e ∧ noColumns e' = noColumns e := by
  cases e with
  | unary op e =>
    simp only [feedBatch, bind_ok_iff, pure_ok_iff] at h
    obtain ⟨e₁, he, rfl⟩ := h
    exact feedBatch_shape e e₁ batch he
  | binary l op r =>
    simp only [feedBatch, bind_ok_iff, pure_ok_iff] at h
    obtain ⟨l₁, hl, r₁, hr, rfl⟩ := h
    have hl' := feedBatch_shape l l₁ batch hl
    have hr' := feedBatch_shape r r₁ batch hr
    simp only [batchable, noColumns, hl', hr', and_self]
  | countAll acc =>
    cases acc with
    | count distinct values n =>
      cases distinct with
      | true => cases h
      | false =>
        cases h
        exact ⟨rfl, rfl⟩
    | avg total n => cases h
    | sum total any => cases h
    | min best => cases h
    | max best => cases h
  | aggregate acc arg =>
    simp only [feedBatch] at h
    split at h
    · rename_i p hinput
      simp only [bind_ok_iff, pure_ok_iff] at h
      obtain ⟨acc', hacc, rfl⟩ := h
      obtain ⟨q, rfl, -, hdistinct⟩ := batchInput_aggregate (by rw [hinput]; rfl)
      refine ⟨?_, rfl⟩
      have hacc' : ∀ values n, acc' ≠ .count true values n := by
        rw [Aggregate.feedColumn_eq acc _ hdistinct] at hacc
        exact Aggregate.foldlM_feed_distinct hdistinct hacc
      simp only [batchable]
      unfold batchInput
      cases acc <;> cases acc' <;> simp_all
    · cases h
  | call f arg =>
    simp only [feedBatch, bind_ok_iff, pure_ok_iff] at h
    obtain ⟨e₁, he, rfl⟩ := h
    exact feedBatch_shape arg e₁ batch he
  | concat args =>
    simp only [feedBatch, bind_ok_iff, pure_ok_iff] at h
    obtain ⟨es, hes, rfl⟩ := h
    exact feedBatchAll_shape args es batch hes
  | scalar kind args =>
    simp only [feedBatch, bind_ok_iff, pure_ok_iff] at h
    obtain ⟨es, hes, rfl⟩ := h
    exact feedBatchAll_shape args es batch hes
  | subquery data operands =>
    simp only [feedBatch, bind_ok_iff, pure_ok_iff] at h
    obtain ⟨es, hes, rfl⟩ := h
    exact feedBatchAll_shape operands es batch hes
  | none | literal v | value pos | param i =>
    cases h
    exact ⟨rfl, rfl⟩

@[inherit_doc feedBatch_shape]
theorem feedBatchAll_shape (es es' : List EvalExpr) (batch : List Row)
    (h : feedBatchAll es batch = .ok es') :
    batchableAll es' = batchableAll es ∧ noColumnsAll es' = noColumnsAll es := by
  cases es with
  | nil =>
    cases h
    exact ⟨rfl, rfl⟩
  | cons e es =>
    simp only [feedBatchAll, bind_ok_iff, pure_ok_iff] at h
    obtain ⟨e₁, he, es₁, hes, rfl⟩ := h
    have he' := feedBatch_shape e e₁ batch he
    have hes' := feedBatchAll_shape es es₁ batch hes
    simp only [batchableAll, noColumnsAll, he', hes', and_self]

end

variable (text) in
mutual

/-- A `NULL` of a `CONCAT` hides that an argument behind it has no value. -/
def hidesFailure : EvalExpr → Row → Bool
  | unary _ e, row => hidesFailure e row
  | binary l _ r, row => hidesFailure l row || hidesFailure r row
  | call _ arg, row => hidesFailure arg row
  | concat args, row => hidesFailureConcat args row
  | scalar _ args, row | subquery _ args, row => hidesFailureAny args row
  | countAll _, _ | aggregate _ _, _ | none, _ | literal _, _ | value _, _ | param _, _ => false

@[inherit_doc hidesFailure]
def hidesFailureAny : List EvalExpr → Row → Bool
  | [], _ => false
  | e :: es, row => hidesFailure e row || hidesFailureAny es row

@[inherit_doc hidesFailure]
def hidesFailureConcat : List EvalExpr → Row → Bool
  | [], _ => false
  | e :: es, row =>
    hidesFailure e row ||
      match onTotals text e row with
      | .ok .null => hidesFailureAny es row || !(overAll text es row).isOk
      | _ => hidesFailureConcat es row

end

/-- The text of a `CONCAT` of some values, none where one is `NULL`. -/
def joined (text : Text) (values : List ValueItem) : Option String :=
  if values.any (· == .null) then Option.none
  else some (String.join (values.map (display text)))

theorem concatValues_eq (values : List ValueItem) :
    concatValues text values =
      match joined text values with
      | some s => strValue s
      | Option.none => .null := by
  unfold concatValues joined
  split <;> rfl

theorem joined_cons (v : ValueItem) (values : List ValueItem) :
    joined text (v :: values) =
      if v = .null then Option.none else (joined text values).map (display text v ++ ·) := by
  unfold joined
  by_cases hv : v = .null
  · simp [hv]
  · have hbeq : (v == ValueItem.null) = false := by simpa using hv
    rw [if_neg hv, List.any_cons, hbeq, Bool.false_or]
    split
    · rfl
    · simp [String.join_cons]

mutual

/-- `eval_empty_group` gives the value over the totals, unless a `NULL` hides that an
argument has none. -/
theorem emptyGroup_ok_iff (e : EvalExpr) (row : Row) (h : noColumns e = true) (v : ValueItem) :
    evalEmptyGroup text e = .ok v ↔ onTotals text e row = .ok v ∧ hidesFailure text e row =
      false := by
  cases e with
  | unary op e =>
    simp only [evalEmptyGroup, onTotals, hidesFailure, bind_ok_iff, emptyGroup_ok_iff e row h]
    grind
  | binary l op r =>
    simp only [noColumns, Bool.and_eq_true] at h
    simp only [evalEmptyGroup, onTotals, hidesFailure, bind_ok_iff, Bool.or_eq_false_iff,
      emptyGroup_ok_iff l row h.1, emptyGroup_ok_iff r row h.2]
    grind
  | countAll acc => simp [evalEmptyGroup, onTotals, hidesFailure]
  | aggregate acc arg => simp [evalEmptyGroup, onTotals, hidesFailure]
  | call f arg =>
    simp only [evalEmptyGroup, onTotals, hidesFailure, bind_ok_iff, emptyGroup_ok_iff arg row h]
    grind
  | concat args =>
    simp only [evalEmptyGroup, onTotals, hidesFailure, bind_ok_iff, pure_ok_iff]
    constructor
    · rintro ⟨vs, hvs, rfl⟩
      obtain ⟨hout, hhides⟩ :=
        (emptyGroupConcat_iff args row h (joined text vs)).mp ⟨vs, hvs, rfl⟩
      refine ⟨⟨_, hout, ?_⟩, hhides⟩
      rw [concatValues_eq]
      cases joined text vs <;> rfl
    · rintro ⟨⟨out, hout, hv⟩, hhides⟩
      obtain ⟨vs, hvs, rfl⟩ := (emptyGroupConcat_iff args row h out).mpr ⟨hout, hhides⟩
      refine ⟨vs, hvs, ?_⟩
      rw [concatValues_eq]
      cases hj : joined text vs <;> rw [hj] at hv <;> exact Except.ok.inj hv
  | scalar kind args =>
    simp only [evalEmptyGroup, onTotals, hidesFailure, bind_ok_iff,
      emptyGroupAll_ok_iff args row h]
    grind
  | subquery data operands =>
    simp only [evalEmptyGroup, onTotals, hidesFailure, bind_ok_iff, pure_ok_iff,
      emptyGroupAll_ok_iff operands row h]
    grind
  | value pos => cases h
  | none | literal w | param i => simp [evalEmptyGroup, onTotals, hidesFailure]

@[inherit_doc emptyGroup_ok_iff]
theorem emptyGroupAll_ok_iff (es : List EvalExpr) (row : Row) (h : noColumnsAll es = true)
    (vs : List ValueItem) :
    emptyGroupAll text es = .ok vs ↔
      overAll text es row = .ok vs ∧ hidesFailureAny text es row = false := by
  cases es with
  | nil => simp [emptyGroupAll, overAll, hidesFailureAny]
  | cons e es =>
    simp only [noColumnsAll, Bool.and_eq_true] at h
    simp only [emptyGroupAll, overAll, hidesFailureAny, bind_ok_iff, pure_ok_iff,
      Bool.or_eq_false_iff, emptyGroup_ok_iff e row h.1, emptyGroupAll_ok_iff es row h.2]
    grind

@[inherit_doc emptyGroup_ok_iff]
theorem emptyGroupConcat_iff (es : List EvalExpr) (row : Row) (h : noColumnsAll es = true)
    (out : Option String) :
    (∃ vs, emptyGroupAll text es = .ok vs ∧ joined text vs = out) ↔
      overConcat text es row = .ok out ∧ hidesFailureConcat text es row = false := by
  cases es with
  | nil => simp [emptyGroupAll, overConcat, hidesFailureConcat, joined]
  | cons e es =>
    simp only [noColumnsAll, Bool.and_eq_true] at h
    have hall := emptyGroupAll_ok_iff es row h.2
    have hrest := emptyGroupConcat_iff es row h.2
    simp only [emptyGroupAll, overConcat, hidesFailureConcat, bind_ok_iff, pure_ok_iff,
      Bool.or_eq_false_iff, emptyGroup_ok_iff e row h.1]
    constructor
    · rintro ⟨_, ⟨v, ⟨hv, hhides⟩, vs, hvs, rfl⟩, rfl⟩
      rw [joined_cons, hv]
      by_cases hn : v = .null
      · subst hn
        obtain ⟨hover, hany⟩ := (hall vs).mp hvs
        exact ⟨⟨_, rfl, rfl⟩, hhides, by simp [hany, hover, Except.isOk, Except.toBool]⟩
      · obtain ⟨hout, hbehind⟩ := (hrest _).mp ⟨vs, hvs, rfl⟩
        refine ⟨⟨v, rfl, by simp [hn, hout]⟩, hhides, ?_⟩
        cases v <;> first | exact absurd rfl hn | exact hbehind
    · rintro ⟨⟨v, hv, hout⟩, hhides, hbehind⟩
      rw [hv] at hbehind
      by_cases hn : v = .null
      · subst hn
        simp only [Bool.or_eq_false_iff] at hbehind
        cases hover : overAll text es row with
        | error err => simp [hover, Except.isOk, Except.toBool] at hbehind
        | ok vs =>
          refine ⟨_, ⟨.null, ⟨hv, hhides⟩, vs, (hall vs).mpr ⟨hover, hbehind.1⟩, rfl⟩, ?_⟩
          rw [joined_cons]
          exact Except.ok.inj hout
      · simp only [hn, if_false, bind_ok_iff, pure_ok_iff] at hout
        obtain ⟨o, ho, rfl⟩ := hout
        have hbehind' : hidesFailureConcat text es row = false := by
          cases v <;> first | exact absurd rfl hn | exact hbehind
        obtain ⟨vs, hvs, rfl⟩ := (hrest o).mpr ⟨ho, hbehind'⟩
        refine ⟨_, ⟨v, ⟨hv, hhides⟩, vs, hvs, rfl⟩, ?_⟩
        rw [joined_cons, if_neg hn]

end

/-- The totals do not depend on how the rows are cut into batches. -/
theorem feedBatches_ok_iff {es : List EvalExpr} (h : batchableAll es = true)
    (batches : List (List Row)) (out : List EvalExpr) :
    batches.foldlM feedBatchAll es = .ok out ↔
      batches.flatten.foldlM (feedAll text) es = .ok out := by
  induction batches generalizing es with
  | nil => rfl
  | cons batch batches ih =>
    rw [List.foldlM_cons, List.flatten_cons, List.foldlM_append, bind_ok_iff, bind_ok_iff]
    constructor
    · rintro ⟨es₁, hes, hrest⟩
      have hshape := (feedBatchAll_shape es es₁ batch hes).1
      exact ⟨es₁, (feedBatchAll_ok_iff es h batch es₁).mp hes, (ih (hshape.trans h)).mp hrest⟩
    · rintro ⟨es₁, hes, hrest⟩
      have hes' := (feedBatchAll_ok_iff es h batch es₁).mpr hes
      have hshape := (feedBatchAll_shape es es₁ batch hes').1
      exact ⟨es₁, hes', (ih (hshape.trans h)).mpr hrest⟩

theorem batchInput_reset (acc : Aggregate) (arg : EvalExpr) :
    batchInput (countAll acc.reset) = batchInput (countAll acc) ∧
      batchInput (aggregate acc.reset arg) = batchInput (aggregate acc arg) := by
  cases acc with
  | count distinct values n =>
    cases distinct with
    | true => simp [Aggregate.reset, batchInput]
    | false => cases arg <;> simp [Aggregate.reset, batchInput]
  | avg total n => cases arg <;> simp [Aggregate.reset, batchInput]
  | sum total any => cases arg <;> simp [Aggregate.reset, batchInput]
  | min best => cases arg <;> simp [Aggregate.reset, batchInput]
  | max best => cases arg <;> simp [Aggregate.reset, batchInput]

mutual

/-- A reset leaves an expression as it was but for what its aggregates hold. -/
theorem reset_shape (e : EvalExpr) :
    batchable e.reset = batchable e ∧ noColumns e.reset = noColumns e := by
  cases e with
  | unary op e => exact reset_shape e
  | binary l op r =>
    simp only [reset, batchable, noColumns, reset_shape l, reset_shape r, and_self]
  | countAll acc =>
    simp only [reset, batchable, noColumns, (batchInput_reset acc none).1, and_self]
  | aggregate acc arg =>
    simp only [reset, batchable, noColumns, (batchInput_reset acc arg).2, and_self]
  | call f arg => exact reset_shape arg
  | concat args => exact resetAll_shape args
  | scalar kind args => exact resetAll_shape args
  | subquery data operands => exact resetAll_shape operands
  | none | literal v | value pos | param i => exact ⟨rfl, rfl⟩

@[inherit_doc reset_shape]
theorem resetAll_shape (es : List EvalExpr) :
    batchableAll (resetAll es) = batchableAll es ∧ noColumnsAll (resetAll es) =
      noColumnsAll es := by
  cases es with
  | nil => exact ⟨rfl, rfl⟩
  | cons e es =>
    simp only [resetAll, batchableAll, noColumnsAll, reset_shape e, resetAll_shape es, and_self]

end

end EvalExpr

/-- What `total` gives of some rows, however they are cut into batches: the values over
the totals, where no `NULL` hides that an argument has none. -/
theorem BatchTotal.total_ok_iff {text : Text} {fields : List EvalExpr} {batches : List (List Row)}
    (hbatch : EvalExpr.batchableAll fields = true) (hcolumns : EvalExpr.noColumnsAll fields = true)
    (row made : Row) :
    BatchTotal.total text fields batches = .ok made ↔
      ∃ fed values,
        batches.flatten.foldlM (EvalExpr.feedAll text) (EvalExpr.resetAll fields) = .ok fed ∧
          EvalExpr.overAll text fed row = .ok values ∧ newRow values = .ok made ∧
            EvalExpr.hidesFailureAny text fed row = false := by
  have hreset := EvalExpr.resetAll_shape fields
  have hfold : ∀ fed, batches.foldlM EvalExpr.feedBatchAll (EvalExpr.resetAll fields) = .ok fed ↔
      batches.flatten.foldlM (EvalExpr.feedAll text) (EvalExpr.resetAll fields) = .ok fed :=
    EvalExpr.feedBatches_ok_iff (hreset.1.trans hbatch) batches
  have hshape : ∀ fed,
      batches.flatten.foldlM (EvalExpr.feedAll text) (EvalExpr.resetAll fields) = .ok fed →
        EvalExpr.noColumnsAll fed = true := by
    intro fed hfed
    have hone := (EvalExpr.feedBatchAll_ok_iff _ (hreset.1.trans hbatch) _ fed).mpr hfed
    rw [(EvalExpr.feedBatchAll_shape _ fed _ hone).2, hreset.2, hcolumns]
  unfold BatchTotal.total
  simp only [bind_ok_iff, hfold]
  constructor
  · rintro ⟨fed, hfed, values, hvalues, hmade⟩
    obtain ⟨hover, hhides⟩ :=
      (EvalExpr.emptyGroupAll_ok_iff fed row (hshape fed hfed) values).mp hvalues
    exact ⟨fed, values, hfed, hover, hmade, hhides⟩
  · rintro ⟨fed, values, hfed, hover, hmade, hhides⟩
    exact ⟨fed, hfed, values,
      (EvalExpr.emptyGroupAll_ok_iff fed row (hshape fed hfed) values).mpr ⟨hover, hhides⟩, hmade⟩

end SquealDb.Sql
