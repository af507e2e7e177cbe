import SquealDb.Sql.Group
import SquealDb.Sql.Totals

/-!
# A group's output over its totals

`GroupSource` evaluates the whole `SELECT` list and the `HAVING` on every row of a group
and keeps what the last row gives.  The output is the one over the totals of the group
as long as the evaluation on the rows before fails on none of them, and passes no
aggregate by.
-/

namespace SquealDb.Sql

open Codec Lib

namespace Accumulators

variable (text : Text)

/-- Every aggregate is fed a row. -/
def feed (acc : Accumulators) (row : Row) : Except SchemaError Accumulators := do
  let fields ← EvalExpr.feedAll text acc.fields row
  match acc.having with
  | some having => return { fields, having := some (← having.feed text row) }
  | none => return { fields, having := none }

/-- The `SELECT` list's values over the totals, and whether they pass the `HAVING`. -/
def onTotals (acc : Accumulators) (row : Row) : Except SchemaError (Row × Bool) := do
  let values ← EvalExpr.overAll text acc.fields row
  match acc.having with
  | some having => return (values, ← isTrue (← having.onTotals text row))
  | none => return (values, true)

/-- Evaluation on a row passes an aggregate by. -/
def passesBy (acc : Accumulators) (row : Row) : Bool :=
  EvalExpr.passesByAny text acc.fields row || acc.having.any (·.passesBy text row)

/-- What a group of some rows is to give: every aggregate is fed all of them, and the
expressions are evaluated once. -/
def totals (acc : Accumulators) (row : Row) (rest : List Row) :
    Except SchemaError (Row × Bool) := do
  let fed ← (row :: rest).foldlM (feed text) acc
  fed.onTotals text (rest.getLast?.getD row)

/-- The evaluation on each of the rows in turn, as `next_group` makes it. -/
def evalRows (acc : Accumulators) (row : Row) :
    List Row → Except SchemaError (Row × Bool × Accumulators)
  | [] => acc.evalRow text row
  | next :: rest => do
    let (_, _, acc') ← acc.evalRow text row
    evalRows acc' next rest

variable {text : Text}

variable {acc : Accumulators} {row : Row} {rest : List Row}

/-- A row's evaluation that passes no aggregate by feeds all of them. -/
theorem evalRow_ok_iff (h : acc.passesBy text row = false) (values : Row) (keep : Bool)
    (acc' : Accumulators) :
    acc.evalRow text row = .ok (values, keep, acc') ↔
      acc.feed text row = .ok acc' ∧ acc'.onTotals text row = .ok (values, keep) := by
  obtain ⟨fields, having⟩ := acc
  simp only [passesBy, Bool.or_eq_false_iff] at h
  simp only [evalRow, feed, bind_ok_iff, Prod.exists, EvalExpr.evalAll_ok_iff _ _ h.1]
  cases having with
  | none =>
    simp only [pure_ok_iff, Prod.mk.injEq]
    constructor
    · rintro ⟨vs, es, ⟨hes, hvs⟩, rfl, rfl, rfl⟩
      exact ⟨⟨es, hes, rfl⟩, by simp [onTotals, hvs]⟩
    · rintro ⟨⟨es, hes, rfl⟩, hover⟩
      obtain ⟨vs, hvs, hkeep⟩ := by simpa only [onTotals, bind_ok_iff, pure_ok_iff] using hover
      obtain ⟨rfl, rfl⟩ := Prod.mk.inj hkeep
      exact ⟨vs, es, ⟨hes, hvs⟩, rfl, rfl, rfl⟩
  | some e =>
    have he : e.passesBy text row = false := by simpa using h.2
    simp only [bind_ok_iff, pure_ok_iff, Prod.exists, Prod.mk.injEq,
      EvalExpr.eval_ok_iff e row he]
    constructor
    · rintro ⟨vs, es, ⟨hes, hvs⟩, v, e', ⟨hfed, hv⟩, k, hk, rfl, rfl, rfl⟩
      exact ⟨⟨es, hes, e', hfed, rfl⟩, by simp [onTotals, hvs, hv, hk]⟩
    · rintro ⟨⟨es, hes, e', hfed, rfl⟩, hover⟩
      obtain ⟨vs, hvs, v, hv, k, hk, hkeep⟩ := by
        simpa only [onTotals, bind_ok_iff, pure_ok_iff] using hover
      obtain ⟨rfl, rfl⟩ := Prod.mk.inj hkeep
      exact ⟨vs, es, ⟨hes, hvs⟩, v, e', ⟨hfed, hv⟩, k, hk, rfl, rfl, rfl⟩

/-- The values of a row's evaluation are those over the totals. -/
theorem evalRow_value_iff {acc' : Accumulators} (h : acc.feed text row = .ok acc') (values : Row)
    (keep : Bool) :
    (∃ s, acc.evalRow text row = .ok (values, keep, s)) ↔
      acc'.onTotals text row = .ok (values, keep) := by
  obtain ⟨fields, having⟩ := acc
  simp only [feed, bind_ok_iff] at h
  obtain ⟨es, hes, h⟩ := h
  cases having with
  | none =>
    obtain rfl := pure_ok_iff.mp h
    simp only [evalRow, onTotals, bind_ok_iff, pure_ok_iff, Prod.exists, Prod.mk.injEq,
      ← EvalExpr.evalAll_value_iff fields row hes]
    grind
  | some e =>
    simp only [bind_ok_iff, pure_ok_iff] at h
    obtain ⟨e', hfed, rfl⟩ := h
    simp only [evalRow, onTotals, bind_ok_iff, pure_ok_iff, Prod.exists, Prod.mk.injEq,
      ← EvalExpr.evalAll_value_iff fields row hes, ← EvalExpr.eval_value_iff e row hfed]
    grind

/-! ## The rows of a group -/

theorem totals_one (acc : Accumulators) (row : Row) :
    acc.totals text row [] = acc.feed text row >>= fun fed => fed.onTotals text row := by
  simp [totals]

theorem totals_cons (acc : Accumulators) (row next : Row) (rest : List Row) :
    acc.totals text row (next :: rest) =
      acc.feed text row >>= fun fed => fed.totals text next rest := by
  have hlast : (next :: rest).getLast?.getD row = rest.getLast?.getD next := by
    cases rest with
    | nil => rfl
    | cons r rs => simp [List.getLast?_cons]
  rw [totals, List.foldlM_cons, hlast, bind_assoc]
  rfl

/-- On no row does the evaluation pass an aggregate by, unless it is the last, which every
aggregate can be fed. -/
def ReachesAll (text : Text) (acc : Accumulators) (row : Row) (rest : List Row) : Prop :=
  ∀ before r after fed, row :: rest = before ++ r :: after →
    before.foldlM (feed text) acc = .ok fed → fed.passesBy text r = true →
    after = [] ∧ ∃ fed', fed.feed text r = .ok fed'

/-- The totals of every proper beginning of the rows evaluate. -/
def PartialsEvaluate (text : Text) (acc : Accumulators) (row : Row) (rest : List Row) : Prop :=
  ∀ k, k < rest.length → ∃ out, acc.totals text row (rest.take k) = .ok out

theorem reachesAll_cons {fed : Accumulators} {next : Row}
    (h : ReachesAll text acc row (next :: rest)) (hfed : acc.feed text row = .ok fed) :
    ReachesAll text fed next rest := by
  intro before r after fed' heq hrun
  apply h (row :: before) r after fed' (by rw [heq]; rfl)
  rw [List.foldlM_cons, hfed]
  exact hrun

theorem partialsEvaluate_cons {next : Row} :
    PartialsEvaluate text acc row (next :: rest) ↔
      ∃ fed, acc.feed text row = .ok fed ∧ (∃ out, fed.onTotals text row = .ok out) ∧
        PartialsEvaluate text fed next rest := by
  constructor
  · intro h
    obtain ⟨out, hout⟩ := h 0 (Nat.succ_pos _)
    rw [List.take_zero, totals_one, bind_ok_iff] at hout
    obtain ⟨fed, hfed, hover⟩ := hout
    refine ⟨fed, hfed, ⟨out, hover⟩, ?_⟩
    intro k hk
    obtain ⟨out', hout'⟩ := h (k + 1) (Nat.succ_lt_succ hk)
    rw [List.take_succ_cons, totals_cons, hfed] at hout'
    exact ⟨out', hout'⟩
  · rintro ⟨fed, hfed, ⟨out, hover⟩, h⟩ k hk
    cases k with
    | zero =>
      refine ⟨out, ?_⟩
      rw [List.take_zero, totals_one, hfed]
      exact hover
    | succ k =>
      obtain ⟨out', hout'⟩ := h k (Nat.lt_of_succ_lt_succ hk)
      refine ⟨out', ?_⟩
      rw [List.take_succ_cons, totals_cons, hfed]
      exact hout'

/-- The rows of a group give what their totals do, if the totals of every proper
beginning evaluate. -/
theorem evalRows_ok_iff (h : ReachesAll text acc row rest) (values : Row) (keep : Bool) :
    (∃ s, acc.evalRows text row rest = .ok (values, keep, s)) ↔
      acc.totals text row rest = .ok (values, keep) ∧ PartialsEvaluate text acc row rest := by
  induction rest generalizing acc row with
  | nil =>
    have hnone : PartialsEvaluate text acc row [] := fun k hk => absurd hk (Nat.not_lt_zero k)
    rw [totals_one]
    simp only [evalRows, hnone, and_true]
    cases hp : acc.passesBy text row with
    | true =>
      obtain ⟨-, fed, hfed⟩ := h [] row [] acc rfl rfl hp
      rw [evalRow_value_iff hfed, hfed]
      rfl
    | false => simp [evalRow_ok_iff hp]
  | cons next rest ih =>
    have hp : acc.passesBy text row = false := by
      by_contra hp
      obtain ⟨hnil, -⟩ := h [] row (next :: rest) acc rfl rfl (Bool.eq_true_of_not_eq_false hp)
      cases hnil
    rw [partialsEvaluate_cons, totals_cons]
    simp only [evalRows, bind_ok_iff, Prod.exists, evalRow_ok_iff hp]
    constructor
    · rintro ⟨s, vs, k, fed, ⟨hfed, hover⟩, hrun⟩
      obtain ⟨hout, hpart⟩ := (ih (reachesAll_cons h hfed)).mp ⟨s, hrun⟩
      exact ⟨⟨fed, hfed, hout⟩, fed, hfed, ⟨_, _, hover⟩, hpart⟩
    · rintro ⟨⟨fed, hfed, hout⟩, fed', hfed', ⟨vs, k, hover⟩, hpart⟩
      obtain rfl := Except.ok.inj (hfed.symm.trans hfed')
      obtain ⟨s, hrun⟩ := (ih (reachesAll_cons h hfed)).mpr ⟨hout, hpart⟩
      exact ⟨s, vs, k, fed, ⟨hfed, hover⟩, hrun⟩

end Accumulators

/-! ## One group of the source -/

namespace GroupSource

/-- The rows the source has yet to group. -/
def upcoming (s : GroupSource) : List Row := if s.pending then s.row :: s.rest else s.rest

/-- The rows begin with a group, and go on with no row of it. -/
structure Begins (s : GroupSource) (row : Row) (group behind : List Row) : Prop where
  upcoming : s.upcoming = row :: (group ++ behind)
  group : ∀ r ∈ group, inGroup s.keyPositions (keyOf s.keyPositions row) r = true
  behind : ∀ r, behind.head? = some r →
    inGroup s.keyPositions (keyOf s.keyPositions row) r = false

/-- The source once a group has ended. -/
def ended (s : GroupSource) : List Row → GroupSource
  | [] => { s with rest := [], done := true }
  | row :: rest => { s with rest, row, pending := true }

variable {text : Text}

/-- The loop of `next_group` feeds the rows of the group and stops behind them. -/
theorem feedGroup_eq (text : Text) (s : GroupSource) (key : Row) {group behind : List Row}
    (hgroup : ∀ r ∈ group, inGroup s.keyPositions key r = true)
    (hbehind : ∀ r, behind.head? = some r → inGroup s.keyPositions key r = false)
    (acc : Accumulators) (row : Row) :
    (do
        let (values, keep, acc') ← acc.evalRow text row
        feedGroup text { s with acc := acc' } key values keep (group ++ behind)) =
      (do
        let (values, keep, acc') ← acc.evalRows text row group
        return (values, keep, ended { s with acc := acc' } behind)) := by
  induction group generalizing acc row with
  | nil =>
    rw [Accumulators.evalRows, List.nil_append]
    congr 1
    funext ⟨values, keep, acc'⟩
    cases behind with
    | nil => rfl
    | cons r rest =>
      have hout : inGroup s.keyPositions key r = false := hbehind r rfl
      simp only [feedGroup, hout, Bool.false_eq_true, if_false]
      rfl
  | cons r group ih =>
    rw [Accumulators.evalRows, bind_assoc]
    congr 1
    funext ⟨values, keep, acc'⟩
    have hin : inGroup s.keyPositions key r = true := hgroup r List.mem_cons_self
    simp only [List.cons_append, feedGroup, hin, if_true]
    exact ih (fun x hx => hgroup x (List.mem_cons_of_mem r hx)) acc' r

/-- `next_group` makes a row of what the rows of the next group give. -/
theorem nextGroup_ok_iff {s : GroupSource} {row : Row} {group behind : List Row}
    (h : Begins s row group behind) (out : Option (Row × Bool)) :
    (∃ s', s.nextGroup text = .ok (out, s')) ↔
      ∃ values keep made, (∃ acc, s.acc.reset.evalRows text row group = .ok (values, keep, acc)) ∧
        newRow values = .ok made ∧ out = some (made, keep) := by
  have hstart : ∀ t : GroupSource, t.acc = s.acc → t.keyPositions = s.keyPositions →
      ((∃ s', nextGroup.start text t row (group ++ behind) = .ok (out, s')) ↔
        ∃ values keep made,
          (∃ acc, s.acc.reset.evalRows text row group = .ok (values, keep, acc)) ∧
            newRow values = .ok made ∧ out = some (made, keep)) := by
    intro t hacc hkeys
    have hfeed := feedGroup_eq text { t with started := true } (keyOf t.keyPositions row)
      (hkeys ▸ h.group) (hkeys ▸ h.behind) t.acc.reset row
    have hrun : nextGroup.start text t row (group ++ behind) =
        (do
          let (values, keep, acc) ← t.acc.reset.evalRows text row group
          return (some (← newRow values, keep),
            ended { t with started := true, acc } behind)) := by
      have hsplit : nextGroup.start text t row (group ++ behind) =
          (do
            let (values, keep, acc) ← t.acc.reset.evalRow text row
            feedGroup text { t with started := true, acc } (keyOf t.keyPositions row) values keep
              (group ++ behind)) >>=
            fun p => (do return (some (← newRow p.1, p.2.1), p.2.2)) := by
        rw [bind_assoc]
        rfl
      rw [hsplit, hfeed, bind_assoc]
      rfl
    rw [hrun, hacc]
    simp only [bind_ok_iff, pure_ok_iff, Prod.exists, Prod.mk.injEq]
    constructor
    · rintro ⟨s', values, keep, acc, hrows, made, hmade, rfl, -⟩
      exact ⟨values, keep, made, ⟨acc, hrows⟩, hmade, rfl⟩
    · rintro ⟨values, keep, made, ⟨acc, hrows⟩, hmade, rfl⟩
      exact ⟨_, values, keep, acc, hrows, made, hmade, rfl, rfl⟩
  have hup := h.upcoming
  unfold upcoming at hup
  unfold nextGroup
  cases hp : s.pending with
  | true =>
    rw [hp, if_pos rfl] at hup
    obtain ⟨hrow, hrest⟩ := List.cons.inj hup
    rw [hrow, hrest]
    exact hstart { s with pending := false, row, rest := group ++ behind } rfl rfl
  | false =>
    rw [hp, if_neg Bool.false_ne_true] at hup
    rw [hup]
    exact hstart { s with pending := false, row, rest := row :: (group ++ behind) } rfl rfl

end GroupSource

end SquealDb.Sql
