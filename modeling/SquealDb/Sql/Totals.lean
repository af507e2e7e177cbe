import SquealDb.Lib.Fallible
import SquealDb.Sql.Expr
import SquealDb.Sql.Rows

/-!
# An expression over the totals of its aggregates

What a grouping promises of an expression: each aggregate is fed every row of the group,
and the expression is evaluated once, over the totals.  `eval` does both on every row, as
one walk over the expression.

The walk feeds every aggregate unless a `CONCAT` meets a `NULL`: it is answered then, and
the arguments behind the `NULL` are not reached.
-/

namespace SquealDb.Sql.EvalExpr

open Codec Lib

mutual

/-- An aggregate is somewhere in the expression. -/
def holdsAggregate : EvalExpr → Bool
  | unary _ e => holdsAggregate e
  | binary l _ r => holdsAggregate l || holdsAggregate r
  | countAll _ | aggregate _ _ => true
  | call _ arg => holdsAggregate arg
  | concat args | scalar _ args | subquery _ args => anyAggregate args
  | none | literal _ | value _ | param _ => false

@[inherit_doc holdsAggregate]
def anyAggregate : List EvalExpr → Bool
  | [] => false
  | e :: es => holdsAggregate e || anyAggregate es

end

variable (text : Text)

mutual

/-- Every aggregate is fed a row. -/
def feed : EvalExpr → Row → Except SchemaError EvalExpr
  | unary op e, row => do return unary op (← feed e row)
  | binary l op r, row => do return binary (← feed l row) op (← feed r row)
  | countAll acc, _ => do return countAll (← acc.feed (.integer 1))
  | aggregate acc arg, row => do
    let (v, arg') ← arg.eval text row
    return aggregate (← acc.feed v) arg'
  | call f arg, row => do return call f (← feed arg row)
  | concat args, row => do return concat (← feedAll args row)
  | scalar kind args, row => do return scalar kind (← feedAll args row)
  | subquery data operands, row => do return subquery data (← feedAll operands row)
  | none, _ => .ok none
  | literal v, _ => .ok (literal v)
  | value pos, _ => .ok (value pos)
  | param i, _ => .ok (param i)

@[inherit_doc feed]
def feedAll : List EvalExpr → Row → Except SchemaError (List EvalExpr)
  | [], _ => .ok []
  | e :: es, row => do return (← feed e row) :: (← feedAll es row)

end

mutual

/-- The value over the aggregates' totals, the columns those of a row. -/
def onTotals : EvalExpr → Row → Except SchemaError ValueItem
  | literal v, _ => .ok v
  | value pos, row => .ok (row.at pos)
  | unary op e, row => do Sql.unary (← onTotals e row) op
  | binary l op r, row => do
    let a ← onTotals l row
    let b ← onTotals r row
    Sql.binary a b op
  | countAll acc, _ => .ok acc.current
  | aggregate acc _, _ => .ok acc.current
  | call f arg, row => do f.apply text (← onTotals arg row)
  | concat args, row => do
    match ← overConcat args row with
    | some s => return strValue s
    | Option.none => return .null
  | scalar kind args, row => do kind.apply text (← overAll args row)
  | subquery data operands, row => do return data.answer (← overAll operands row)
  | param _, _ => .error unbound
  | none, _ => .ok .null

@[inherit_doc onTotals]
def overAll : List EvalExpr → Row → Except SchemaError (List ValueItem)
  | [], _ => .ok []
  | e :: es, row => do return (← onTotals e row) :: (← overAll es row)

/-- The text of a `CONCAT`, none where an argument is `NULL`. -/
def overConcat : List EvalExpr → Row → Except SchemaError (Option String)
  | [], _ => .ok (some "")
  | e :: es, row => do
    let v ← onTotals e row
    if v = .null then return Option.none
    else return (← overConcat es row).map (display text v ++ ·)

end

mutual

/-- Evaluation on a row passes an aggregate by: it stands behind an argument of a
`CONCAT` that is `NULL` as of the row. -/
def passesBy : EvalExpr → Row → Bool
  | unary _ e, row => passesBy e row
  | binary l _ r, row => passesBy l row || passesBy r row
  | call _ arg, row => passesBy arg row
  | concat args, row => passesByConcat args row
  | scalar _ args, row | subquery _ args, row => passesByAny args row
  | countAll _, _ | aggregate _ _, _ | none, _ | literal _, _ | value _, _ | param _, _ => false

@[inherit_doc passesBy]
def passesByAny : List EvalExpr → Row → Bool
  | [], _ => false
  | e :: es, row => passesBy e row || passesByAny es row

@[inherit_doc passesBy]
def passesByConcat : List EvalExpr → Row → Bool
  | [], _ => false
  | e :: es, row =>
    passesBy e row ||
      match (do (← feed text e row).onTotals text row) with
      | .ok .null => anyAggregate es
      | _ => passesByConcat es row

end

/-! ## One row -/

variable {text : Text}

mutual

/-- Where there is no aggregate there is nothing to feed. -/
theorem feed_of_no_aggregate (e : EvalExpr) (row : Row) (h : holdsAggregate e = false) :
    feed text e row = .ok e := by
  cases e with
  | unary op e =>
    simp only [feed, feed_of_no_aggregate e row h]
    rfl
  | binary l op r =>
    simp only [holdsAggregate, Bool.or_eq_false_iff] at h
    simp only [feed, feed_of_no_aggregate l row h.1, feed_of_no_aggregate r row h.2]
    rfl
  | countAll acc => cases h
  | aggregate acc arg => cases h
  | call f arg =>
    simp only [feed, feed_of_no_aggregate arg row h]
    rfl
  | concat args =>
    simp only [feed, feedAll_of_no_aggregate args row h]
    rfl
  | scalar kind args =>
    simp only [feed, feedAll_of_no_aggregate args row h]
    rfl
  | subquery data operands =>
    simp only [feed, feedAll_of_no_aggregate operands row h]
    rfl
  | none => rfl
  | literal v => rfl
  | value pos => rfl
  | param i => rfl

@[inherit_doc feed_of_no_aggregate]
theorem feedAll_of_no_aggregate (es : List EvalExpr) (row : Row) (h : anyAggregate es = false) :
    feedAll text es row = .ok es := by
  cases es with
  | nil => rfl
  | cons e es =>
    simp only [anyAggregate, Bool.or_eq_false_iff] at h
    simp only [feedAll, feed_of_no_aggregate e row h.1, feedAll_of_no_aggregate es row h.2]
    rfl

end

mutual

/-- The value of a row's evaluation is the one over the aggregates fed the row. -/
theorem eval_value_iff (e : EvalExpr) (row : Row) {e' : EvalExpr} (h : feed text e row = .ok e')
    (v : ValueItem) : (∃ s, eval text e row = .ok (v, s)) ↔ onTotals text e' row = .ok v := by
  cases e with
  | unary op e =>
    simp only [feed, bind_ok_iff, pure_ok_iff] at h
    obtain ⟨e₁, he, rfl⟩ := h
    simp only [eval, onTotals, bind_ok_iff, pure_ok_iff, Prod.mk.injEq, Prod.exists,
      ← eval_value_iff e row he]
    grind
  | binary l op r =>
    simp only [feed, bind_ok_iff, pure_ok_iff] at h
    obtain ⟨l₁, hl, r₁, hr, rfl⟩ := h
    simp only [eval, onTotals, bind_ok_iff, pure_ok_iff, Prod.mk.injEq, Prod.exists,
      ← eval_value_iff l row hl, ← eval_value_iff r row hr]
    grind
  | countAll acc =>
    simp only [feed, bind_ok_iff, pure_ok_iff] at h
    obtain ⟨acc', hacc, rfl⟩ := h
    simp [eval, onTotals, hacc]
  | aggregate acc arg =>
    simp only [feed, bind_ok_iff, pure_ok_iff, Prod.exists] at h
    obtain ⟨a, arg', harg, acc', hacc, rfl⟩ := h
    simp [eval, onTotals, harg, hacc]
  | call f arg =>
    simp only [feed, bind_ok_iff, pure_ok_iff] at h
    obtain ⟨e₁, he, rfl⟩ := h
    simp only [eval, onTotals, bind_ok_iff, pure_ok_iff, Prod.mk.injEq, Prod.exists,
      ← eval_value_iff arg row he]
    grind
  | concat args =>
    simp only [feed, bind_ok_iff, pure_ok_iff] at h
    obtain ⟨es, hes, rfl⟩ := h
    simp only [eval, onTotals, bind_ok_iff, pure_ok_iff, Prod.mk.injEq, Prod.exists,
      ← evalConcat_value_iff args row hes]
    constructor
    · rintro ⟨s, out, args', hout, rfl, rfl⟩
      refine ⟨out, ⟨args', hout⟩, ?_⟩
      cases out <;> rfl
    · rintro ⟨out, ⟨args', hout⟩, hv⟩
      refine ⟨_, out, args', hout, ?_, rfl⟩
      cases out <;> exact Except.ok.inj hv
  | scalar kind args =>
    simp only [feed, bind_ok_iff, pure_ok_iff] at h
    obtain ⟨es, hes, rfl⟩ := h
    simp only [eval, onTotals, bind_ok_iff, pure_ok_iff, Prod.mk.injEq, Prod.exists,
      ← evalAll_value_iff args row hes]
    grind
  | subquery data operands =>
    simp only [feed, bind_ok_iff, pure_ok_iff] at h
    obtain ⟨es, hes, rfl⟩ := h
    simp only [eval, onTotals, bind_ok_iff, pure_ok_iff, Prod.mk.injEq, Prod.exists,
      ← evalAll_value_iff operands row hes]
    grind
  | none | literal v | value pos | param i =>
    cases h
    simp [eval, onTotals, Row.at]

@[inherit_doc eval_value_iff]
theorem evalAll_value_iff (es : List EvalExpr) (row : Row) {es' : List EvalExpr}
    (h : feedAll text es row = .ok es') (vs : List ValueItem) :
    (∃ s, evalAll text es row = .ok (vs, s)) ↔ overAll text es' row = .ok vs := by
  cases es with
  | nil =>
    cases h
    simp [evalAll, overAll]
  | cons e es =>
    simp only [feedAll, bind_ok_iff, pure_ok_iff] at h
    obtain ⟨e₁, he, es₁, hes, rfl⟩ := h
    simp only [evalAll, overAll, bind_ok_iff, pure_ok_iff, Prod.mk.injEq, Prod.exists,
      ← eval_value_iff e row he, ← evalAll_value_iff es row hes]
    grind

@[inherit_doc eval_value_iff]
theorem evalConcat_value_iff (es : List EvalExpr) (row : Row) {es' : List EvalExpr}
    (h : feedAll text es row = .ok es') (out : Option String) :
    (∃ s, evalConcat text es row = .ok (out, s)) ↔ overConcat text es' row = .ok out := by
  cases es with
  | nil =>
    cases h
    simp [evalConcat, overConcat]
  | cons e es =>
    simp only [feedAll, bind_ok_iff, pure_ok_iff] at h
    obtain ⟨e₁, he, es₁, hes, rfl⟩ := h
    simp only [evalConcat, overConcat, bind_ok_iff, Prod.exists,
      ← eval_value_iff e row he]
    constructor
    · rintro ⟨s, v, e₂, hv, hout⟩
      refine ⟨v, ⟨e₂, hv⟩, ?_⟩
      by_cases hnull : v = .null
      · simp only [hnull, if_true, pure_ok_iff, Prod.mk.injEq] at hout ⊢
        exact hout.1
      · simp only [hnull, if_false, bind_ok_iff, pure_ok_iff, Prod.exists, Prod.mk.injEq]
          at hout ⊢
        obtain ⟨o, s', ho, rfl, -⟩ := hout
        exact ⟨o, (evalConcat_value_iff es row hes o).mp ⟨s', ho⟩, rfl⟩
    · rintro ⟨v, ⟨e₂, hv⟩, hout⟩
      by_cases hnull : v = .null
      · simp only [hnull, if_true, pure_ok_iff] at hout
        refine ⟨e₂ :: es, v, e₂, hv, ?_⟩
        simp [hnull, hout]
      · simp only [hnull, if_false, bind_ok_iff, pure_ok_iff] at hout
        obtain ⟨o, ho, rfl⟩ := hout
        obtain ⟨s', hs'⟩ := (evalConcat_value_iff es row hes o).mpr ho
        refine ⟨e₂ :: s', v, e₂, hv, ?_⟩
        simp [hnull, hs']

end

mutual

/-- Where a row's evaluation passes no aggregate by, it feeds them all. -/
theorem eval_ok_iff (e : EvalExpr) (row : Row) (h : passesBy text e row = false) (v : ValueItem)
    (e' : EvalExpr) :
    eval text e row = .ok (v, e') ↔ feed text e row = .ok e' ∧ onTotals text e' row = .ok v := by
  cases e with
  | unary op e =>
    simp only [eval, feed, bind_ok_iff, pure_ok_iff, Prod.mk.injEq, Prod.exists,
      eval_ok_iff e row h]
    constructor
    · rintro ⟨a, e₁, ⟨he, ha⟩, w, hw, rfl, rfl⟩
      exact ⟨⟨e₁, he, rfl⟩, by simp [onTotals, ha, hw]⟩
    · rintro ⟨⟨e₁, he, rfl⟩, hv⟩
      obtain ⟨a, ha, hv⟩ := by simpa only [onTotals, bind_ok_iff] using hv
      exact ⟨a, e₁, ⟨he, ha⟩, v, hv, rfl, rfl⟩
  | binary l op r =>
    simp only [passesBy, Bool.or_eq_false_iff] at h
    simp only [eval, feed, bind_ok_iff, pure_ok_iff, Prod.mk.injEq, Prod.exists,
      eval_ok_iff l row h.1, eval_ok_iff r row h.2]
    constructor
    · rintro ⟨a, l₁, ⟨hl, ha⟩, b, r₁, ⟨hr, hb⟩, w, hw, rfl, rfl⟩
      exact ⟨⟨l₁, hl, r₁, hr, rfl⟩, by simp [onTotals, ha, hb, hw]⟩
    · rintro ⟨⟨l₁, hl, r₁, hr, rfl⟩, hv⟩
      obtain ⟨a, ha, b, hb, hv⟩ := by simpa only [onTotals, bind_ok_iff] using hv
      exact ⟨a, l₁, ⟨hl, ha⟩, b, r₁, ⟨hr, hb⟩, v, hv, rfl, rfl⟩
  | countAll acc =>
    simp only [eval, feed, bind_ok_iff, pure_ok_iff, Prod.mk.injEq]
    constructor
    · rintro ⟨acc', hacc, rfl, rfl⟩
      exact ⟨⟨acc', hacc, rfl⟩, rfl⟩
    · rintro ⟨⟨acc', hacc, rfl⟩, hv⟩
      exact ⟨acc', hacc, Except.ok.inj hv, rfl⟩
  | aggregate acc arg =>
    simp only [eval, feed, bind_ok_iff, pure_ok_iff, Prod.mk.injEq, Prod.exists]
    constructor
    · rintro ⟨a, arg', harg, acc', hacc, rfl, rfl⟩
      exact ⟨⟨a, arg', harg, acc', hacc, rfl⟩, rfl⟩
    · rintro ⟨⟨a, arg', harg, acc', hacc, rfl⟩, hv⟩
      exact ⟨a, arg', harg, acc', hacc, Except.ok.inj hv, rfl⟩
  | call f arg =>
    simp only [eval, feed, bind_ok_iff, pure_ok_iff, Prod.mk.injEq, Prod.exists,
      eval_ok_iff arg row h]
    constructor
    · rintro ⟨a, e₁, ⟨he, ha⟩, w, hw, rfl, rfl⟩
      exact ⟨⟨e₁, he, rfl⟩, by simp [onTotals, ha, hw]⟩
    · rintro ⟨⟨e₁, he, rfl⟩, hv⟩
      obtain ⟨a, ha, hv⟩ := by simpa only [onTotals, bind_ok_iff] using hv
      exact ⟨a, e₁, ⟨he, ha⟩, v, hv, rfl, rfl⟩
  | concat args =>
    simp only [eval, feed, bind_ok_iff, pure_ok_iff, Prod.mk.injEq, Prod.exists,
      evalConcat_ok_iff args row h]
    constructor
    · rintro ⟨out, es, ⟨hes, hout⟩, rfl, rfl⟩
      refine ⟨⟨es, hes, rfl⟩, ?_⟩
      cases out <;> simp [onTotals, hout]
    · rintro ⟨⟨es, hes, rfl⟩, hv⟩
      obtain ⟨out, hout, hv⟩ := by simpa only [onTotals, bind_ok_iff] using hv
      refine ⟨out, es, ⟨hes, hout⟩, ?_, rfl⟩
      cases out <;> exact Except.ok.inj hv
  | scalar kind args =>
    simp only [eval, feed, bind_ok_iff, pure_ok_iff, Prod.mk.injEq, Prod.exists,
      evalAll_ok_iff args row h]
    constructor
    · rintro ⟨vs, es, ⟨hes, hvs⟩, w, hw, rfl, rfl⟩
      exact ⟨⟨es, hes, rfl⟩, by simp [onTotals, hvs, hw]⟩
    · rintro ⟨⟨es, hes, rfl⟩, hv⟩
      obtain ⟨vs, hvs, hv⟩ := by simpa only [onTotals, bind_ok_iff] using hv
      exact ⟨vs, es, ⟨hes, hvs⟩, v, hv, rfl, rfl⟩
  | subquery data operands =>
    simp only [eval, feed, bind_ok_iff, pure_ok_iff, Prod.mk.injEq, Prod.exists,
      evalAll_ok_iff operands row h]
    constructor
    · rintro ⟨vs, es, ⟨hes, hvs⟩, rfl, rfl⟩
      exact ⟨⟨es, hes, rfl⟩, by simp [onTotals, hvs]⟩
    · rintro ⟨⟨es, hes, rfl⟩, hv⟩
      obtain ⟨vs, hvs, hv⟩ := by simpa only [onTotals, bind_ok_iff] using hv
      exact ⟨vs, es, ⟨hes, hvs⟩, Except.ok.inj hv, rfl⟩
  | none | literal w | value pos =>
    simp only [eval, feed, Except.ok.injEq, Prod.mk.injEq]
    constructor
    · rintro ⟨rfl, rfl⟩
      exact ⟨rfl, rfl⟩
    · rintro ⟨rfl, hv⟩
      exact ⟨Except.ok.inj hv, rfl⟩
  | param i =>
    simp only [eval, feed, Except.ok.injEq, reduceCtorEq, false_iff]
    rintro ⟨rfl, hv⟩
    cases hv

@[inherit_doc eval_ok_iff]
theorem evalAll_ok_iff (es : List EvalExpr) (row : Row) (h : passesByAny text es row = false)
    (vs : List ValueItem) (es' : List EvalExpr) :
    evalAll text es row = .ok (vs, es') ↔
      feedAll text es row = .ok es' ∧ overAll text es' row = .ok vs := by
  cases es with
  | nil =>
    simp only [evalAll, feedAll, Except.ok.injEq, Prod.mk.injEq]
    constructor
    · rintro ⟨rfl, rfl⟩
      exact ⟨rfl, rfl⟩
    · rintro ⟨rfl, hv⟩
      exact ⟨Except.ok.inj hv, rfl⟩
  | cons e es =>
    simp only [passesByAny, Bool.or_eq_false_iff] at h
    simp only [evalAll, feedAll, bind_ok_iff, pure_ok_iff, Prod.mk.injEq, Prod.exists,
      eval_ok_iff e row h.1, evalAll_ok_iff es row h.2]
    constructor
    · rintro ⟨v, e₁, ⟨he, hv⟩, ws, es₁, ⟨hes, hws⟩, rfl, rfl⟩
      exact ⟨⟨e₁, he, es₁, hes, rfl⟩, by simp [overAll, hv, hws]⟩
    · rintro ⟨⟨e₁, he, es₁, hes, rfl⟩, hvs⟩
      obtain ⟨v, hv, ws, hws, rfl⟩ := by
        simpa only [overAll, bind_ok_iff, pure_ok_iff] using hvs
      exact ⟨v, e₁, ⟨he, hv⟩, ws, es₁, ⟨hes, hws⟩, rfl, rfl⟩

@[inherit_doc eval_ok_iff]
theorem evalConcat_ok_iff (es : List EvalExpr) (row : Row)
    (h : passesByConcat text es row = false) (out : Option String) (es' : List EvalExpr) :
    evalConcat text es row = .ok (out, es') ↔
      feedAll text es row = .ok es' ∧ overConcat text es' row = .ok out := by
  cases es with
  | nil =>
    simp only [evalConcat, feedAll, Except.ok.injEq, Prod.mk.injEq]
    constructor
    · rintro ⟨rfl, rfl⟩
      exact ⟨rfl, rfl⟩
    · rintro ⟨rfl, hv⟩
      exact ⟨Except.ok.inj hv, rfl⟩
  | cons e es =>
    simp only [passesByConcat, Bool.or_eq_false_iff] at h
    obtain ⟨hhead, hrest⟩ := h
    -- a `NULL` has no aggregate behind it; behind any other value the arguments are fed
    have hnull : ∀ e₁, feed text e row = .ok e₁ → onTotals text e₁ row = .ok .null →
        feedAll text es row = .ok es := by
      intro e₁ he hv
      simp only [he, Bind.bind, Except.bind, hv] at hrest
      exact feedAll_of_no_aggregate es row hrest
    have hbehind : ∀ e₁ v, feed text e row = .ok e₁ → onTotals text e₁ row = .ok v → v ≠ .null →
        passesByConcat text es row = false := by
      intro e₁ v he hv hne
      simp only [he, Bind.bind, Except.bind, hv] at hrest
      cases v with
      | null => exact absurd rfl hne
      | integer i | double d | datetime t | str s cap | blob s cap | boolean b => exact hrest
    simp only [evalConcat, feedAll, bind_ok_iff, pure_ok_iff, Prod.exists,
      eval_ok_iff e row hhead]
    constructor
    · rintro ⟨v, e₁, ⟨he, hv⟩, hout⟩
      by_cases hn : v = .null
      · simp only [hn, if_true, pure_ok_iff, Prod.mk.injEq] at hout
        obtain ⟨rfl, rfl⟩ := hout
        rw [hn] at hv
        exact ⟨⟨e₁, he, es, hnull e₁ he hv, rfl⟩, by simp [overConcat, hv]⟩
      · simp only [hn, if_false, bind_ok_iff, pure_ok_iff, Prod.exists, Prod.mk.injEq] at hout
        obtain ⟨o, es₁, ho, rfl, rfl⟩ := hout
        obtain ⟨hes, ho⟩ := (evalConcat_ok_iff es row (hbehind e₁ v he hv hn) o es₁).mp ho
        exact ⟨⟨e₁, he, es₁, hes, rfl⟩, by simp [overConcat, hv, hn, ho]⟩
    · rintro ⟨⟨e₁, he, es₁, hes, rfl⟩, hover⟩
      obtain ⟨v, hv, hout⟩ := by simpa only [overConcat, bind_ok_iff] using hover
      clear hover
      refine ⟨v, e₁, ⟨he, hv⟩, ?_⟩
      by_cases hn : v = .null
      · simp only [hn, if_true, pure_ok_iff] at hout
        rw [hn] at hv
        obtain rfl := Except.ok.inj ((hnull e₁ he hv).symm.trans hes)
        subst hout
        simp [hn]
      · simp only [hn, if_false, bind_ok_iff, pure_ok_iff] at hout
        obtain ⟨o, ho, rfl⟩ := hout
        have hs := (evalConcat_ok_iff es row (hbehind e₁ v he hv hn) o es₁).mpr ⟨hes, ho⟩
        simp [hn, hs]

end

end SquealDb.Sql.EvalExpr
