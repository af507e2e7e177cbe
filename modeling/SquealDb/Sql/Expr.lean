import SquealDb.Sql.Operators

/-!
# Expressions and the functions they call

`EvalExpr` of `plan/eval.rs` with the functions of `plan/funcs.rs` and the answered
subqueries of `plan/subquery.rs`.

Evaluating an expression on a row feeds the row to every aggregate the evaluation
reaches: an aggregate's accumulator is part of the expression, and `eval` returns the
expression as the row leaves it.  A failed evaluation ends the statement, so what it
leaves behind is not kept.  Positions are resolved when a query is planned and always
lie within the row.
-/

namespace SquealDb.Sql

open Codec Lib

/-- What the standard library makes of text: how it prints a double, and its two case
mappings. -/
structure Text where
  double : UInt64 → String
  toUppercase : String → String
  toLowercase : String → String

/-- Text of whole doubles and of ASCII letters. -/
def Text.plain : Text where
  double d := toString (Binary64.trunc d)
  toUppercase := String.toUpper
  toLowercase := String.toLower

/-- A string value: its capacity is its length. -/
def strValue (s : String) : ValueItem := .str s (UInt32.ofNat (asBytes s).length)

def display (text : Text) : ValueItem → String
  | .integer i => toString i.toInt
  | .double d => text.double d
  | .datetime t => toString t.toNat
  | .str s _ => s
  | .blob _ _ => "(blob)"
  | .boolean b => if b then "true" else "false"
  | .null => "(null)"

/-! ## Aggregates -/

/-- The accumulators of `Count`, `Avg`, `Sum`, `Min` and `Max`.  `Count` keeps the
values it has met only if it is `DISTINCT`; the total of a `Sum` is an integer until it
meets a double. -/
inductive Aggregate where
  | count (distinct : Bool) (values : List ValueItem) (count : Nat)
  | avg (sum : UInt64) (count : Nat)
  | sum (total : Int64 ⊕ UInt64) (any : Bool)
  | min (best : Option ValueItem)
  | max (best : Option ValueItem)
  deriving DecidableEq

namespace Aggregate

def reset : Aggregate → Aggregate
  | count distinct _ _ => count distinct [] 0
  | avg _ _ => avg (Binary64.ofInt 0) 0
  | sum _ _ => sum (.inl 0) false
  | min _ => min none
  | max _ => max none

def current : Aggregate → ValueItem
  | count distinct values n => .integer (Int64.ofNat (if distinct then values.length else n))
  | avg total n =>
    if n = 0 then .null else .double (Binary64.div total (Binary64.ofInt n))
  | sum total any =>
    if any then
      match total with
      | .inl i => .integer i
      | .inr d => .double d
    else .null
  | min best | max best => best.getD .null

/-- `HashSet::insert`. -/
def insertValue (values : List ValueItem) (v : ValueItem) : List ValueItem :=
  if values.any (·.eq v) then values else values ++ [v]

/-- Keeps the better of a value and the best so far. -/
def keepBest (better : Ordering) (best : Option ValueItem) (v : ValueItem) : Option ValueItem :=
  match v, best with
  | .null, _ => best
  | _, none => some v
  | _, some cur => if v.cmp cur = better then some v else best

/-- What `eval` does with the value of the argument on one row. -/
def feed : Aggregate → ValueItem → Except SchemaError Aggregate
  | count distinct values n, v =>
    if v = .null then .ok (count distinct values n)
    else if distinct then .ok (count distinct (insertValue values v) n)
    else .ok (count distinct values (n + 1))
  | avg total n, v =>
    match v with
    | .null => .ok (avg total n)
    | .integer i => .ok (avg (Binary64.add total (Binary64.ofInt i.toInt)) (n + 1))
    | .double d => .ok (avg (Binary64.add total d) (n + 1))
    | other => .error (.invalidOperationOnOperand "avg" "non-numeric operand " [other])
  | sum total any, v =>
    match v, total with
    | .null, _ => .ok (sum total any)
    | .integer i, .inl t =>
      match checkedAdd t i with
      | some t' => .ok (sum (.inl t') true)
      | none => operandErrorMsg "sum" "integer overflow"
    | .integer i, .inr t => .ok (sum (.inr (Binary64.add t (Binary64.ofInt i.toInt))) true)
    | .double d, .inl t => .ok (sum (.inr (Binary64.add (Binary64.ofInt t.toInt) d)) true)
    | .double d, .inr t => .ok (sum (.inr (Binary64.add t d)) true)
    | other, _ => .error (.invalidOperationOnOperand "sum" "non-numeric operand " [other])
  | min best, v => .ok (min (keepBest .lt best v))
  | max best, v => .ok (max (keepBest .gt best v))

end Aggregate

/-! ## Scalar functions -/

/-- The functions `scalar_fn!` makes. -/
inductive ScalarFn where
  | upper | lower | abs | isNull | isNotNull
  deriving DecidableEq

/-- The body of a function `scalar_fn!` makes, on its argument's value. -/
def ScalarFn.apply (text : Text) : ScalarFn → ValueItem → Except SchemaError ValueItem
  | .upper, .str s _ => .ok (strValue (text.toUppercase s))
  | .upper, .null => .ok .null
  | .upper, other => .error (.invalidOperationOnOperand "upper" "non-string operand " [other])
  | .lower, .str s _ => .ok (strValue (text.toLowercase s))
  | .lower, .null => .ok .null
  | .lower, other => .error (.invalidOperationOnOperand "lower" "non-string operand " [other])
  | .abs, .integer i =>
    (checkedAbs i).elim
      (.error (.invalidOperationOnOperand "abs" " (out of range)" [.integer i]))
      fun a => .ok (.integer a)
  | .abs, .double d => .ok (.double (Binary64.abs d))
  | .abs, .null => .ok .null
  | .abs, other => .error (.invalidOperationOnOperand "abs" "" [other])
  | .isNull, v => .ok (.boolean (v.eq .null))
  | .isNotNull, v => .ok (.boolean !(v.eq .null))

inductive ScalarKind where
  | coalesce
  | like (negated insensitive : Bool)
  | case (operand otherwise : Bool)
  deriving DecidableEq

/-- `like_matches`, on what is left of the text and the pattern; `star` is the pattern
after the last `%` and the text it was last tried at. -/
def likeFrom (text pattern : List Char) (star : Option (List Char × List Char)) : Nat → Bool
  | 0 => false
  | fuel + 1 =>
    match text, pattern with
    | [], rest => rest.all (· == '%')
    | t :: ts, p :: ps =>
      if p = '_' ∨ (p ≠ '%' ∧ p = t) then likeFrom ts ps star fuel
      else if p = '%' then likeFrom (t :: ts) ps (some (ps, t :: ts)) fuel
      else retry star fuel
    | _ :: _, [] => retry star fuel
where
  /-- Backtracks to the last `%`, which takes one character more. -/
  retry (star : Option (List Char × List Char)) (fuel : Nat) : Bool :=
    match star with
    | some (ps, _ :: ts) => likeFrom ts ps (some (ps, ts)) fuel
    | _ => false

/-- `like_matches`: `%` any run of characters, `_` one.  The pattern is gone through at
most once for each character the last `%` has taken. -/
def likeMatches (text pattern : String) : Bool :=
  likeFrom text.toList pattern.toList none ((text.length + 1) * (pattern.length + 1) + 1)

/-- The first `THEN` whose `WHEN` is true, or equals the operand where there is one. -/
def caseOf (subject : Option ValueItem) (otherwise : ValueItem) :
    List ValueItem → Except SchemaError ValueItem
  | w :: t :: rest => do
    let hit ← match subject with
      | some s => binary s w .eq
      | none => .ok w
    if hit = .boolean true then return t else caseOf subject otherwise rest
  | _ => .ok otherwise

/-- `Scalar::eval`, on its arguments' values. -/
def ScalarKind.apply (text : Text) : ScalarKind → List ValueItem → Except SchemaError ValueItem
  | .coalesce, values => .ok ((values.find? fun v => !(v.eq .null)).getD .null)
  | .like negated insensitive, values =>
    match values.getD 0 .null, values.getD 1 .null with
    | .null, _ | _, .null => .ok .null
    | .str t _, .str p _ =>
      let hit :=
        if insensitive then likeMatches (text.toLowercase t) (text.toLowercase p)
        else likeMatches t p
      .ok (.boolean (hit != negated))
    | t, p => .error (.invalidOperationOnOperand "like" ": LIKE compares strings" [t, p])
  | .case operand otherwise, values =>
    let subject := if operand then values.head? else none
    let rest := if operand then values.tail else values
    let elseValue := if otherwise then rest.getLast?.getD .null else .null
    caseOf subject elseValue (if otherwise then rest.dropLast else rest)

/-- What `Concat::eval` makes of its arguments' values. -/
def concatValues (text : Text) (values : List ValueItem) : ValueItem :=
  if values.any (· == .null) then .null else strValue (String.join (values.map (display text)))

/-! ## Subqueries -/

/-- `Kind` of a subquery. -/
inductive SubqueryKind where
  | exists | in | scalar
  deriving DecidableEq

/-- The rows of a subquery that share one correlation key. -/
structure SubqueryGroup where
  values : List ValueItem
  hasNull : Bool
  value : Option ValueItem
  deriving DecidableEq

/-- A subquery's answer, its rows grouped by correlation key; `hasLhs` says that it is
asked about a value, its first operand. -/
structure SubqueryData where
  kind : SubqueryKind
  hasLhs : Bool
  groups : List (List ValueItem × SubqueryGroup)
  deriving DecidableEq

/-- `normalize` of `plan/subquery.rs`. -/
def normalize (v : ValueItem) : ValueItem := (hashNormalized v).getD v

def SubqueryData.answer (s : SubqueryData) (operands : List ValueItem) : ValueItem :=
  let key := operands.drop (if s.hasLhs then 1 else 0)
  let group :=
    if key.any (· == .null) then none
    else (s.groups.find? fun g => IndexKey.eq g.1 (key.map normalize)).map (·.2)
  match s.kind, group with
  | .exists, g => .boolean g.isSome
  | .scalar, g => (g.bind (·.value)).getD .null
  | .in, none => .boolean false
  | .in, some g =>
    let v := if s.hasLhs then operands.headD .null else .null
    if v = .null then .null
    else if g.values.any (·.eq (normalize v)) then .boolean true
    else if g.hasNull then .null
    else .boolean false

/-! ## Expressions -/

/-- `EvalExpr`.  A call of an aggregate is its accumulator and its argument, `countAll`
where that is a wildcard. -/
inductive EvalExpr where
  | none
  | literal (v : ValueItem)
  | value (pos : Nat)
  | unary (op : UnaryOp) (field : EvalExpr)
  | binary (lhs : EvalExpr) (op : BinaryOp) (rhs : EvalExpr)
  | countAll (acc : Aggregate)
  | aggregate (acc : Aggregate) (arg : EvalExpr)
  | call (f : ScalarFn) (arg : EvalExpr)
  | concat (args : List EvalExpr)
  | scalar (kind : ScalarKind) (args : List EvalExpr)
  | subquery (data : SubqueryData) (operands : List EvalExpr)
  | param (i : Nat)

namespace EvalExpr

mutual

/-- `reset` on every function `get_funcs` finds: an aggregate is reset and its argument
is not looked into. -/
def reset : EvalExpr → EvalExpr
  | unary op e => unary op e.reset
  | binary l op r => binary l.reset op r.reset
  | countAll acc => countAll acc.reset
  | aggregate acc arg => aggregate acc.reset arg
  | call f arg => call f arg.reset
  | concat args => concat (resetAll args)
  | scalar kind args => scalar kind (resetAll args)
  | subquery data operands => subquery data (resetAll operands)
  | none => none
  | literal v => literal v
  | value pos => value pos
  | param i => param i

@[inherit_doc reset]
def resetAll : List EvalExpr → List EvalExpr
  | [] => []
  | e :: es => e.reset :: resetAll es

end

def unbound : SchemaError :=
  .internalSchemaError "a parameter slot was read before its value was bound"

variable (text : Text)

mutual

/-- `EvalExpr::eval`: the value on a row, and the expression with the row fed to the
aggregates the evaluation reached. -/
def eval : EvalExpr → List ValueItem → Except SchemaError (ValueItem × EvalExpr)
  | literal v, _ => .ok (v, literal v)
  | value pos, row => .ok (row.getD pos .null, value pos)
  | unary op e, row => do
    let (v, e') ← eval e row
    return (← Sql.unary v op, unary op e')
  | binary l op r, row => do
    let (a, l') ← eval l row
    let (b, r') ← eval r row
    return (← Sql.binary a b op, binary l' op r')
  | countAll acc, _ => do
    let acc' ← acc.feed (.integer 1)
    return (acc'.current, countAll acc')
  | aggregate acc arg, row => do
    let (v, arg') ← eval arg row
    let acc' ← acc.feed v
    return (acc'.current, aggregate acc' arg')
  | call f arg, row => do
    let (v, arg') ← eval arg row
    return (← f.apply text v, call f arg')
  | concat args, row => do
    let (out, args') ← evalConcat args row
    return (match out with | some s => strValue s | Option.none => .null, concat args')
  | scalar kind args, row => do
    let (values, args') ← evalAll args row
    return (← kind.apply text values, scalar kind args')
  | subquery data operands, row => do
    let (values, operands') ← evalAll operands row
    return (data.answer values, subquery data operands')
  | param _, _ => .error unbound
  | none, _ => .ok (.null, none)

/-- Every argument's value, in order. -/
def evalAll : List EvalExpr → List ValueItem →
    Except SchemaError (List ValueItem × List EvalExpr)
  | [], _ => .ok ([], [])
  | e :: es, row => do
    let (v, e') ← eval e row
    let (vs, es') ← evalAll es row
    return (v :: vs, e' :: es')

/-- The loop of `Concat::eval`: an argument that is `NULL` is the answer, and those
behind it are not evaluated. -/
def evalConcat : List EvalExpr → List ValueItem →
    Except SchemaError (Option String × List EvalExpr)
  | [], _ => .ok (some "", [])
  | e :: es, row => do
    let (v, e') ← eval e row
    if v = .null then return (Option.none, e' :: es)
    else
      let (out, es') ← evalConcat es row
      return (out.map (display text v ++ ·), e' :: es')

end

mutual

/-- `EvalExpr::eval_empty_group`: the value over the aggregates as they stand. -/
def evalEmptyGroup : EvalExpr → Except SchemaError ValueItem
  | literal v => .ok v
  | none => .ok .null
  | value _ =>
    .error (.internalSchemaError "a column reference outside any aggregate in an empty group")
  | param _ => .error unbound
  | unary op e => do Sql.unary (← evalEmptyGroup e) op
  | binary l op r => do
    let a ← evalEmptyGroup l
    let b ← evalEmptyGroup r
    Sql.binary a b op
  | countAll acc => .ok acc.current
  | aggregate acc _ => .ok acc.current
  | call f arg => do f.apply text (← evalEmptyGroup arg)
  | concat args => do
    let values ← emptyGroupAll args
    return concatValues text values
  | scalar kind args => do kind.apply text (← emptyGroupAll args)
  | subquery data operands => do return data.answer (← emptyGroupAll operands)

@[inherit_doc evalEmptyGroup]
def emptyGroupAll : List EvalExpr → Except SchemaError (List ValueItem)
  | [] => .ok []
  | e :: es => do
    let v ← evalEmptyGroup e
    let vs ← emptyGroupAll es
    return v :: vs

end

end EvalExpr

end SquealDb.Sql
