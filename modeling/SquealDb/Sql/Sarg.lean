import SquealDb.Sql.DataType
import SquealDb.Sql.Expr
import SquealDb.Sql.Rows
import SquealDb.Sql.SqlOrder

/-!
# What conditions allow a column

`plan/sarg.rs`: the values of a column that can satisfy a comparison with a constant,
an `OR` of equalities, or several such conditions.

Values are taken in the order of keys, `ValueItem`'s own.  `NULL` is the lowest value
and no comparison is true of it.
-/

namespace SquealDb.Sql

open Codec Lib

/-- `Bound` of the standard library. -/
inductive Bound (α : Type) where
  | included (a : α)
  | excluded (a : α)
  | unbounded
  deriving DecidableEq, Repr

structure ColumnRange where
  lower : Bound ValueItem
  upper : Bound ValueItem
  deriving DecidableEq, Repr

/-- `ColumnSet`: a set of points, or a range. -/
inductive ColumnSet where
  | points (values : List ValueItem)
  | range (r : ColumnRange)
  deriving DecidableEq, Repr

/-- `tighter`: the more restrictive of two bounds on one side; `wins` is the order of
the value that restricts more. -/
def tighter (a b : Bound ValueItem) (wins : Ordering) : Bound ValueItem :=
  let of (va vb : ValueItem) (excluded : Bool) : Bound ValueItem :=
    match va.cmp vb with
    | .eq => if excluded then a else b
    | o => if o = wins then a else b
  match a, b with
  | .unbounded, x | x, .unbounded => x
  | .included x, .included y | .included x, .excluded y => of x y false
  | .excluded x, .included y | .excluded x, .excluded y => of x y true

namespace ColumnRange

def equalValue (r : ColumnRange) : Option ValueItem :=
  match r.lower, r.upper with
  | .included a, .included b => if a.cmp b = .eq then some a else none
  | _, _ => none

def intersect (r s : ColumnRange) : ColumnRange where
  lower := tighter r.lower s.lower .gt
  upper := tighter r.upper s.upper .lt

/-- Both bounds are zeros, each included. -/
def zeroBounds (r : ColumnRange) : Bool :=
  match r.lower, r.upper with
  | .included (.double a), .included (.double b) =>
    Binary64.magnitudeBits a == 0 && Binary64.magnitudeBits b == 0
  | _, _ => false

def contains (r : ColumnRange) (v : ValueItem) : Bool :=
  let above := match r.lower with
    | .included lo => (v.cmp lo).isGE
    | .excluded lo => v.cmp lo == .gt
    | .unbounded => true
  let below := match r.upper with
    | .included hi => (v.cmp hi).isLE
    | .excluded hi => v.cmp hi == .lt
    | .unbounded => true
  above && below

/-- `is_empty`, of the range's bounds. -/
def isEmpty (r : ColumnRange) : Bool :=
  match r.lower, r.upper with
  | .included lo, .included hi => lo.cmp hi == .gt
  | .included lo, .excluded hi | .excluded lo, .included hi | .excluded lo, .excluded hi =>
    (lo.cmp hi).isGE
  | _, _ => false

end ColumnRange

namespace ColumnSet

/-- `points`: sorted, each once. -/
def ofPoints (values : List ValueItem) : ColumnSet :=
  .points ((values.mergeSort fun a b => (a.cmp b).isLE).foldr
    (fun v kept => match kept with
      | [] => [v]
      | w :: rest => if v.cmp w = .eq then v :: rest else v :: w :: rest) [])

def fromRange (r : ColumnRange) : ColumnSet :=
  match r.equalValue with
  | some v => .points [v]
  | none =>
    if r.zeroBounds then ofPoints [.double 0x8000000000000000, .double 0]
    else if r.isEmpty then .points []
    else .range r

def intersect : ColumnSet → ColumnSet → ColumnSet
  | .points a, .points b => .points (a.filter fun x => b.any fun y => x.cmp y == .eq)
  | .points p, .range r | .range r, .points p => .points (p.filter r.contains)
  | .range a, .range b => fromRange (a.intersect b)

/-- A value is one the set allows. -/
def Holds (set : ColumnSet) (v : ValueItem) : Prop :=
  match set with
  | .points values => ∃ w ∈ values, w.cmp v = .eq
  | .range r => r.contains v = true

end ColumnSet

/-! ## One comparison -/

def notNull : Bound ValueItem := .excluded .null

/-- `empty`. -/
def emptyRange : ColumnRange := { lower := notNull, upper := notNull }

/-- `plain_range`, for one of the operators `comparison` names. -/
def plainRange (op : BinaryOp) (v : ValueItem) : ColumnRange :=
  match op with
  | .lt => { lower := notNull, upper := .excluded v }
  | .ltEq => { lower := notNull, upper := .included v }
  | .gt => { lower := .excluded v, upper := .unbounded }
  | .gtEq => { lower := .included v, upper := .unbounded }
  | _ => { lower := .included v, upper := .included v }

/-- `integer_column_range`: the integers a comparison with a double allows. -/
def integerColumnRange (op : BinaryOp) (d : UInt64) : Option ColumnRange :=
  let int (n : Int) : ValueItem := .integer (Int64.ofInt n)
  let whole := Binary64.isFinite d && Binary64.fraction d == 0
  let above := decide (two63 ≤ Binary64.scaled d)
  let below := decide (Binary64.scaled d < -two63)
  let anyValue : ColumnRange := { lower := notNull, upper := .unbounded }
  if Binary64.isNan d then none
  else
    some <| match op with
      | .gt | .gtEq =>
        if above then emptyRange
        else if below then anyValue
        else if whole && op == .gt then plainRange .gt (int (Binary64.trunc d))
        else plainRange .gtEq (int (Binary64.ceil d))
      | .lt | .ltEq =>
        if below then emptyRange
        else if above then anyValue
        else if whole && op == .lt then plainRange .lt (int (Binary64.trunc d))
        else plainRange .ltEq (int (Binary64.floor d))
      | _ =>
        if whole && !above && !below then plainRange .eq (int (Binary64.trunc d))
        else emptyRange

/-- `double_column_range`: a bound at zero is widened to take in both zeros, or narrowed
to leave out both. -/
def doubleColumnRange (op : BinaryOp) (d : UInt64) : ColumnRange :=
  let r := plainRange op (.double d)
  if Binary64.magnitudeBits d = 0 then
    let neg : ValueItem := .double 0x8000000000000000
    let pos : ValueItem := .double 0
    { lower := match r.lower with
        | .included _ => .included neg
        | .excluded (.double _) => .excluded pos
        | other => other
      upper := match r.upper with
        | .included _ => .included pos
        | .excluded _ => .excluded neg
        | other => other }
  else r

/-- `condition_range`: the range a comparison allows in a column of a type, or `none`
where it cannot tell. -/
def conditionRange (datatype : DataType) (op : BinaryOp) (value : ValueItem) :
    Option ColumnRange :=
  if !comparison op then none
  else
    match datatype, value with
    | _, .null => some emptyRange
    | .integer, .integer _ | .str _, .str _ _ | .datetime, .datetime _ | .boolean, .boolean _ =>
      some (plainRange op value)
    | .integer, .double d => integerColumnRange op d
    | .double, .double d => if Binary64.isNan d then none else some (doubleColumnRange op d)
    | .double, .integer i =>
      if i.toInt.natAbs ≤ 2 ^ 53 then some (doubleColumnRange op (Binary64.ofInt i.toInt))
      else none
    | _, _ => none

/-- `equal_points`: the stored values equal to one value, or `none` where it cannot
tell. -/
def equalPoints (datatype : DataType) (value : ValueItem) : Option (List ValueItem) :=
  match (conditionRange datatype .eq value).map ColumnSet.fromRange with
  | some (.points p) => some p
  | _ => none

/-! ## Conditions of a `WHERE` -/

def orTerms : EvalExpr → List EvalExpr
  | .binary lhs .or rhs => orTerms lhs ++ orTerms rhs
  | other => [other]

/-- `constant`: a literal, or a negated numeric one. -/
def constant : EvalExpr → Option ValueItem
  | .literal v => some v
  | .unary .minus (.literal (.integer i)) => (checked (-i.toInt)).map .integer
  | .unary .minus (.literal (.double d)) => some (.double (Binary64.neg d))
  | _ => none

def flipped : BinaryOp → Option BinaryOp
  | .eq => some .eq
  | .lt => some .gt
  | .ltEq => some .gtEq
  | .gt => some .lt
  | .gtEq => some .ltEq
  | _ => none

/-- `column_comparison`: a comparison of a column with a constant, either way round. -/
def columnComparison : EvalExpr → Option (Nat × BinaryOp × ValueItem)
  | .binary lhs op rhs =>
    if !comparison op then none
    else
      match lhs, rhs with
      | .value c, other => (constant other).map (c, op, ·)
      | other, .value c => do
        let op' ← flipped op
        let v ← constant other
        return (c, op', v)
      | _, _ => none
  | _ => none

/-- The column and the points of the terms of an `OR` of equalities. -/
def equalTerms (types : List DataType) :
    List EvalExpr → Option Nat → Option (Option Nat × List ValueItem)
  | [], column => some (column, [])
  | t :: rest, column => do
    let (c, op, value) ← columnComparison t
    if op ≠ .eq ∨ column.any (· ≠ c) then none
    else
      let datatype ← types[c]?
      let range ← conditionRange datatype op value
      match ColumnSet.fromRange range with
      | .points p =>
        let (column', points) ← equalTerms types rest (some c)
        return (column', p ++ points)
      | .range _ => none

/-- `condition_set`: the column a conjunct limits, and to what. -/
def conditionSet (f : EvalExpr) (types : List DataType) : Option (Nat × ColumnSet) :=
  match orTerms f with
  | [single] => do
    let (column, op, value) ← columnComparison single
    let datatype ← types[column]?
    let range ← conditionRange datatype op value
    return (column, ColumnSet.fromRange range)
  | terms => do
    let (column, points) ← equalTerms types terms none
    return (← column, ColumnSet.ofPoints points)

/-- The set a column is limited to so far. -/
def columnSet (sets : List (Nat × ColumnSet)) (column : Nat) : Option ColumnSet :=
  (sets.find? (·.1 == column)).map (·.2)

/-- One turn of the loop of `column_sets`. -/
def addCondition (types : List DataType) (sets : List (Nat × ColumnSet)) (f : EvalExpr) :
    List (Nat × ColumnSet) :=
  match conditionSet f types with
  | none => sets
  | some (column, set) =>
    let merged := match columnSet sets column with
      | some existing => existing.intersect set
      | none => set
    (column, merged) :: sets.filter (·.1 != column)

/-- `column_sets`: every column the conditions limit, and to what. -/
def columnSets (filters : List EvalExpr) (types : List DataType) : List (Nat × ColumnSet) :=
  filters.foldl (addCondition types) []

end SquealDb.Sql
