import SquealDb.Sql.Expr
import SquealDb.Sql.Rows

/-!
# Grouping

`GroupSource` of `source/group.rs` and `HashGroupSource` of `source/hashgroup.rs`, over
an input that yields a list of rows.

`GroupSource` reads rows sorted by the grouping key and finds where a group ends when
it meets the first row of the next, which it keeps for that.  `HashGroupSource` keeps a
group for each key in a map, charged against the query's memory, and gives up where
that runs out.  A map finds an entry by `==` of its key: equal values hash alike.
-/

namespace SquealDb.Sql

open Codec Lib

def inGroup (keyPositions : List Nat) (key row : Row) : Bool :=
  (keyPositions.zip key).all fun p => (row.at p.1).eq p.2

/-- `is_true` of a `HAVING`. -/
def isTrue : ValueItem → Except SchemaError Bool
  | .boolean b => .ok b
  | .null => .ok false
  | _ => .error (.internalSchemaError "Output of having is not boolean.")

/-- The rows an output row is made of are validated. -/
def newRow (values : Row) : Except SchemaError Row :=
  match IndexKey.newFromOwned values with
  | .ok row => .ok row
  | .error e => .error (.ofStore e)

/-- The `SELECT` list and the `HAVING` of a grouping, with their accumulators. -/
structure Accumulators where
  fields : List EvalExpr
  having : Option EvalExpr

namespace Accumulators

variable (text : Text)

/-- `reset_aggregates`. -/
def reset (acc : Accumulators) : Accumulators where
  fields := EvalExpr.resetAll acc.fields
  having := acc.having.map EvalExpr.reset

/-- `eval_row`: the `SELECT` list's values on a row, and whether the group passes the
`HAVING` as of this row. -/
def evalRow (acc : Accumulators) (row : Row) :
    Except SchemaError (Row × Bool × Accumulators) := do
  let (values, fields) ← EvalExpr.evalAll text acc.fields row
  match acc.having with
  | some having =>
    let (v, having') ← having.eval text row
    return (values, ← isTrue v, { fields, having := some having' })
  | none => return (values, true, { fields, having := none })

end Accumulators

/-! ## Over sorted rows -/

/-- `GroupSource`: `rest` is what its input has yet to yield, `row` the row the input is
on. -/
structure GroupSource where
  rows : List Row
  rest : List Row
  row : Row
  acc : Accumulators
  keyPositions : List Nat
  pending : Bool
  started : Bool
  done : Bool

namespace GroupSource

variable (text : Text)

/-- `GroupSource::new`, over a source of some rows. -/
def new (rows : List Row) (acc : Accumulators) (keyPositions : List Nat) : GroupSource where
  rows := rows
  rest := rows
  row := []
  acc := acc
  keyPositions := keyPositions
  pending := false
  started := false
  done := false

/-- The key of a row. -/
def keyOf (keyPositions : List Nat) (row : Row) : Row := keyPositions.map row.at

/-- The loop of `next_group`: feeds the rows of one group, and leaves the source on the
first row behind it. -/
def feedGroup (s : GroupSource) (key : Row) (values : Row) (keep : Bool) :
    List Row → Except SchemaError (Row × Bool × GroupSource)
  | [] => .ok (values, keep, { s with rest := [], done := true })
  | row :: rest =>
    if inGroup s.keyPositions key row then do
      let (values', keep', acc) ← s.acc.evalRow text row
      feedGroup { s with acc } key values' keep' rest
    else .ok (values, keep, { s with rest, row, pending := true })

def emptyGroupRow (s : GroupSource) : Except SchemaError (Option Row) := do
  let out ← EvalExpr.emptyGroupAll text s.acc.fields
  let keep ← match s.acc.having with
    | some having => do isTrue (← having.evalEmptyGroup text)
    | none => .ok true
  if keep then return some (← newRow out) else return none

/-- `next_group`: the next group's output row and whether it passes the `HAVING`. -/
def nextGroup (s : GroupSource) : Except SchemaError (Option (Row × Bool) × GroupSource) :=
  match s.pending, s.rest with
  | true, rest => start { s with pending := false } s.row rest
  | false, row :: rest => start { s with row } row rest
  | false, [] =>
    if !s.started && s.keyPositions.isEmpty then do
      let s := { s with done := true, acc := s.acc.reset }
      return ((← s.emptyGroupRow text).map (·, true), s)
    else .ok (none, { s with done := true })
where
  /-- Starts a group with the row the source is on. -/
  start (s : GroupSource) (row : Row) (rest : List Row) :
      Except SchemaError (Option (Row × Bool) × GroupSource) := do
    let (values, keep, acc) ← s.acc.reset.evalRow text row
    let (values, keep, s') ←
      feedGroup text { s with acc, started := true } (keyOf s.keyPositions row) values keep rest
    return (some (← newRow values, keep), s')

end GroupSource

/-! ## By hashing -/

/-- `QueryMemory`: what is reserved, and what may be. -/
structure QueryMemory where
  used : Nat
  limit : Nat

def QueryMemory.tryReserve (mem : QueryMemory) (bytes : Nat) : Option QueryMemory :=
  if mem.used + bytes ≤ mem.limit then some { mem with used := mem.used + bytes } else none

/-- `Group`. -/
structure HashGroup where
  key : Row
  acc : Accumulators
  values : Row
  keep : Bool

namespace HashGroup

/-- The group of a key in the map, and the groups before and behind it. -/
def find (key : Row) : List HashGroup → Option (List HashGroup × HashGroup × List HashGroup)
  | [] => none
  | g :: gs =>
    if IndexKey.eq g.key key then some ([], g, gs)
    else (find key gs).map fun (before, h, behind) => (g :: before, h, behind)

end HashGroup

end SquealDb.Sql
