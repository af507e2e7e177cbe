import SquealDb.Sql.Allowed
import SquealDb.Sql.Equality

/-!
# Partitions

`partition.rs`, `AppendSource::keep_matching` of `source/append.rs` and
`NestedLoopJoin::parts_for` of `source/nestloop.rs`: which partition a row is stored in,
and which ones a read leaves unread.

A row goes by the order of keys, a filter by that of SQL and a join value may come in
another numeric type; a partition is left unread only by points and ranges in the order
of keys.  A value no points can be told of must keep every partition: the joins keep
none for it.
-/

namespace SquealDb.Sql

open Codec Lib

inductive PartitionKind where
  | range | list
  deriving DecidableEq, Repr

inductive PartitionBound where
  | all
  | lessThan (v : ValueItem)
  | maxValue
  | in (values : List ValueItem)
  | default
  deriving DecidableEq, Repr

/-- `Partition`, without its storage. -/
structure Partition where
  name : String
  bound : PartitionBound
  deriving DecidableEq, Repr

structure Partitioning where
  kind : PartitionKind
  fieldId : UInt32
  deriving DecidableEq, Repr

namespace Partitioning

/-- One `RANGE` bound is above the other. -/
def increasing : PartitionBound → PartitionBound → Bool
  | .lessThan a, .lessThan b => a.cmp b == .lt
  | .lessThan _, .maxValue => true
  | _, _ => false

/-- `check` of a `RANGE` table's bounds. -/
def checkRange : List Partition → Except String Unit
  | p :: q :: rest =>
    if increasing p.bound q.bound then checkRange (q :: rest)
    else
      .error ("partition " ++ q.name.quote ++ ": each RANGE partition's bound must be above " ++
        "the one before it, and MAXVALUE can only be the last")
  | _ => .ok ()

/-- `check` of the values one `LIST` partition names, given those seen so far. -/
def checkValues (text : Text) (name : String) :
    List ValueItem → List ValueItem → Except String (List ValueItem)
  | seen, [] => .ok seen
  | seen, v :: rest =>
    if seen.any fun s => s.cmp v == .eq then
      .error ("partition " ++ name.quote ++ ": value " ++ display text v ++
        " is in more than one partition")
    else checkValues text name (seen ++ [v]) rest

/-- `check` of a `LIST` table's values, given those seen so far and whether one of the
partitions was the default. -/
def checkList (text : Text) :
    List ValueItem → Bool → List Partition → Except String Unit
  | _, _, [] => .ok ()
  | seen, default, p :: rest =>
    match p.bound with
    | .in values =>
      if values.isEmpty then .error ("partition " ++ p.name.quote ++ " lists no values")
      else do checkList text (← checkValues text p.name seen values) default rest
    | .default =>
      if default then
        .error ("partition " ++ p.name.quote ++ ": a table can have only one DEFAULT partition")
      else checkList text seen true rest
    | _ => .error ("partition " ++ p.name.quote ++ " is not a LIST partition")

/-- `check` of the partitions' names. -/
def checkNames : List String → List Partition → Except String Unit
  | _, [] => .ok ()
  | seen, p :: rest =>
    if seen.any fun o => o.toLower == p.name.toLower then
      .error ("duplicate partition name: " ++ p.name)
    else checkNames (seen ++ [p.name]) rest

def check (text : Text) (spec : Partitioning) (partitions : List Partition) :
    Except String Unit := do
  if partitions.isEmpty then .error "a partitioned table needs at least one partition"
  else
    checkNames [] partitions
    match spec.kind with
    | .range => checkRange partitions
    | .list => checkList text [] false partitions

/-- A `RANGE` partition's bound is above a value. -/
def boundAbove (v : ValueItem) (p : Partition) : Bool :=
  match p.bound with
  | .lessThan bound => v.cmp bound == .lt
  | .maxValue => true
  | _ => false

/-- A `LIST` partition names a value. -/
def names (v : ValueItem) (p : Partition) : Bool :=
  match p.bound with
  | .in values => values.any fun w => w.cmp v == .eq
  | _ => false

def route (spec : Partitioning) (partitions : List Partition) (v : ValueItem) : Option Nat :=
  match spec.kind with
  | .range => partitions.findIdx? (boundAbove v)
  | .list =>
    (partitions.findIdx? (names v)).or (partitions.findIdx? fun p => p.bound == .default)

def rangeOverlaps (partitions : List Partition) (i : Nat) (r : ColumnRange) : Bool :=
  let startsBelow := match (partitions[i]?).map Partition.bound, r.lower with
    | some (.lessThan upper), .included lo | some (.lessThan upper), .excluded lo =>
      lo.cmp upper == .lt
    | _, _ => true
  let lower := if i = 0 then none else (partitions[i - 1]?).map Partition.bound
  let endsAbove := match lower, r.upper with
    | some (.lessThan lower), .included hi => (hi.cmp lower).isGE
    | some (.lessThan lower), .excluded hi => hi.cmp lower == .gt
    | _, _ => true
  startsBelow && endsAbove

/-- A partition can hold a value of a range. -/
def mayHoldRange (partitions : List Partition) (r : ColumnRange) (i : Nat) : Bool :=
  match (partitions[i]?).map Partition.bound with
  | some (.in values) => values.any r.contains
  | some .default | some .all => true
  | some (.lessThan _) | some .maxValue => rangeOverlaps partitions i r
  | none => false

def mayHold (spec : Partitioning) (partitions : List Partition) (set : ColumnSet) : List Nat :=
  let kept := match set with
    | .points points => points.filterMap (spec.route partitions)
    | .range r => (List.range partitions.length).filter (mayHoldRange partitions r)
  (kept.mergeSort (· ≤ ·)).dedup

end Partitioning

/-- What of a table partitions go by: its fields' ids and types. -/
structure SqlTable where
  fields : List (UInt32 × DataType)
  partitioning : Option Partitioning
  partitions : List Partition

namespace SqlTable

/-- The columns' types. -/
def types (t : SqlTable) : List DataType := t.fields.map (·.2)

/-- `partition_column`: its position and its type. -/
def partitionColumn (t : SqlTable) : Option (Nat × DataType) := do
  let spec ← t.partitioning
  let i ← t.fields.findIdx? fun f => f.1 == spec.fieldId
  return (i, ← t.types[i]?)

def partitionsToRead (t : SqlTable) (filters : List EvalExpr) : List Nat :=
  let all := List.range t.partitions.length
  match t.partitioning, t.partitionColumn with
  | some spec, some (column, _) =>
    match columnSet (columnSets filters t.types) column with
    | some set => spec.mayHold t.partitions set
    | none => all
  | _, _ => all

/-- The partitions some values equal to a join's route to. -/
def wanted (t : SqlTable) (spec : Partitioning) (datatype : DataType) (values : List ValueItem) :
    List Nat :=
  (values.flatMap fun v => (equalPoints datatype v).getD []).filterMap (spec.route t.partitions)

/-- `AppendSource::keep_matching`: of the sources of some partitions, those to skip. -/
def keepMatching (t : SqlTable) (parts : List Nat) (skip : List Bool) (column : Nat)
    (values : List ValueItem) : List Bool :=
  match t.partitioning, t.partitionColumn with
  | some spec, some (pc, datatype) =>
    if pc ≠ column then skip
    else
      let skip := if skip.isEmpty then List.replicate parts.length false else skip
      List.zipWith (fun s p => s || !(t.wanted spec datatype values).contains p) skip parts
  | _, _ => skip

/-- `parts_for`: `routeBy` is the outer row's position that holds the partition column's
value, and that column's type. -/
def partsFor (t : SqlTable) (parts : List Nat) (routeBy : Option (Nat × DataType)) (outer : Row) :
    List Nat :=
  let found := match routeBy, t.partitioning with
    | some (pos, datatype), some spec =>
      let routed := (t.wanted spec datatype [outer.at pos]).filter parts.contains
      (routed.mergeSort (· ≤ ·)).dedup
    | _, _ => parts
  found.reverse

end SqlTable

end SquealDb.Sql
