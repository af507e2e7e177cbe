import SquealDb.Sql.Numeric

/-!
# Comparing rows

`cmp_by_fields` and `same_row` of `source/sort.rs`, the key rules of
`source/joinmatch.rs`, and the hash of a join key of `source/hash.rs`.

A position is resolved when the query is planned and lies within the row.
-/

namespace SquealDb.Sql

open Codec Lib

/-- A row: its values. -/
abbrev Row := List ValueItem

/-- The value at a position. -/
def Row.at (row : Row) (i : Nat) : ValueItem := row.getD i .null

/-- An integer and a double compare by value, a NaN after every number; any other pair
as `ValueItem` orders it. -/
def cmpByValue (a b : ValueItem) : Ordering :=
  match cmpMixed a b with
  | some (some ord) => ord
  | some none =>
    match a with
    | .double _ => .gt
    | _ => .lt
  | none => a.cmp b

structure SortField where
  asc : Bool
  nullFirst : Bool
  index : Nat
  deriving DecidableEq, Repr

/-- The order of two values of a sort field's column. -/
def SortField.cmp (field : SortField) (lhs rhs : ValueItem) : Ordering :=
  match lhs, rhs with
  | .null, .null => .eq
  | .null, _ => if field.nullFirst then .lt else .gt
  | _, .null => if field.nullFirst then .gt else .lt
  | _, _ => if field.asc then cmpByValue lhs rhs else (cmpByValue lhs rhs).swap

def cmpByFields (order : List SortField) (lhs rhs : Row) : Ordering :=
  match order with
  | [] => .eq
  | field :: rest =>
    match field.cmp (lhs.at field.index) (rhs.at field.index) with
    | .eq => cmpByFields rest lhs rhs
    | other => other

/-- The sort fields of the columns at some positions, ascending and `NULL`s first. -/
def ascending (positions : List Nat) : List SortField :=
  positions.map fun index => { asc := true, nullFirst := true, index }

def sameRow (a b : Row) : Bool :=
  let all := ascending (List.range (max a.length b.length))
  a.length == b.length && cmpByFields all a b == .eq

/-- `cmp_keys`, over the pairs of key positions. -/
def cmpKeys (left right : Row) : List (Nat × Nat) → Ordering
  | [] => .eq
  | (l, r) :: rest =>
    match cmpByValue (left.at l) (right.at r) with
    | .eq => cmpKeys left right rest
    | other => other

/-- Whether a key has a `NULL`. -/
def hasNull (row : Row) (fields : List Nat) : Bool := fields.any fun i => row.at i == .null

def keysMatch (leftFields rightFields : List Nat) (left right : Row) : Bool :=
  !hasNull left leftFields && !hasNull right rightFields &&
    cmpKeys left right (leftFields.zip rightFields) == .eq

def getHash (values : Row) (fields : List Nat) : UInt64 :=
  let isDouble : ValueItem → Bool := fun v => match v with | .double _ => true | _ => false
  if fields.any fun f => isDouble (values.at f) then
    IndexKey.hashRefs (fields.map fun f => (hashNormalized (values.at f)).getD (values.at f))
  else IndexKey.hashRefs (fields.map values.at)

end SquealDb.Sql
