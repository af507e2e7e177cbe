import SquealDb.Doc.Filter

/-!
# Sorts, projections and pipelines

`sq-json/src/query.rs`: the orders and the projections that a find is given; and the stages of a
pipeline of `sq-json/src/aggregate.rs`, of which `aggregate` hands those at its front to a find.

The stages that are never handed to a find are parameters.
-/

namespace SquealDb.Doc

open Lib

/-! ## Sorts -/

/-- `Sort`: fields in order, each ascending or descending. -/
abbrev SortSpec := List (String × Bool)

/-- The doubles 1.0 and -1.0. -/
def one : UInt64 := 0x3FF0000000000000
def minusOne : UInt64 := 0xBFF0000000000000

/-- Whether a direction is ascending, if it is one. -/
def ascendingOf : Value → Option Bool
  | .int i => if i = 1 then some true else if i = -1 then some false else none
  | .double d =>
    if Binary64.ieeeEq d one then some true
    else if Binary64.ieeeEq d minusOne then some false
    else none
  | _ => none

namespace SortSpec

def parse (doc : Document) : Except OpError SortSpec :=
  doc.mapM fun (path, dir) =>
    match ascendingOf dir with
    | some ascending => .ok (path, ascending)
    | none => .error (.badValue ("sort direction for " ++ path ++ " must be 1 or -1"))

/-- The first of the smallest values, `min_by`. -/
def minBy : List Value → Option Value
  | [] => none
  | v :: rest => some (rest.foldl (fun best x => if (x.compare best).isLT then x else best) v)

/-- The last of the largest values, `max_by`. -/
def maxBy : List Value → Option Value
  | [] => none
  | v :: rest => some (rest.foldl (fun best x => if (x.compare best).isLT then best else x) v)

/-- The values that a field may sort by: an array's elements, if it has any. -/
def candidates (doc : Document) (path : String) : List Value :=
  (lookup doc path).flatMap fun v =>
    match v with
    | .array (item :: items) => item :: items
    | other => [other]

def sortKey (doc : Document) (path : String) (ascending : Bool) : Value :=
  ((if ascending then minBy else maxBy) (candidates doc path)).getD .null

def compare (sort : SortSpec) (a b : Document) : Ordering :=
  match sort with
  | [] => .eq
  | (path, ascending) :: rest =>
    let o := (sortKey a path ascending).compare (sortKey b path ascending)
    (if ascending then o else o.swap).then (compare rest a b)

end SortSpec

/-! ## Projections -/

/-- `Projection`, with the paths that its tree is made of. -/
structure Projection where
  including : Bool
  fields : List String
  id : Bool

/-- The flag of a field. -/
def flagOf : Value → Option Bool
  | .bool b => some b
  | .int i => some (i != 0)
  | .double d => some (!Binary64.ieeeEq d 0)
  | _ => none

namespace Projection

/-- The loop of `Projection::parse`: whether fields are included, what is said of `_id`, and
the paths. -/
def parseFields :
    List (String × Value) → Option Bool → Option Bool → List String →
      Except OpError (Option Bool × Option Bool × List String)
  | [], including, id, paths => .ok (including, id, paths)
  | (path, v) :: rest, including, id, paths =>
    match flagOf v with
    | none => .error (.badValue ("projection for " ++ path ++ " must be 1/0 or true/false"))
    | some on =>
      if path = "_id" then parseFields rest including (some on) paths
      else if including = some !on then
        .error (.badValue ("a projection can't mix including and excluding fields " ++
          "(other than _id)"))
      else parseFields rest (some on) id (paths ++ [path])

def parse (doc : Document) : Except OpError (Option Projection) := do
  let (including, id, paths) ← parseFields doc none none []
  match including, id with
  | none, none => pure none
  | none, some true => pure (some ⟨true, paths, true⟩)
  | none, some false => pure (some ⟨false, paths, false⟩)
  | some including, id => pure (some ⟨including, paths, id.getD true⟩)

end Projection

/-! ## Pipelines -/

/-- The stages that are not handed to a find: how one parses, and what it makes of documents. -/
structure Stages extends Matching where
  Other : Type
  parseOther : String → Value → Except OpError Other
  runOther : Other → List Document → Except OpError (List Document)

inductive Stage (ext : Stages) where
  | filter (f : Filter ext.toMatching) (doc : Document)
  | sort (order : SortSpec)
  | skip (n : Nat)
  | limit (n : Nat)
  | other (stage : ext.Other)

namespace Stage

variable {ext : Stages}

/-- The document that a stage needs. -/
def docArg (name what : String) : Value → Except OpError Document
  | .document d => .ok d
  | _ => .error (.badValue (name ++ " needs " ++ what))

/-- `count` of `parse_stage`. -/
def countArg (name : String) (arg : Value) : Except OpError Nat :=
  match wholeCount arg with
  | some n => .ok n
  | none => .error (.badValue (name ++ " needs a non-negative whole number"))

/-- `parse_stage`. -/
def parse : Document → Except OpError (Stage ext)
  | [(name, arg)] =>
    if name = "$match" then do
      let d ← docArg name "a filter document" arg
      let f ← Filter.parse d
      pure (.filter f d)
    else if name = "$sort" then do
      let d ← docArg name "a sort document" arg
      match d with
      | [] => .error (.badValue "$sort needs at least one field")
      | field :: fields => (SortSpec.parse (field :: fields)).map .sort
    else if name = "$skip" then (countArg name arg).map .skip
    else if name = "$limit" then do
      let n ← countArg name arg
      match n with
      | 0 => .error (.badValue "$limit must be positive")
      | n + 1 => pure (.limit (n + 1))
    else (ext.parseOther name arg).map .other
  | _ => .error (.badValue "a pipeline stage must have exactly one field")

def parsePipeline (stages : List Document) : Except OpError (List (Stage ext)) :=
  stages.mapM parse

/-- One round of `aggregate::run`. -/
def run (stage : Stage ext) (docs : List Document) : Except OpError (List Document) :=
  match stage with
  | .filter f _ => .ok (docs.filter f.matches)
  | .sort order => .ok (docs.mergeSort fun a b => (order.compare a b).isLE)
  | .skip n => .ok (docs.drop n)
  | .limit n => .ok (docs.take n)
  | .other stage => ext.runOther stage docs

/-- `aggregate::run`. -/
def runAll : List (Stage ext) → List Document → Except OpError (List Document)
  | [], docs => .ok docs
  | stage :: rest, docs => stage.run docs >>= runAll rest

end Stage

end SquealDb.Doc
