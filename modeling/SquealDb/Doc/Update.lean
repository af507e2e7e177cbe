import SquealDb.Doc.Filter

/-!
# Update operators

`sq-json/src/update.rs`: how an update document parses, what its operators do to a document along
dotted paths, and the document that an upsert starts from.

The clock, the addition and multiplication of doubles, how a value reads in the text of an error
and the document that `$pull` reparses are parameters.
-/

namespace SquealDb.Doc

open Lib

inductive Op where
  | set
  | unset
  | inc
  | mul
  | min
  | max
  | rename
  | push
  | addToSet
  | pull
  | pop
  | setOnInsert
  | currentDate
  deriving DecidableEq, Repr

/-- An operator, the path that it is for, and its argument. -/
abbrev Change := Op × String × Value

/-- `SystemTime::now` in milliseconds; `+` and `*` of doubles; `to_json`; and the document that
parses from the text of a `$pull` with operators, `$elemMatch` put around it. -/
structure Setting extends Matching where
  now : Int64
  addF64 : UInt64 → UInt64 → UInt64
  mulF64 : UInt64 → UInt64 → UInt64
  display : Value → String
  probe : Value → Except OpError Document

/-! ## Paths -/

/-- `step`. -/
def stepInto (v : Value) (part : String) : Option Value :=
  match v with
  | .document d => Document.get d part
  | .array items => numbered part items
  | _ => none

def getPath (doc : Document) (path : String) : Option Value :=
  (splitPath path).foldlM stepInto (.document doc)

/-- A missing field or a null that more of a path is set in. -/
def opened : Value → Value
  | .null => .document []
  | v => v

/-- `set_in_doc` and `set_in_value`.  At the end of the path, the value comes in place of what is
there. -/
def setInValue (display : Value → String) (path : String) (value : Value) :
    List String → Value → Except OpError Value
  | [], _ => .ok value
  | part :: rest, .document d => do
    let inner ← setInValue display path value rest ((Document.get d part).getD (.document []))
    pure (.document (Document.insert d part inner))
  | part :: rest, .array items =>
    match parseUsize part with
    | none => .error (.badValue ("cannot use the part " ++ part.quote ++ " of " ++ path ++
        " to traverse an array"))
    | some i => do
      let items := items ++ List.replicate (i + 1 - items.length) .null
      let inner ← setInValue display path value rest (opened (items.getD i .null))
      pure (.array (items.set i inner))
  | part :: _, other => .error (.badValue ("cannot create field " ++ part.quote ++ " of " ++ path ++
      " in element " ++ display other))

def setPath (display : Value → String) (doc : Document) (path : String) (value : Value) :
    Except OpError Document :=
  match setInValue display path value (splitPath path) (.document doc) with
  | .ok (.document after) => .ok after
  | .ok _ => .error .other
  | .error e => .error e

/-- `unset_path`: what was there, and what is left. -/
def unsetIn : List String → Value → Option (Value × Value)
  | [], _ => none
  | [last], .document d =>
    (Document.get d last).map fun old => (old, .document (Document.remove d last))
  | [last], .array items =>
    (parseUsize last).bind fun i => (items[i]?).map fun old => (old, .array (items.set i .null))
  | part :: rest, .document d =>
    (Document.get d part).bind fun inner => (unsetIn rest inner).map fun r =>
      (r.1, .document (Document.insert d part r.2))
  | part :: rest, .array items =>
    (parseUsize part).bind fun i => (items[i]?).bind fun inner => (unsetIn rest inner).map fun r =>
      (r.1, .array (items.set i r.2))
  | _ :: _, _ => none

def unsetPath (doc : Document) (path : String) : Option (Value × Document) :=
  match unsetIn (splitPath path) (.document doc) with
  | some (old, .document after) => some (old, after)
  | _ => none

/-! ## Operators -/

def isNumber : Value → Bool
  | .int _ | .double _ => true
  | _ => false

def zeroLike : Value → Value
  | .int _ => .int 0
  | _ => .double 0

/-- `checked_add` and `checked_mul`. -/
def checked (n : Int) : Except OpError Value :=
  if -2 ^ 63 ≤ n ∧ n < 2 ^ 63 then .ok (.int (Int64.ofInt n))
  else .error (.badValue "integer overflow")

/-- The double of a number. -/
def asF64 : Value → UInt64
  | .int i => Binary64.ofInt i.toInt
  | .double d => d
  | _ => 0

/-- What the errors call an operator. -/
def Op.name : Op → String
  | .mul => "Mul"
  | _ => "Inc"

/-- `each`: the items of `$push` and `$addToSet`. -/
def each (arg : Value) : List Value :=
  match arg with
  | .document [("$each", .array items)] => items
  | _ => [arg]

variable (env : Setting)

def arithmetic (a b : Value) (op : Op) : Except OpError Value :=
  match a, b with
  | .int x, .int y =>
    checked (if op = .inc then x.toInt + y.toInt else x.toInt * y.toInt)
  | x, y =>
    .ok (.double (if op = .inc then env.addF64 (asF64 x) (asF64 y)
      else env.mulF64 (asF64 x) (asF64 y)))

/-- What is at a path where an array should be. -/
def notArray (path : String) (other : Value) : OpError :=
  .badValue ("the field at " ++ path ++ " must be an array, not " ++ env.display other)

/-- An empty array where nothing is. -/
def ensureArray (doc : Document) (path : String) : Except OpError Document :=
  match getPath doc path with
  | none => setPath env.display doc path (.array [])
  | some _ => .ok doc

/-- `array_at`, and what is then done to the array. -/
def changeArray (doc : Document) (path : String) (change : List Value → List Value) :
    Except OpError Document := do
  let doc ← ensureArray env doc path
  match getPath doc path with
  | some (.array items) => setPath env.display doc path (.array (change items))
  | some other => .error (notArray env path other)
  | none => .error .other

/-- `$inc` and `$mul`: the number that is set. -/
def incremented (doc : Document) (op : Op) (path : String) (arg : Value) : Except OpError Value :=
  if !isNumber arg then
    .error (.badValue ("cannot " ++ op.name ++ " with a non-numeric argument"))
  else
    match getPath doc path with
    | none => .ok (if op = .inc then arg else zeroLike arg)
    | some v =>
      if isNumber v then arithmetic env v arg op
      else .error (.badValue ("cannot apply " ++ op.name ++ " to a non-numeric value at " ++ path ++
        ": " ++ env.display v))

/-- The elements that `$pull` takes away. -/
def pulled (arg : Value) : Except OpError (Value → Bool) :=
  match arg with
  | .document d =>
    if isOperatorDoc d then do
      let probe ← env.probe arg
      let f : Filter env.toMatching ← Filter.parse probe
      pure fun e => f.matches [("v", .array [e])]
    else do
      let f : Filter env.toMatching ← Filter.parse d
      pure fun e =>
        match e with
        | .document ed => f.matches ed
        | _ => false
  | v => .ok fun e => e.valuesEqual v

/-- `$pop`'s argument: the first element, or the last. -/
def popsFirst : Value → Except OpError Bool
  | .int i =>
    if i = -1 then .ok true
    else if i = 1 then .ok false
    else .error (.badValue "$pop takes 1 or -1")
  | .double d =>
    if Binary64.ieeeEq d 0xBFF0000000000000 then .ok true
    else if Binary64.ieeeEq d 0x3FF0000000000000 then .ok false
    else .error (.badValue "$pop takes 1 or -1")
  | _ => .error (.badValue "$pop takes 1 or -1")

/-- The items of `$addToSet` that are not there yet, one after another. -/
def addMissing (items : List Value) (new : List Value) : List Value :=
  new.foldl (fun items item =>
    if items.any fun e => e.valuesEqual item then items else items ++ [item]) items

def applyOp (inserting : Bool) (doc : Document) : Change → Except OpError Document
  | (.set, path, arg) => setPath env.display doc path arg
  | (.setOnInsert, path, arg) =>
    if inserting then setPath env.display doc path arg else .ok doc
  | (.unset, path, _) => .ok ((unsetPath doc path).elim doc Prod.snd)
  | (.currentDate, path, _) => setPath env.display doc path (.date env.now)
  | (.inc, path, arg) => do
    let result ← incremented env doc .inc path arg
    setPath env.display doc path result
  | (.mul, path, arg) => do
    let result ← incremented env doc .mul path arg
    setPath env.display doc path result
  | (.min, path, arg) =>
    if (getPath doc path).all fun v => (arg.compare v).isLT then
      setPath env.display doc path arg
    else .ok doc
  | (.max, path, arg) =>
    if (getPath doc path).all fun v => (arg.compare v).isGT then
      setPath env.display doc path arg
    else .ok doc
  | (.rename, path, .string target) =>
    match unsetPath doc path with
    | none => .ok doc
    | some (v, after) => setPath env.display after target v
  | (.rename, _, _) => .error (.badValue "$rename's target must be a string")
  | (.push, path, arg) => changeArray env doc path fun items => items ++ each arg
  | (.addToSet, path, arg) => changeArray env doc path fun items => addMissing items (each arg)
  | (.pull, path, arg) =>
    match getPath doc path with
    | none => .ok doc
    | some (.array items) => do
      let remove ← pulled env arg
      setPath env.display doc path (.array (items.filter fun e => !remove e))
    | some other => .error (notArray env path other)
  | (.pop, path, arg) =>
    if (getPath doc path).isNone then .ok doc
    else do
      let first ← popsFirst arg
      changeArray env doc path fun items => if first then items.tail else items.dropLast

/-! ## Updates -/

/-- The operator with this name. -/
def opNamed (name : String) : Except OpError Op :=
  if name = "$set" then .ok .set
  else if name = "$unset" then .ok .unset
  else if name = "$inc" then .ok .inc
  else if name = "$mul" then .ok .mul
  else if name = "$min" then .ok .min
  else if name = "$max" then .ok .max
  else if name = "$rename" then .ok .rename
  else if name = "$push" then .ok .push
  else if name = "$addToSet" then .ok .addToSet
  else if name = "$pull" then .ok .pull
  else if name = "$pop" then .ok .pop
  else if name = "$setOnInsert" then .ok .setOnInsert
  else if name = "$currentDate" then .ok .currentDate
  else .error (.badValue ("unknown update operator: " ++ name))

/-- `overlaps`: one path is the other, or inside it. -/
def overlaps (a b : String) : Bool :=
  a == b || (b.toList ++ ['.']).isPrefixOf a.toList || (a.toList ++ ['.']).isPrefixOf b.toList

/-- The paths that an operator touches. -/
def touched : Change → List String
  | (.rename, path, .string target) => [path, target]
  | (_, path, _) => [path]

/-- The first two paths that conflict. -/
def conflict : List String → Option (String × String)
  | [] => none
  | a :: rest =>
    match rest.find? fun b => overlaps a b with
    | some b => some (a, b)
    | none => conflict rest

/-- The fields of one operator. -/
def fieldsOf (name : String) (op : Op) : List (String × Value) → Except OpError (List Change)
  | [] => .ok []
  | (path, value) :: rest =>
    if (splitPath path).any fun part => part.isEmpty then
      .error (.badValue (name ++ ": invalid path " ++ path.quote))
    else do
      let changes ← fieldsOf name op rest
      pure ((op, path, value) :: changes)

/-- The operators of an update document. -/
def operatorsOf : Document → Except OpError (List Change)
  | [] => .ok []
  | (name, args) :: rest => do
    let op ← opNamed name
    match args with
    | .document fields => do
      let changes ← fieldsOf name op fields
      let more ← operatorsOf rest
      pure (changes ++ more)
    | _ => .error (.badValue (name ++ " needs an object of fields"))

/-- `Update`, with its operators. -/
inductive UpdateSpec where
  | ops (changes : List Change)
  | replace (new : Document)

namespace UpdateSpec

def parse (doc : Document) : Except OpError UpdateSpec :=
  if (doc.filter fun field => isDollar field.1).isEmpty then do
    checkFieldNames doc
    pure (.replace doc)
  else if !doc.all fun field => isDollar field.1 then
    .error (.badValue ("an update mixes operators and plain fields: use operators only, or a " ++
      "whole replacement document"))
  else do
    let changes ← operatorsOf doc
    match conflict (changes.flatMap touched) with
    | some (a, b) =>
        .error (.badValue ("Updating the path '" ++ a ++ "' would create a conflict at '" ++
        b ++ "'"))
    | none => pure (.ops changes)

/-- The update, of a document that is there or one that is being inserted. -/
def update (inserting : Bool) : UpdateSpec → Update
  | ops changes => .ops fun doc => changes.foldlM (applyOp env inserting) doc
  | replace new => .replace new

/-- The equalities among the conditions that a filter requires. -/
def equalities {ext : Matching} (f : Filter ext) : List (String × Value) :=
  f.required.filterMap fun r =>
    match r with
    | (path, .eq (.document d)) =>
      if d.any fun field => isDollar field.1 then none else some (path, .document d)
    | (path, .eq v) => some (path, v)
    | _ => none

def upsertDocument (u : UpdateSpec) (f : Filter env.toMatching) : Except OpError Document := do
  let doc ← (equalities f).foldlM (fun doc e => setPath env.display doc e.1 e.2) []
  match u with
  | replace r =>
    match Document.get doc "_id" with
    | none => pure r
    | some id =>
      if (Document.get r "_id").any fun x => !x.valuesEqual id then .error .immutableId
      else pure (Document.insertFirst r "_id" id)
  | ops _ => (u.update env true).apply doc |>.map Prod.fst

end UpdateSpec

end SquealDb.Doc
