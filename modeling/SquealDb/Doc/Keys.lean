import Mathlib.Data.List.Sort
import SquealDb.Codec.Wire
import SquealDb.Doc.Value
import SquealDb.Lib.Fallible

/-!
# Index keys of documents

`encode`, `number_bytes`, `sortable_f64` and `check_size` of `sq-json/src/keys.rs`, and
`id_key`, `index_keys`, `index_values` and `gather` of `sq-json/src/collection.rs`: the keys
that a document has in an index, and the values they stand for.
-/

namespace SquealDb.Doc

open Codec Lib

/-- The errors of `sq-json/src/error.rs` that operations on a collection end in.  `κ`: where a
store error was. -/
inductive Error (κ : Type) where
  | badValue (what : String)
  | duplicateKey (place : κ)
  | writeConflict
  | keyTooLarge (size budget : Nat)
  | immutableId
  | store (error : Codec.StoreError)
  | other

/-! ## Codes of values -/

def blob (bytes : List UInt8) : ValueItem := .blob bytes (UInt32.ofNat bytes.length)

def sortableF64 (f : UInt64) : List UInt8 :=
  if Binary64.isNan f then List.replicate 8 0
  else
    -- the two zeros are one number
    let bits := if Binary64.ieeeEq f 0 then 0 else f
    KeyCode.toBeBytes (if bits >>> 63 = 1 then ~~~bits else bits ||| KeyCode.signBit)

/-- `number_bytes`: the nearest double, and how far the number is from it. -/
def numberBytes : Value → List UInt8
  | .int i =>
    let f := Binary64.ofInt i.toInt
    let offset := Int64.ofInt (i.toInt - Binary64.trunc f)
    sortableF64 f ++ KeyCode.toBeBytes (offset.toUInt64 ^^^ KeyCode.signBit)
  | .double d => sortableF64 d ++ KeyCode.toBeBytes KeyCode.signBit
  | _ => []

mutual

/-- `postcard::to_allocvec` of a value. -/
def valueBytes : Value → List UInt8
  | .null => [0]
  | .bool b => [1, if b then 1 else 0]
  | .int i => 2 :: Postcard.signed i
  | .double d => 3 :: (KeyCode.toBeBytes d).reverse
  | .string s => 4 :: Postcard.bytes (asBytes s)
  | .objectId id => 5 :: id.bytes
  | .date ms => 6 :: Postcard.signed ms
  | .array items => 7 :: (Postcard.len items.length ++ itemsBytes items)
  | .document fields => 8 :: (Postcard.len fields.length ++ fieldsBytes fields)

def itemsBytes : List Value → List UInt8
  | [] => []
  | v :: rest => valueBytes v ++ itemsBytes rest

def fieldsBytes : List (String × Value) → List UInt8
  | [] => []
  | (key, v) :: rest => Postcard.bytes (asBytes key) ++ valueBytes v ++ fieldsBytes rest

end

/-- The second of the two key fields. -/
def payload : Value → ValueItem
  | .null => .null
  | .bool b => .boolean b
  | .int i => blob (numberBytes (.int i))
  | .double d => blob (numberBytes (.double d))
  | .string s => .str s (UInt32.ofNat (asBytes s).length)
  | .objectId id => blob id.bytes
  | .date ms => .integer ms
  | .document fields => blob (valueBytes (.document fields))
  | .array items => blob (valueBytes (.array items))

/-- `bracket`: the type alone. -/
def bracket (v : Value) : ValueItem := .integer (Int64.ofNat v.typeOrder)

/-- `encode`: the two key fields for a value. -/
def encode (v : Value) : IndexKey := [bracket v, payload v]

def ordersLikeMongo : Value → Bool
  | .document _ | .array _ => false
  | _ => true

def keyBudget : Nat := 256

variable {κ : Type}

def checkSize (key : IndexKey) : Except (Error κ) Unit :=
  let size := (Postcard.id (.record key)).length
  if size > keyBudget then .error (.keyTooLarge size keyBudget) else .ok ()

/-- `IndexKey::new_from`. -/
def newKey (items : List ValueItem) : Except (Error κ) IndexKey :=
  match items.forM ValueItem.validate with
  | .error e => .error (.store e)
  | .ok () => .ok items

def idKey (id : Value) : Except (Error κ) IndexKey := do
  let key ← newKey (encode id)
  checkSize key
  pure key

/-! ## The values an index holds of a document -/

/-- `Vec::dedup_by`: what is the same as the one kept before it goes. -/
def dedupAfter {α : Type} (same : α → α → Bool) : α → List α → List α
  | _, [] => []
  | kept, x :: rest =>
    if same x kept then dedupAfter same kept rest else x :: dedupAfter same x rest

def dedupBy {α : Type} (same : α → α → Bool) : List α → List α
  | [] => []
  | x :: rest => x :: dedupAfter same x rest

/-- At most another. -/
def Value.le (a b : Value) : Prop := (a.compare b).isLE = true

instance : DecidableRel Value.le := fun _ _ => instDecidableEqBool _ _

/-- `sort_by(compare)` and `dedup_by(values_equal)`. -/
def distinctValues (values : List Value) : List Value :=
  dedupBy Value.valuesEqual (values.insertionSort Value.le)

mutual

/-- `gather`, at a part of a path: `next` gathers behind it. -/
def gatherPart (part : String) (next : Value → List Value) : Value → List Value
  | .document fields =>
    match Document.get fields part with
    | some x => next x
    | none => [.null]
  | .array items =>
    ((numbered part items).elim [] next) ++
      ((if items.isEmpty then [.null] else []) ++ gatherItems part next items)
  | _ => [.null]

/-- Each item of an array. -/
def gatherItems (part : String) (next : Value → List Value) : List Value → List Value
  | [] => []
  | v :: rest => gatherPart part next v ++ gatherItems part next rest

end

/-- `gather`, at the end of the path: an array's elements separately. -/
def gatherLeaf : Value → List Value
  | .array [] => [.array []]
  | .array items => items
  | v => [v]

def gather : List String → Value → List Value
  | [] => gatherLeaf
  | part :: parts => gatherPart part (gather parts)

/-- What `index_values` gathers. -/
def gatherDoc (doc : Document) : List String → List Value
  | [] => []
  | part :: parts =>
    match doc.get part with
    | some v => gather parts v
    | none => [.null]

/-- `index_values`: every value an index on a path holds for a document. -/
def indexValues (doc : Document) (path : String) : List Value :=
  distinctValues (gatherDoc doc (splitPath path))

/-! ## The keys of a document -/

/-- `IndexState`: its fields with their directions, whether it is unique, and its table. -/
structure Index where
  name : String
  keys : List (String × Int)
  unique : Bool
  table : Nat
  deriving DecidableEq

/-- One of each field's values, in every way. -/
def combinations (perField : List (List Value)) : List (List Value) :=
  perField.foldl (fun combos values =>
    combos.flatMap fun c => values.map fun v => c ++ [v]) [[]]

/-- The first of those that are alike. -/
def firstBy {α β : Type} [DecidableEq β] (f : α → β) : List β → List α → List α
  | _, [] => []
  | seen, a :: rest =>
    if f a ∈ seen then firstBy f seen rest else a :: firstBy f (f a :: seen) rest

/-- The key of one combination of values.  The document's `_id` ends it, if the index is not
unique. -/
def keyItems (ix : Index) (id : Option IndexKey) (values : List Value) : List ValueItem :=
  values.flatMap encode ++ (if ix.unique then [] else id.getD [])

/-- One entry: the key, and the values it stands for. -/
def entryOf (ix : Index) (id : Option IndexKey) (values : List Value) :
    Except (Error κ) (IndexKey × List Value) := do
  let key ← newKey (keyItems ix id values)
  checkSize key
  pure (key, values)

/-- `index_keys`: the document's keys in the index, each with its values, and whether there is
more than one combination of values.  The bytes of a combination's items say which it is. -/
def indexKeys (ix : Index) (doc : Document) :
    Except (Error κ) (List (IndexKey × List Value) × Bool) :=
  let perField := ix.keys.map fun field => indexValues doc field.1
  if (perField.filter fun values => values.length > 1).length > 1 then
    .error (.badValue ("cannot index parallel arrays: index " ++ ix.name ++
      " has more than one array field in this document"))
  else do
    let combos := combinations perField
    let id := (doc.get "_id").map encode
    let kept := firstBy (fun values : List Value => Postcard.key (values.flatMap encode)) [] combos
    let entries ← kept.mapM (entryOf ix id)
    pure (entries, combos.length > 1)

end SquealDb.Doc
