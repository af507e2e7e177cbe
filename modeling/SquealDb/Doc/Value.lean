import Mathlib.Data.List.SplitOn
import SquealDb.Codec.ValueItem
import SquealDb.Lib.Binary64

/-!
# Values and documents

`Value` and `Document` of `sq-json/src/value.rs`, their comparison in MongoDB's order, and the
values that a dotted path reaches.  A double is its 64 bits; a number of either kind is compared
by its exact value.
-/

namespace SquealDb.Doc

open Lib

/-- `ObjectId`: twelve bytes. -/
structure ObjectId where
  bytes : List UInt8
  length_eq : bytes.length = 12
  deriving DecidableEq

inductive Value where
  | null
  | bool (b : Bool)
  | int (i : Int64)
  | double (bits : UInt64)
  | string (s : String)
  | objectId (id : ObjectId)
  | date (ms : Int64)
  | array (items : List Value)
  | document (fields : List (String × Value))

mutual

/-- Values are told apart by their kind and by what they hold. -/
def Value.decEq (a b : Value) : Decidable (a = b) := by
  cases a <;> cases b <;> first
    | exact isTrue rfl
    | exact decidable_of_iff _ (Iff.of_eq (Value.bool.injEq _ _)).symm
    | exact decidable_of_iff _ (Iff.of_eq (Value.int.injEq _ _)).symm
    | exact decidable_of_iff _ (Iff.of_eq (Value.double.injEq _ _)).symm
    | exact decidable_of_iff _ (Iff.of_eq (Value.string.injEq _ _)).symm
    | exact decidable_of_iff _ (Iff.of_eq (Value.objectId.injEq _ _)).symm
    | exact decidable_of_iff _ (Iff.of_eq (Value.date.injEq _ _)).symm
    | next xs ys =>
      exact @decidable_of_iff _ (xs = ys) (Iff.of_eq (Value.array.injEq _ _)).symm
        (itemsDecEq xs ys)
    | next xs ys =>
      exact @decidable_of_iff _ (xs = ys) (Iff.of_eq (Value.document.injEq _ _)).symm
        (fieldsDecEq xs ys)
    | exact isFalse nofun

def itemsDecEq : (xs ys : List Value) → Decidable (xs = ys)
  | [], [] => isTrue rfl
  | [], _ :: _ => isFalse nofun
  | _ :: _, [] => isFalse nofun
  | x :: xs, y :: ys =>
    have := Value.decEq x y
    have := itemsDecEq xs ys
    decidable_of_iff (x = y ∧ xs = ys) (List.cons.injEq x xs y ys ▸ Iff.rfl)

def fieldsDecEq : (xs ys : List (String × Value)) → Decidable (xs = ys)
  | [], [] => isTrue rfl
  | [], _ :: _ => isFalse nofun
  | _ :: _, [] => isFalse nofun
  | (j, x) :: xs, (k, y) :: ys =>
    have := Value.decEq x y
    have := fieldsDecEq xs ys
    decidable_of_iff ((j = k ∧ x = y) ∧ xs = ys) (by rw [List.cons.injEq, Prod.mk.injEq])

end

instance : DecidableEq Value := Value.decEq

/-- `Document`: fields in the order they were written. -/
abbrev Document := List (String × Value)

namespace Document

def get (d : Document) (key : String) : Option Value :=
  (d.find? fun field => field.1 == key).map (·.2)

/-- `Document::insert`: in place if the key is there, else at the end. -/
def insert (d : Document) (key : String) (value : Value) : Document :=
  match d with
  | [] => [(key, value)]
  | field :: rest =>
    if field.1 == key then (field.1, value) :: rest else field :: insert rest key value

def remove (d : Document) (key : String) : Document := d.eraseP fun field => field.1 == key

def insertFirst (d : Document) (key : String) (value : Value) : Document :=
  (key, value) :: d.remove key

end Document

namespace Value

def typeOrder : Value → Nat
  | null => 2
  | int _ | double _ => 3
  | string _ => 4
  | document _ => 5
  | array _ => 6
  | objectId _ => 8
  | bool _ => 9
  | date _ => 10

/-- `cmp_f64`: NaN below every number. -/
def cmpF64 (x y : UInt64) : Ordering :=
  match Binary64.isNan x, Binary64.isNan y with
  | true, true => .eq
  | true, false => .lt
  | false, true => .gt
  | false, false => (Binary64.partialCmp x y).getD .eq

/-- `TWO_63`, and its negative. -/
def two63 : UInt64 := 0x43E0000000000000
def minusTwo63 : UInt64 := 0xC3E0000000000000

def cmpIntDouble (i : Int64) (d : UInt64) : Ordering :=
  if Binary64.isNan d then .gt
  else if Binary64.partialCmp d two63 ≠ some .lt then .lt
  else if Binary64.partialCmp d minusTwo63 = some .lt then .gt
  else
    match compare i.toInt (Binary64.trunc d) with
    | .eq =>
      if 0 < Binary64.fraction d then .lt
      else if Binary64.fraction d < 0 then .gt
      else .eq
    | o => o

def compareNumbers : Value → Value → Ordering
  | int x, int y => Ord.compare x y
  | double x, double y => cmpF64 x y
  | int i, double d => cmpIntDouble i d
  | double d, int i => (cmpIntDouble i d).swap
  | _, _ => .eq

mutual

/-- `compare`: by type first. -/
def compare (a b : Value) : Ordering :=
  if a.typeOrder ≠ b.typeOrder then Ord.compare a.typeOrder b.typeOrder
  else
    match a, b with
    | null, null => .eq
    | bool x, bool y => Ord.compare x y
    | string x, string y => Ord.compare (Codec.asBytes x) (Codec.asBytes y)
    | objectId x, objectId y => Ord.compare x.bytes y.bytes
    | date x, date y => Ord.compare x y
    | array xs, array ys => compareItems xs ys
    | document xs, document ys => compareFields xs ys
    | x, y => compareNumbers x y

/-- Element by element, and then by length. -/
def compareItems : List Value → List Value → Ordering
  | x :: xs, y :: ys => (compare x y).then (compareItems xs ys)
  | xs, ys => Ord.compare xs.length ys.length

/-- Field by field, the value before the name, and then by length. -/
def compareFields : List (String × Value) → List (String × Value) → Ordering
  | (kx, vx) :: xs, (ky, vy) :: ys =>
    ((compare vx vy).then (Ord.compare (Codec.asBytes kx) (Codec.asBytes ky))).then
      (compareFields xs ys)
  | xs, ys => Ord.compare xs.length ys.length

end

def valuesEqual (a b : Value) : Bool := compare a b == .eq

end Value

/-! ## Paths -/

/-- The parts of a dotted path. -/
def splitPath (path : String) : List String := (path.toList.splitOn '.').map String.ofList

/-- `str::parse::<usize>`: digits, after a `+` or not. -/
def parseUsize (part : String) : Option Nat :=
  let digits :=
    match part.toList with
    | '+' :: rest => rest
    | chars => chars
  if digits ≠ [] ∧ digits.all Char.isDigit then
    let n := digits.foldl (fun n c => n * 10 + (c.toNat - '0'.toNat)) 0
    if n < 2 ^ 64 then some n else none
  else none

/-- The values that a part of a path leads to in a document. -/
def walkField (next : Value → List Value) (part : String) (d : Document) : List Value :=
  match d.get part with
  | some v => next v
  | none => []

/-- The item of an array that a part of a path numbers. -/
def numbered (part : String) (items : List Value) : Option Value :=
  (parseUsize part).bind fun i => items[i]?

/-- `walk`: the values that the parts of a path lead to. -/
def walk : List String → Value → List Value
  | [], v => [v]
  | part :: parts, v =>
    match v with
    | .document d => walkField (walk parts) part d
    | .array items =>
      ((numbered part items).elim [] (walk parts)) ++
        items.flatMap fun item =>
          match item with
          | .document d => walkField (walk parts) part d
          | _ => []
    | _ => []

def walkDoc (doc : Document) : List String → List Value
  | [] => []
  | part :: parts => walkField (walk parts) part doc

/-- `lookup`: every value that a path reaches. -/
def lookup (doc : Document) (path : String) : List Value := walkDoc doc (splitPath path)

end SquealDb.Doc
