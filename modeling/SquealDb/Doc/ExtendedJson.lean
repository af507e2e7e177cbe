import SquealDb.Doc.Value
import SquealDb.Lib.Json
import SquealDb.Lib.Fallible

/-!
# Extended JSON

`from_json` and `Value::to_json` of `sq-json/src/value.rs`: JSON in which an object of one
field stands for an ObjectId, a date or a number that JSON has no text for.  Other objects of
one field whose name begins with `$` are documents.

serde_json reads and writes the JSON itself and is a parameter, as is the reading of a double
from a string.  Arithmetic on dates wraps, as it does in a release build.
-/

namespace SquealDb.Doc

open Lib

/-- What `from_json` fails with; the texts are those of `value.rs` around what is named here. -/
inductive JsonError where
  | json
  | duplicateField (key : String)
  | objectId (hex : String)
  | date (text : String)
  | wrapper (key : String)
  | panic
  deriving DecidableEq, Repr

/-! ## ObjectIds -/

/-- `{b:02x}`. -/
def hexByte (b : UInt8) : List Char :=
  [Nat.digitChar (b.toNat / 16), Nat.digitChar (b.toNat % 16)]

def ObjectId.toHex (id : ObjectId) : List Char := id.bytes.flatMap hexByte

/-- `to_digit(16)`. -/
def hexValue (c : Char) : Option Nat :=
  if c.isDigit then some (c.toNat - 48)
  else if 'a' ≤ c ∧ c ≤ 'f' then some (c.toNat - 87)
  else if 'A' ≤ c ∧ c ≤ 'F' then some (c.toNat - 55)
  else none

/-- `u8::from_str_radix`, of two bytes of text. -/
def hexPair (text : List Char) : Option UInt8 :=
  match text with
  | ['+', l] => (hexValue l).map UInt8.ofNat
  | [h, l] => do
    let high ← hexValue h
    let low ← hexValue l
    return UInt8.ofNat (16 * high + low)
  | _ => none

/-- How many bytes a text has. -/
def byteLen (text : List Char) : Nat := (text.map Char.utf8Size).sum

/-- The next two bytes of a text, and what follows; a slice that would cut a character in two
panics. -/
def takePair : List Char → Except JsonError (List Char × List Char)
  | a :: rest =>
    if a.utf8Size = 2 then .ok ([a], rest)
    else if a.utf8Size = 1 then
      match rest with
      | b :: rest => if b.utf8Size = 1 then .ok ([a, b], rest) else .error .panic
      | [] => .error .panic
    else .error .panic
  | [] => .error .panic

/-- The loop of `ObjectId::parse`. -/
def parsePairs (hex : List Char) : Nat → List Char → Except JsonError (List UInt8)
  | 0, _ => .ok []
  | n + 1, text => do
    let (pair, rest) ← takePair text
    match hexPair pair with
    | some b => return b :: (← parsePairs hex n rest)
    | none => throw (.objectId (String.ofList hex))

theorem length_parsePairs {hex : List Char} {n : Nat} {text : List Char} {bytes : List UInt8}
    (h : parsePairs hex n text = .ok bytes) : bytes.length = n := by
  induction n generalizing text bytes with
  | zero =>
    cases h
    rfl
  | succ n ih =>
    rw [parsePairs] at h
    obtain ⟨⟨pair, rest⟩, -, h⟩ := bind_ok_iff.mp h
    dsimp only at h
    split at h
    · obtain ⟨bytes', hrest, h⟩ := bind_ok_iff.mp h
      cases h
      rw [List.length_cons, ih hrest]
    · cases h

def ObjectId.parse (hex : List Char) : Except JsonError ObjectId :=
  if byteLen hex ≠ 24 then .error (.objectId (String.ofList hex))
  else
    match h : parsePairs hex 12 hex with
    | .ok bytes => .ok ⟨bytes, length_parsePairs h⟩
    | .error e => .error e

/-! ## Dates -/

/-- `str::parse::<i64>`. -/
def parseI64 (text : List Char) : Option Int64 :=
  let negative := text.head? == some '-'
  let digits :=
    match text with
    | '-' :: rest => rest
    | '+' :: rest => rest
    | digits => digits
  if digits ≠ [] ∧ digits.all Char.isDigit then
    let n : Int := Nat.ofDigitChars 10 digits 0
    let i := if negative then -n else n
    if -2 ^ 63 ≤ i ∧ i < 2 ^ 63 then some (Int64.ofInt i) else none
  else none

def daysFromCivil (y m d : Int64) : Int64 :=
  let y := if m ≤ 2 then y - 1 else y
  let era := (if y ≥ 0 then y else y - 399) / 400
  let yoe := y - era * 400
  let doy := (153 * (if m > 2 then m - 3 else m + 9) + 2) / 5 + d - 1
  let doe := yoe * 365 + yoe / 4 - yoe / 100 + doy
  era * 146097 + doe - 719468

def civilFromDays (z : Int64) : Int64 × Int64 × Int64 :=
  let z := z + 719468
  let era := (if z ≥ 0 then z else z - 146096) / 146097
  let doe := z - era * 146097
  let yoe := (doe - doe / 1460 + doe / 36524 - doe / 146096) / 365
  let y := yoe + era * 400
  let doy := doe - (365 * yoe + yoe / 4 - yoe / 100)
  let mp := (5 * doy + 2) / 153
  let d := doy - (153 * mp + 2) / 5 + 1
  let m := if mp < 10 then mp + 3 else mp - 9
  (if m ≤ 2 then y + 1 else y, m, d)

def splitOnce (sep : Char) (text : List Char) : Option (List Char × List Char) :=
  match text.dropWhile (· != sep) with
  | [] => none
  | _ :: rest => some (text.takeWhile (· != sep), rest)

def parseIsoDate (s : List Char) : Except JsonError Int64 := do
  let bad : JsonError := .date (String.ofList s)
  let num := fun t => (parseI64 t).elim (Except.error bad) Except.ok
  let rest := s.dropWhile (· != 'T')
  match (s.takeWhile (· != 'T')).splitOn '-' with
  | [y, m, d] =>
    let y ← num y
    let m ← num m
    let d ← num d
    if ¬ (1 ≤ m ∧ m ≤ 12) ∨ ¬ (1 ≤ d ∧ d ≤ 31) then throw bad
    let midnight := daysFromCivil y m d * 86400000
    let time := rest.drop 1
    if time = [] then return midnight
    let isOffset := fun c => c == 'Z' || c == '+' || c == '-'
    let clock := time.takeWhile (!isOffset ·)
    let offset := time.dropWhile (!isOffset ·)
    match clock.splitOn ':' with
    | h :: mi :: parts =>
      let h ← num h
      let mi ← num mi
      let (sec, frac) ← (match parts.head? with
        | some s =>
          match splitOnce '.' s with
          | some (whole, f) => do
            let whole ← num whole
            let f3 ← num ((f ++ "000".toList).take 3)
            return (whole, f3)
          | none => do
            let s ← num s
            return (s, 0)
        | none => return (0, 0) : Except JsonError (Int64 × Int64))
      let ms := midnight + (((h * 60 + mi) * 60 + sec) * 1000 + frac)
      match offset with
      | [] => return ms
      | sign :: after =>
        if sign = 'Z' then return ms
        match splitOnce ':' after with
        | none => throw bad
        | some (oh, om) =>
          let oh ← num oh
          let om ← num om
          let off := (oh * 60 + om) * 60000
          return ms - (if sign = '+' then off else -off)
    | _ => throw bad
  | _ => throw bad

/-- An integer with zeros in front up to a width, which counts the sign. -/
def padded (width : Nat) (i : Int64) : List Char :=
  let sign := if i < 0 then ['-'] else []
  let digits := Nat.toDigits 10 i.toInt.natAbs
  sign ++ List.replicate (width - sign.length - digits.length) '0' ++ digits

def formatIsoDate (ms : Int64) : List Char :=
  let days := Int64.ofInt (ms.toInt / 86400000)
  let rem := Int64.ofInt (ms.toInt % 86400000)
  let (y, m, d) := civilFromDays days
  padded 4 y ++ '-' :: padded 2 m ++ '-' :: padded 2 d ++ 'T' :: padded 2 (rem / 3600000) ++
    ':' :: padded 2 (rem / 60000 % 60) ++ ':' :: padded 2 (rem / 1000 % 60) ++
    '.' :: padded 3 (rem % 1000) ++ ['Z']

/-! ## Reading -/

/-- serde_json, as far as `value.rs` uses it. -/
structure SerdeJson where
  fromStr : String → Option (Json UInt64)
  tokens : Json.Tokens UInt64

/-- `Raw`: JSON as parsed, fields in order. -/
inductive Raw where
  | null
  | bool (b : Bool)
  | int (i : Int64)
  | double (bits : UInt64)
  | string (s : String)
  | array (items : List Raw)
  | object (fields : List (String × Raw))

/-- `visit_u64` and `visit_i64`. -/
def Raw.ofInt (i : Int) : Raw :=
  if i < 2 ^ 63 then .int (Int64.ofInt i) else .double (Binary64.ofInt i)

mutual

/-- What `RawVisitor` makes of JSON: a field that an object has already is an error. -/
def Raw.ofJson : Json UInt64 → Except JsonError Raw
  | .null => .ok .null
  | .bool b => .ok (.bool b)
  | .int i => .ok (Raw.ofInt i)
  | .double d => .ok (.double d)
  | .string s => .ok (.string s)
  | .array items => do
    let items ← Raw.ofItems items
    return .array items
  | .object fields => do
    let fields ← Raw.ofFields [] fields
    return .object fields

def Raw.ofItems : List (Json UInt64) → Except JsonError (List Raw)
  | [] => .ok []
  | j :: js => do
    let r ← Raw.ofJson j
    let rs ← Raw.ofItems js
    return r :: rs

/-- `seen`: the names so far. -/
def Raw.ofFields (seen : List String) : List (String × Json UInt64) →
    Except JsonError (List (String × Raw))
  | [] => .ok []
  | (k, j) :: fields => do
    let r ← Raw.ofJson j
    if k ∈ seen then throw (.duplicateField k)
    let rest ← Raw.ofFields (k :: seen) fields
    return (k, r) :: rest

end

/-- `f64::NAN`, `f64::INFINITY` and `f64::NEG_INFINITY`. -/
def nan : UInt64 := 0x7FF8000000000000
def infinity : UInt64 := 0x7FF0000000000000
def negInfinity : UInt64 := 0xFFF0000000000000

/-- `as i64`, which stops at the largest and the smallest. -/
def asI64 (d : UInt64) : Int64 :=
  if Binary64.isNan d then 0
  else if Binary64.trunc d < -2 ^ 63 then Int64.minValue
  else if Binary64.trunc d < 2 ^ 63 then Int64.ofInt (Binary64.trunc d)
  else Int64.maxValue

/-- The names that `extended` knows. -/
def wrapperKeys : List String := ["$oid", "$date", "$numberLong", "$numberInt", "$numberDouble"]

section FromJson

variable (parseF64 : String → Option UInt64)

/-- `extended`: one wrapper, or nothing when `key` is not one. -/
def extended (key : String) (value : Raw) : Except JsonError (Option Value) :=
  let bad : JsonError := .wrapper key
  let text : Except JsonError String :=
    match value with
    | .string s => .ok s
    | _ => .error bad
  let number := fun s : String => (parseI64 s.toList).elim (Except.error bad) Except.ok
  if key = "$oid" then do
    let hex ← text
    let id ← ObjectId.parse hex.toList
    return some (.objectId id)
  else if key = "$date" then do
    let ms ← (match value with
      | .int ms => .ok ms
      | .double ms => .ok (asI64 ms)
      | .string s => parseIsoDate s.toList
      | .object [(k, .string s)] => if k = "$numberLong" then number s else .error bad
      | _ => .error bad : Except JsonError Int64)
    return some (.date ms)
  else if key = "$numberLong" ∨ key = "$numberInt" then do
    let i ← text >>= number
    return some (.int i)
  else if key = "$numberDouble" then do
    let s ← text
    if s = "NaN" then return some (.double nan)
    else if s = "Infinity" then return some (.double infinity)
    else if s = "-Infinity" then return some (.double negInfinity)
    else
      let d ← (parseF64 s).elim (Except.error bad) Except.ok
      return some (.double d)
  else .ok none

/-- The value that an object of one field stands for. -/
def wrapped (fields : List (String × Raw)) : Except JsonError (Option Value) :=
  match fields with
  | [(key, value)] =>
    if key.toList.head? = some '$' then extended parseF64 key value else .ok none
  | _ => .ok none

mutual

def Raw.intoValue : Raw → Except JsonError Value
  | .null => .ok .null
  | .bool b => .ok (.bool b)
  | .int i => .ok (.int i)
  | .double d => .ok (.double d)
  | .string s => .ok (.string s)
  | .array items => do
    let items ← Raw.intoItems items
    return .array items
  | .object fields => do
    match ← wrapped parseF64 fields with
    | some v => return v
    | none =>
      let fields ← Raw.intoFields fields
      return .document fields

def Raw.intoItems : List Raw → Except JsonError (List Value)
  | [] => .ok []
  | r :: rs => do
    let v ← Raw.intoValue r
    let vs ← Raw.intoItems rs
    return v :: vs

def Raw.intoFields : List (String × Raw) → Except JsonError (List (String × Value))
  | [] => .ok []
  | (k, r) :: fields => do
    let v ← Raw.intoValue r
    let rest ← Raw.intoFields fields
    return (k, v) :: rest

end

def fromJson (serde : SerdeJson) (json : String) : Except JsonError Value := do
  let j ← (serde.fromStr json).elim (Except.error .json) Except.ok
  let raw ← Raw.ofJson j
  raw.intoValue parseF64

end FromJson

/-! ## Writing -/

/-- A text in quotes as the one field of an object. -/
def wrapper (key : String) (text : List Char) : List Char :=
  '{' :: '"' :: key.toList ++ '"' :: ':' :: '"' :: text ++ ['"', '}']

section ToJson

variable (serde : SerdeJson)

mutual

def writeJson : Value → List Char
  | .null => "null".toList
  | .bool b => (if b then "true" else "false").toList
  | .int i => (toString i.toInt).toList
  | .double d =>
    if Binary64.isFinite d then serde.tokens.double d
    else
      wrapper "$numberDouble"
        (if Binary64.isNan d then "NaN"
          else if Binary64.partialCmp d 0 = some .gt then "Infinity" else "-Infinity").toList
  | .string s => serde.tokens.string s
  | .objectId id => wrapper "$oid" id.toHex
  | .date ms => wrapper "$date" (formatIsoDate ms)
  | .array items => '[' :: writeItems true items ++ [']']
  | .document fields => '{' :: writeFields true fields ++ ['}']

def writeItems (first : Bool) : List Value → List Char
  | [] => []
  | v :: vs => (if first then [] else [',']) ++ writeJson v ++ writeItems false vs

def writeFields (first : Bool) : List (String × Value) → List Char
  | [] => []
  | (k, v) :: fields =>
    (if first then [] else [',']) ++ serde.tokens.string k ++ ':' :: writeJson v ++
      writeFields false fields

end

def toJson (v : Value) : String := String.ofList (writeJson serde v)

end ToJson

end SquealDb.Doc
