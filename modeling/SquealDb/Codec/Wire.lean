import SquealDb.Codec.KeyCode
import SquealDb.Lib.ByteReader
import SquealDb.Lib.Varint

/-!
# Tuples as bytes

`Tuple` of `tuple.rs` with its one-pass encoder and its size counter, and the
reader of `wire.rs` that locates a tuple's fields in its bytes.

`Postcard` is the layout the serde implementations have under postcard's rules,
as `wire.rs` writes them down: a `u8` or `bool` is one byte, another integer a
LEB128 varint (zigzagged if signed), an `f64` its eight little-endian bytes, a
string, byte string or sequence a varint length and its contents, an option one
byte and then the value, a tuple or struct its fields back to back.

`usize` has 64 bits.  A key read in place is checked for UTF-8 whenever a value
of it is read; the source skips that where the bytes were checked before.
-/

namespace SquealDb.Codec

open Lib KeyCode

/-- `Tuple`, without the cached size. -/
structure Tuple where
  id : DBIdType
  txnId : Option UInt64
  preLsn : Option UInt64
  data : List UInt8
  flags : UInt8
  deriving DecidableEq, Repr

/-! ## The layout -/

namespace Postcard

/-- An unsigned integer. -/
def unsigned (v : UInt64) : List UInt8 := leb128 v.toNat

/-- A signed integer: its zigzag code. -/
def signed (v : Int64) : List UInt8 :=
  leb128 (if 0 ≤ v.toInt then 2 * v.toInt.natAbs else 2 * v.toInt.natAbs - 1)

/-- A length. -/
def len (n : Nat) : List UInt8 := unsigned (UInt64.ofNat n)

/-- A string, byte string or sequence of bytes. -/
def bytes (b : List UInt8) : List UInt8 := len b.length ++ b

def option : Option UInt64 → List UInt8
  | none => [0]
  | some v => 1 :: unsigned v

/-- `ValueItem::serialize`. -/
def value : ValueItem → List UInt8
  | .null => [0]
  | .integer i => 1 :: signed i
  | .double bits => 2 :: leBytes 8 bits.toNat
  | .datetime t => 3 :: unsigned t
  | .str s cap => 4 :: (bytes (asBytes s) ++ unsigned cap.toUInt64)
  | .blob b cap => 5 :: (bytes b ++ unsigned cap.toUInt64)
  | .boolean b => [6, if b then 1 else 0]

/-- `IndexKey::serialize`. -/
def key (k : IndexKey) : List UInt8 := len k.length ++ k.flatMap value

/-- `DBIdType::serialize`. -/
def id : DBIdType → List UInt8
  | .int n => 0 :: unsigned n
  | .record k =>
    if (storedLen k).isSome then 2 :: bytes (stored k).bytes else 1 :: key k

/-- `Tuple::serialize`, the derived one. -/
def tuple (t : Tuple) : List UInt8 :=
  id t.id ++ option t.txnId ++ option t.preLsn ++ bytes t.data ++ [t.flags]

end Postcard

/-! ## Encoding -/

/-- The loop of `put_varint`: a number has at most ten groups of seven bits. -/
def putVarintLoop : Nat → List UInt8 → UInt64 → List UInt8
  | 0, out, v => out ++ [v.toUInt8]
  | fuel + 1, out, v =>
    if v ≥ 0x80 then putVarintLoop fuel (out ++ [v.toUInt8 ||| 0x80]) (v >>> 7)
    else out ++ [v.toUInt8]

def putVarint (out : List UInt8) (v : UInt64) : List UInt8 := putVarintLoop 9 out v

def varintLen (v : UInt64) : Nat := (64 - leadingZeros (v ||| 1) + 6) / 7

namespace Tuple

/-- The option of `encoded_len`. -/
def optionLen (v : Option UInt64) : Nat := 1 + (v.map varintLen).getD 0

/-- The id of `encoded_len`; `serialized_size` counts the bytes postcard writes. -/
def idLen (id : DBIdType) : Nat :=
  match id with
  | .int n => 1 + varintLen n
  | .record k =>
    match storedLen k with
    | some len => 1 + varintLen (UInt64.ofNat len) + len
    | none => (Postcard.id id).length

def encodedLen (t : Tuple) : Nat :=
  idLen t.id + optionLen t.txnId + optionLen t.preLsn + varintLen (UInt64.ofNat t.data.length) +
    t.data.length + 1

/-- The options of `encode_into`. -/
def putOption (out : List UInt8) : Option UInt64 → List UInt8
  | some v => putVarint (out ++ [1]) v
  | none => out ++ [0]

/-- The id of `encode_into`; `to_extend` appends what postcard writes. -/
def putId (out : List UInt8) (id : DBIdType) : List UInt8 :=
  match id with
  | .int n => putVarint (out ++ [0]) n
  | .record k =>
    match storedLen k with
    | some len => storedInto k (putVarint (out ++ [2]) (UInt64.ofNat len))
    | none => out ++ Postcard.id id

def encodeInto (t : Tuple) (out : List UInt8) : List UInt8 :=
  let out := putOption (putOption (putId out t.id) t.txnId) t.preLsn
  putVarint out (UInt64.ofNat t.data.length) ++ t.data ++ [t.flags]

end Tuple

/-! ## Reading -/

/-- `WireKey`: an `IndexKey`'s values as they are encoded. -/
structure WireKey where
  count : Nat
  bytes : List UInt8
  deriving DecidableEq, Repr

inductive WireId where
  | int (n : UInt64)
  | record (k : WireKey)
  | stored (k : StoredKey)
  deriving DecidableEq, Repr

abbrev Reader := ByteReader

namespace Reader

def take (n : Nat) : Reader (List UInt8) := ByteReader.take n

def byte : Reader UInt8 := ByteReader.byte

/-- The loop of `varint`, over the shifts that are left. -/
def varintLoop (out : UInt64) : List UInt64 → Reader UInt64
  | [] => failure
  | shift :: shifts => do
    let b ← byte
    let out := out ||| ((b &&& 0x7F).toUInt64 <<< shift)
    if b &&& 0x80 = 0 then return out else varintLoop out shifts

def varint : Reader UInt64 := do
  let first ← byte
  if first < 0x80 then return first.toUInt64
  else varintLoop (first &&& 0x7F).toUInt64 [7, 14, 21, 28, 35, 42, 49, 56, 63]

def signed : Reader Int64 := do
  let n ← varint
  return (n >>> 1).toInt64 ^^^ -(n &&& 1).toInt64

def sized : Reader (List UInt8) := do
  let n ← varint
  take n.toNat

def option : Reader (Option UInt64) := do
  let tag ← byte
  if tag = 0 then return none
  else if tag = 1 then do
    let v ← varint
    return some v
  else failure

def value : Reader ValueItem := do
  let tag ← byte
  match tag with
  | 0 => return .null
  | 1 => do
    let i ← signed
    return .integer i
  | 2 => do
    let bytes ← take 8
    return .double (UInt64.ofNat (ofLe bytes))
  | 3 => do
    let t ← varint
    return .datetime t
  | 4 => do
    let bytes ← sized
    match fromUtf8 bytes with
    | some s => do
      let cap ← varint
      return .str s cap.toUInt32
    | none => failure
  | 5 => do
    let bytes ← sized
    let cap ← varint
    return .blob bytes cap.toUInt32
  | 6 => do
    let b ← byte
    match b with
    | 0 => return .boolean false
    | 1 => return .boolean true
    | _ => failure
  | _ => failure

/-- `skip_value`: `value` without the check that a string is UTF-8. -/
def skipValue : Reader Unit := do
  let tag ← byte
  match tag with
  | 0 => return ()
  | 1 | 3 => do
    let _ ← varint
    return ()
  | 2 => do
    let _ ← take 8
    return ()
  | 4 | 5 => do
    let _ ← sized
    let _ ← varint
    return ()
  | 6 => do
    let b ← byte
    if b > 1 then failure else return ()
  | _ => failure

/-- The loop of `id`. -/
def skipValues : Nat → Reader Unit
  | 0 => return ()
  | n + 1 => do
    skipValue
    skipValues n

/-- Where the reader is. -/
def position : Reader Nat := fun _ pos => some (pos, pos)

/-- `&self.bytes[start..self.pos]`. -/
def since (start : Nat) : Reader (List UInt8) := fun bytes pos =>
  some ((bytes.drop start).take (pos - start), pos)

def id : Reader WireId := do
  let tag ← byte
  match tag with
  | 0 => do
    let n ← varint
    return .int n
  | 2 => do
    let bytes ← sized
    return .stored ⟨bytes⟩
  | 1 => do
    let count ← varint
    let start ← position
    skipValues count.toNat
    let bytes ← since start
    return .record ⟨count.toNat, bytes⟩
  | _ => failure

end Reader

def malformed : StoreError := .unknownError "malformed tuple bytes"

namespace WireKey

def sameBytes (k other : WireKey) : Bool := k.count == other.count && k.bytes == other.bytes

/-- The loop of `check`. -/
def checkFrom (bytes : List UInt8) : Nat → Nat → Except StoreError Unit
  | 0, _ => .ok ()
  | left + 1, pos =>
    match Reader.value bytes pos with
    | some (_, pos) => checkFrom bytes left pos
    | none => .error malformed

def check (k : WireKey) : Except StoreError Unit := checkFrom k.bytes k.count 0

/-- `WireValues`: the key just ends where a value does not read. -/
def valuesFrom (bytes : List UInt8) : Nat → Nat → List ValueItem
  | 0, _ => []
  | left + 1, pos =>
    match Reader.value bytes pos with
    | some (v, pos) => v :: valuesFrom bytes left pos
    | none => []

def values (k : WireKey) : List ValueItem := valuesFrom k.bytes k.count 0

end WireKey

structure WireTuple where
  id : WireId
  txnId : Option UInt64
  preLsn : Option UInt64
  data : List UInt8
  flags : UInt8
  deriving DecidableEq, Repr

def idEnd (bytes : List UInt8) : Except StoreError Nat :=
  match Reader.id bytes 0 with
  | some (_, pos) => .ok pos
  | none => .error malformed

/-- `bytes.get(from..to)`. -/
def getRange (bytes : List UInt8) (start stop : Nat) : Option (List UInt8) :=
  if start ≤ stop ∧ stop ≤ bytes.length then some ((bytes.drop start).take (stop - start)) else none

theorem getRange_append (before content after : List UInt8) :
    getRange (before ++ (content ++ after)) before.length (before.length + content.length) =
      some content := by
  have hle : before.length ≤ before.length + content.length ∧
      before.length + content.length ≤ (before ++ (content ++ after)).length := by
    simp only [List.length_append]
    omega
  rw [getRange, if_pos hle, List.drop_left, Nat.add_sub_cancel_left, List.take_left]

def idEnding (bytes : List UInt8) (idEnd : Nat) : Option WireId := do
  let (tag, pos) ← Reader.byte bytes 0
  match tag with
  | 0 => do
    let (n, _) ← Reader.varint bytes pos
    return .int n
  | 1 => do
    let (count, pos) ← Reader.varint bytes pos
    let bytes ← getRange bytes pos idEnd
    return .record ⟨count.toNat, bytes⟩
  | 2 => do
    let (_, pos) ← Reader.varint bytes pos
    let bytes ← getRange bytes pos idEnd
    return .stored ⟨bytes⟩
  | _ => none

def tupleIdEnding (bytes : List UInt8) (idEnd : Nat) : Except StoreError WireId :=
  match idEnding bytes idEnd with
  | some id => .ok id
  | none => .error malformed

namespace WireTuple

/-- What follows the id. -/
def readRest (id : WireId) : Reader WireTuple := do
  let txnId ← Reader.option
  let preLsn ← Reader.option
  let data ← Reader.sized
  let flags ← Reader.byte
  return ⟨id, txnId, preLsn, data, flags⟩

def readFields (bytes : List UInt8) (idEnd : Nat) : Option WireTuple := do
  let id ← idEnding bytes idEnd
  let (t, _) ← readRest id bytes idEnd
  return t

def readAfter (bytes : List UInt8) (idEnd : Nat) : Except StoreError WireTuple :=
  match readFields bytes idEnd with
  | some t => .ok t
  | none => .error malformed

def read (bytes : List UInt8) : Except StoreError WireTuple := do
  let idEnd ← Codec.idEnd bytes
  readAfter bytes idEnd

end WireTuple

end SquealDb.Codec
