import SquealDb.Codec.ValueItem
import SquealDb.Lib.OrderCode

/-!
# Keys as bytes

`keycode.rs`: a key as bytes that compare as the key does.  A key is its kind,
then (for a record key) its fields one after another, each ending where its own
bytes say.  A page keeps a record key as its fields' bytes alone if no string or
blob of it holds a 00, and searches by the first 16 bytes of every key.

The bytes are written to a `Sink`: a vector, a buffer that starts on the stack,
or the 16 bytes of a prefix.  The iterators over a key's fields are the lists of
what they give; the loops over what is left of the bytes take as fuel how many
there are, as a field takes at least its tag.
-/

namespace SquealDb.Codec.KeyCode

open Lib

def tagRec : UInt8 := 0x01
def tagNull : UInt8 := 0x02
def tagFalse : UInt8 := 0x03
def tagTrue : UInt8 := 0x04
def tagIntZero : UInt8 := 0x18
def tagDouble : UInt8 := 0x21
def tagDatetime : UInt8 := 0x30
def tagStr : UInt8 := 0x40
def tagBlob : UInt8 := 0x41
def tagRowId : UInt8 := 0xE0

/-- `END`. -/
def endByte : UInt8 := 0x00
/-- `ESCAPED`. -/
def escapedByte : UInt8 := 0xFF

/-! ## Writing -/

/-- Where a key's bytes are written. -/
class Sink (σ : Type) where
  push : σ → UInt8 → σ
  extend : σ → List UInt8 → σ

export Sink (push extend)

def leadingZeros (v : UInt64) : Nat := if v = 0 then 64 else 63 - v.toNat.log2

def toBeBytes (v : UInt64) : List UInt8 := beBytes 8 v.toNat

def significant (v : UInt64) : Nat := 8 - leadingZeros v / 8

def unsignedAbs (v : Int64) : UInt64 := UInt64.ofNat v.toInt.natAbs

/-- `1 << 63`. -/
def signBit : UInt64 := (1 : UInt64) <<< 63

/-- A double's bits in an order that unsigned comparison gives. -/
def orderedBits (bits : UInt64) : UInt64 :=
  if bits >>> 63 = 0 then bits ^^^ signBit else ~~~bits

section Put

variable {σ : Type} [Sink σ]

def putUnsigned (out : σ) (base : UInt8) (v : UInt64) : σ :=
  let n := significant v
  extend (push out (base + UInt8.ofNat n)) ((toBeBytes v).drop (8 - n))

def putInteger (out : σ) (v : Int64) : σ :=
  if v ≥ 0 then putUnsigned out tagIntZero v.toUInt64
  else
    let magnitude := unsignedAbs v
    let n := significant magnitude
    extend (push out (tagIntZero - UInt8.ofNat n)) ((toBeBytes (~~~magnitude)).drop (8 - n))

/-- The loop of `put_bytes`, which copies runs between zeros, byte by byte. -/
def putEscaped (out : σ) : List UInt8 → σ
  | [] => out
  | b :: rest =>
    if b = endByte then putEscaped (push (push out b) escapedByte) rest
    else putEscaped (push out b) rest

def putBytes (out : σ) (tag : UInt8) (bytes : List UInt8) : σ :=
  push (putEscaped (push out tag) bytes) endByte

def putField (out : σ) : ValueItem → σ
  | .null => push out tagNull
  | .boolean b => push out (if b then tagTrue else tagFalse)
  | .integer i => putInteger out i
  | .double bits => extend (push out tagDouble) (toBeBytes (orderedBits bits))
  | .datetime t => putUnsigned out tagDatetime t
  | .str s _ => putBytes out tagStr (asBytes s)
  | .blob b _ => putBytes out tagBlob b

end Put

instance : Sink (List UInt8) where
  push out byte := out ++ [byte]
  extend out bytes := out ++ bytes

def encodeRecord (fields : List ValueItem) (out : List UInt8) : List UInt8 :=
  fields.foldl putField (push out tagRec)

def encode (id : DBIdType) (out : List UInt8) : List UInt8 :=
  match id with
  | .int n => putUnsigned out tagRowId n
  | .record key => encodeRecord key out

/-! ## A record key as a page keeps it -/

/-- `KeyBuf`: in place up to 120 bytes, on the heap past that. -/
structure KeyBuf where
  stack : List UInt8
  heap : List UInt8
  fits : stack.length ≤ 120

namespace KeyBuf

def new : KeyBuf := ⟨[], [], by decide⟩

def bytes (k : KeyBuf) : List UInt8 := if k.heap.isEmpty then k.stack else k.heap

def extend (k : KeyBuf) (bytes : List UInt8) : KeyBuf :=
  if h : k.heap.isEmpty ∧ k.stack.length + bytes.length ≤ 120 then
    { stack := k.stack ++ bytes
      heap := k.heap
      fits := by
        rw [List.length_append]
        exact h.2 }
  else if k.heap.isEmpty then { k with heap := k.stack ++ bytes }
  else { k with heap := k.heap ++ bytes }

end KeyBuf

instance : Sink KeyBuf where
  push out byte := out.extend [byte]
  extend := KeyBuf.extend

def stored (fields : List ValueItem) : KeyBuf := fields.foldl putField KeyBuf.new

/-- What `stored_len` counts for one field; `none` if it holds a 00. -/
def storedFieldLen : ValueItem → Option Nat
  | .null | .boolean _ => some 1
  | .integer i => some (1 + significant (unsignedAbs i))
  | .datetime t => some (1 + significant t)
  | .double _ => some 9
  | .str s _ => if (asBytes s).contains endByte then none else some ((asBytes s).length + 2)
  | .blob b _ => if b.contains endByte then none else some (b.length + 2)

def storedLen : List ValueItem → Option Nat
  | [] => some 0
  | f :: fields => do
    let len ← storedFieldLen f
    let rest ← storedLen fields
    return len + rest

def storedInto (fields : List ValueItem) (out : List UInt8) : List UInt8 :=
  fields.foldl putField out

/-- Whether a string or blob holds a 00. -/
def holdsEnd : ValueItem → Bool
  | .str s _ => (asBytes s).contains endByte
  | .blob b _ => b.contains endByte
  | _ => false

def putStored (field : ValueItem) (out : List UInt8) : List UInt8 × Bool :=
  if holdsEnd field then (out, false) else (putField out field, true)

/-- `put_stored` of one field after another. -/
def putStoredAll (fields : List ValueItem) : List UInt8 :=
  fields.foldl (fun out f => (putStored f out).1) []

/-! ## Reading -/

def damaged (what : String) : StoreError := .corruption ("key bytes: " ++ what)

/-- `i64::try_from(u64)`. -/
def tryI64 (v : UInt64) : Option Int64 := if v.toNat < 2 ^ 63 then some v.toInt64 else none

/-- The magnitude that `n` flipped bytes hold. -/
def unflip (n : Nat) (flipped : UInt64) : UInt64 :=
  let mask : UInt64 := if n = 8 then 0xFFFFFFFFFFFFFFFF else UInt64.ofNat (2 ^ (8 * n) - 1)
  ~~~flipped &&& mask

/-- The bits an ordered double was written from. -/
def unorderedBits (ordered : UInt64) : UInt64 :=
  if ordered >>> 63 = 1 then ordered ^^^ signBit else ~~~ordered

/-- `Field`, as `to_owned` gives it: a string or blob with a capacity of its
length. -/
abbrev Field := ValueItem

def takeUnsigned (bytes : List UInt8) (n : Nat) : Except StoreError (UInt64 × List UInt8) :=
  if n ≤ bytes.length then .ok (UInt64.ofNat (ofBe (bytes.take n)), bytes.drop n)
  else .error (damaged "a number cut short")

def takeBytes (bytes : List UInt8) : Except StoreError (List UInt8 × List UInt8) :=
  match unescape endByte escapedByte bytes with
  | some p => .ok p
  | none => .error (damaged "a string or blob with no end")

def readField (tag : UInt8) (rest : List UInt8) : Except StoreError (Field × List UInt8) :=
  if tag = tagNull then .ok (.null, rest)
  else if tag = tagFalse then .ok (.boolean false, rest)
  else if tag = tagTrue then .ok (.boolean true, rest)
  else if tag = tagDouble then do
    let (ordered, rest) ← takeUnsigned rest 8
    return (.double (unorderedBits ordered), rest)
  else if tag = tagStr then do
    let (bytes, rest) ← takeBytes rest
    match fromUtf8 bytes with
    | some s => return (.str s (UInt32.ofNat bytes.length), rest)
    | none => throw (damaged "a string not UTF-8")
  else if tag = tagBlob then do
    let (bytes, rest) ← takeBytes rest
    return (.blob bytes (UInt32.ofNat bytes.length), rest)
  else if tagIntZero ≤ tag ∧ tag ≤ tagIntZero + 8 then do
    let (v, rest) ← takeUnsigned rest (tag - tagIntZero).toNat
    match tryI64 v with
    | some v => return (.integer v, rest)
    | none => throw (damaged "an integer past i64")
  else if tagIntZero - 8 ≤ tag ∧ tag < tagIntZero then do
    let n := (tagIntZero - tag).toNat
    let (flipped, rest) ← takeUnsigned rest n
    let magnitude := unflip n flipped
    if magnitude > signBit then throw (damaged "an integer below i64")
    else return (.integer (-magnitude.toInt64), rest)
  else if tagDatetime ≤ tag ∧ tag ≤ tagDatetime + 8 then do
    let (t, rest) ← takeUnsigned rest (tag - tagDatetime).toNat
    return (.datetime t, rest)
  else .error (damaged "an unknown field tag")

/-- `Fields`, collected. -/
def readFields : Nat → List UInt8 → Except StoreError (List Field)
  | _, [] => .ok []
  | 0, _ :: _ => .ok []
  | fuel + 1, tag :: rest => do
    let (field, rest) ← readField tag rest
    let fields ← readFields fuel rest
    return field :: fields

inductive Key where
  | rowId (n : UInt64)
  | record (fields : List UInt8)

def read : List UInt8 → Except StoreError Key
  | tag :: rest =>
    if tag = tagRec then .ok (.record rest)
    else if tagRowId ≤ tag ∧ tag ≤ tagRowId + 8 then do
      let (n, rest) ← takeUnsigned rest (tag - tagRowId).toNat
      if rest.isEmpty then return .rowId n else throw (damaged "bytes after a row id")
    else .error (damaged "no key kind")
  | [] => .error (damaged "no key kind")

def decode (bytes : List UInt8) : Except StoreError DBIdType := do
  match ← read bytes with
  | .rowId n => return .int n
  | .record fields =>
    let values ← readFields fields.length fields
    let key ← IndexKey.newFromOwned values
    return .record key

/-! ## Reading a stored key -/

/-- The closure of `stored_field`: `n` big-endian bytes, folded. -/
def storedUnsigned (rest : List UInt8) (n : Nat) : Option (UInt64 × List UInt8) :=
  if n ≤ rest.length then
    some ((rest.take n).foldl (fun v b => (v <<< 8) ||| b.toUInt64) 0, rest.drop n)
  else none

/-- `stored_field`, which checks that a string is UTF-8. -/
def storedField (tag : UInt8) (rest : List UInt8) : Option (ValueItem × List UInt8) :=
  if tag = tagNull then some (.null, rest)
  else if tag = tagFalse then some (.boolean false, rest)
  else if tag = tagTrue then some (.boolean true, rest)
  else if tag = tagDouble then do
    let (ordered, rest) ← storedUnsigned rest 8
    return (.double (unorderedBits ordered), rest)
  else if tag = tagStr ∨ tag = tagBlob then do
    let stop ← rest.findIdx? (· == endByte)
    let content := rest.take stop
    let after := rest.drop (stop + 1)
    if tag = tagBlob then return (.blob content (UInt32.ofNat content.length), after)
    else
      let s ← fromUtf8 content
      return (.str s (UInt32.ofNat content.length), after)
  else if tagIntZero ≤ tag ∧ tag ≤ tagIntZero + 8 then do
    let (v, rest) ← storedUnsigned rest (tag - tagIntZero).toNat
    let v ← tryI64 v
    return (.integer v, rest)
  else if tagIntZero - 8 ≤ tag ∧ tag < tagIntZero then do
    let n := (tagIntZero - tag).toNat
    let (flipped, rest) ← storedUnsigned rest n
    let magnitude := unflip n flipped
    if magnitude > signBit then none else return (.integer (-magnitude.toInt64), rest)
  else if tagDatetime ≤ tag ∧ tag ≤ tagDatetime + 8 then do
    let (t, rest) ← storedUnsigned rest (tag - tagDatetime).toNat
    return (.datetime t, rest)
  else none

/-- `StoredKey::check`. -/
def storedCheck : Nat → List UInt8 → Except StoreError Unit
  | _, [] => .ok ()
  | 0, _ :: _ => .ok ()
  | fuel + 1, tag :: rest =>
    match storedField tag rest with
    | some (_, rest) => storedCheck fuel rest
    | none => .error (damaged "a stored key")

/-- `StoredValues`: the key just ends where a field does not read. -/
def storedValues : Nat → List UInt8 → List ValueItem
  | _, [] => []
  | 0, _ :: _ => []
  | fuel + 1, tag :: rest =>
    match storedField tag rest with
    | some (value, rest) => value :: storedValues fuel rest
    | none => []

structure StoredKey where
  bytes : List UInt8
  deriving DecidableEq, Repr

namespace StoredKey

def check (k : StoredKey) : Except StoreError Unit := storedCheck k.bytes.length k.bytes

def values (k : StoredKey) : List ValueItem := storedValues k.bytes.length k.bytes

end StoredKey

def storedToId (bytes : List UInt8) : Except StoreError DBIdType := do
  let key := StoredKey.mk bytes
  key.check
  let values ← IndexKey.newFromOwned key.values
  return .record values

/-! ## The first 16 bytes -/

/-- `Prefix`: what has been written of the 16 bytes. -/
structure Prefix where
  bytes : List UInt8
  fits : bytes.length ≤ 16

namespace Prefix

def new : Prefix := ⟨[], by decide⟩

def extend (p : Prefix) (bytes : List UInt8) : Prefix where
  bytes := p.bytes ++ bytes.take (16 - p.bytes.length)
  fits := by
    have hfits := p.fits
    rw [List.length_append, List.length_take]
    omega

/-- `u128::from_be_bytes` of the 16 bytes, those not written being 00. -/
def value (p : Prefix) : Nat := ofBe (p.bytes ++ List.replicate (16 - p.bytes.length) 0)

end Prefix

instance : Sink Prefix where
  push out byte := out.extend [byte]
  extend := Prefix.extend

def rowIdPrefix (n : UInt64) : Nat := (putUnsigned Prefix.new tagRowId n).value

def storedPrefix (stored : List UInt8) : Nat := (extend (push Prefix.new tagRec) stored).value

/-- The loop of `fields_prefix`, which stops once the prefix is full. -/
def putPrefixFields (out : Prefix) : List ValueItem → Prefix
  | [] => out
  | f :: fields =>
    if out.bytes.length = 16 then out else putPrefixFields (putField out f) fields

def fieldsPrefix (fields : List ValueItem) : Nat :=
  (putPrefixFields (push Prefix.new tagRec) fields).value

def prefixOrder (a b : Nat) : Option Ordering :=
  if a ≠ b then some (compare a b)
  else if a / 2 ^ 120 ≥ tagRowId.toNat then some .eq else none

end SquealDb.Codec.KeyCode
