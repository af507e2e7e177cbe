import SquealDb.Codec.Wire

/-!
# Lent ids

`IdRef` and `Probe` of `tuple.rs`: an id that is borrowed, or read in place from a
tuple's bytes, with the order, equality and hash of `DBIdType`.  A key lent as its
keycode bytes is compared by them; a probe encodes its own id to compare it with
such a slot.  `order_prefix` of `anytuple.rs` is the first 16 bytes of an id, in
whatever form it is held.
-/

namespace SquealDb.Codec

open KeyCode

inductive IdRef where
  | owned (id : DBIdType)
  | wire (id : WireId)
  deriving DecidableEq, Repr

/-- The loop of `IdRef::cmp`: the key that runs out first begins the other. -/
def cmpValues : List ValueItem → List ValueItem → Ordering
  | a :: as, b :: bs =>
    match a.cmp b with
    | .eq => cmpValues as bs
    | decided => decided
  | [], [] => .eq
  | [], _ :: _ => .lt
  | _ :: _, [] => .gt

/-- The loop of `IdRef::eq`. -/
def eqValues : List ValueItem → List ValueItem → Bool
  | a :: as, b :: bs => if a.eq b then eqValues as bs else false
  | [], [] => true
  | _, _ => false

namespace IdRef

def asInt : IdRef → Option UInt64
  | owned (.int i) => some i
  | wire (.int i) => some i
  | _ => none

def keyValues : IdRef → Option (List ValueItem)
  | owned (.record k) => some k
  | wire (.record k) => some k.values
  | wire (.stored k) => some k.values
  | _ => none

def storedBytes : IdRef → Option (List UInt8)
  | wire (.stored k) => some k.bytes
  | _ => none

def toOwned : IdRef → DBIdType
  | owned id => id
  | wire (.int i) => .int i
  | wire id => .record ((keyValues (wire id)).getD [])

def hashed (r : IdRef) : UInt64 :=
  match r.keyValues with
  | some values => IndexKey.hashRefs values
  | none => r.asInt.getD 0

def cmp (r other : IdRef) : Ordering :=
  match r.storedBytes, other.storedBytes with
  | some a, some b => compare a b
  | _, _ =>
    match r.keyValues, other.keyValues with
    | some a, some b => cmpValues a b
    | none, none => compare r.asInt other.asInt
    | some _, none => .lt
    | none, some _ => .gt

/-- The part of `eq` that reads the values. -/
def eqRead (r other : IdRef) : Bool :=
  match r.keyValues, other.keyValues with
  | some a, some b => eqValues a b
  | none, none => r.asInt == other.asInt
  | _, _ => false

def eq (r other : IdRef) : Bool :=
  match r, other with
  | owned a, owned b => a.eq b
  | wire (.record a), wire (.record b) => if a.sameBytes b then true else eqRead r other
  | wire (.stored a), wire (.stored b) => a.bytes == b.bytes
  | _, _ => eqRead r other

def eqOwned (r : IdRef) (other : DBIdType) : Bool := r.eq (owned other)

end IdRef

def DBIdType.cmp (a b : DBIdType) : Ordering := (IdRef.owned a).cmp (IdRef.owned b)

/-- `Probe`: an id being looked for on a page. -/
structure Probe where
  id : IdRef

namespace Probe

/-- The probe's keycode bytes, if it is a record key that has them; computed once
in the source. -/
def bytes (p : Probe) : Option (List UInt8) :=
  match p.id.storedBytes with
  | some bytes => some bytes
  | none =>
    match p.id with
    | .owned (.record k) => if (storedLen k).isSome then some (stored k).bytes else none
    | _ => none

/-- `cmp_slot`: how the slot's id compares with this one. -/
def cmpSlot (p : Probe) (slot : IdRef) : Ordering :=
  match slot.storedBytes, p.bytes with
  | some slot, some probe => compare slot probe
  | _, _ => slot.cmp p.id

def isSlot (p : Probe) (slot : IdRef) : Bool :=
  match slot.storedBytes, p.bytes with
  | some slot, some probe => slot == probe
  | _, _ => slot.eq p.id

end Probe

def orderPrefixOf (id : IdRef) : Nat :=
  match id.storedBytes with
  | some stored => storedPrefix stored
  | none =>
    match id.keyValues with
    | some values => fieldsPrefix values
    | none => rowIdPrefix (id.asInt.getD 0)

def orderPrefix (id : DBIdType) : Nat := orderPrefixOf (.owned id)

end SquealDb.Codec
