import Mathlib.Algebra.Group.Nat.Defs
import Mathlib.Algebra.Group.Int.Defs
import Mathlib.Data.List.Basic

/-!
# Values and ids

`ValueItem` and `IndexKey` of `valueitem.rs`, `DBIdType` of `tuple.rs`.

A `ValueRef` is a `ValueItem` that is lent: the two are one type here, as are a
`String` and the `str` lent from it.  A double is its 64 bits.  A string's or
blob's reserved capacity stands beside its content and takes no part in
comparing, equality or hashing.
-/

namespace SquealDb.Codec

inductive ValueItem where
  | null
  | integer (i : Int64)
  | double (bits : UInt64)
  | datetime (t : UInt64)
  | str (s : String) (cap : UInt32)
  | blob (b : List UInt8) (cap : UInt32)
  | boolean (b : Bool)
  deriving DecidableEq, Repr

/-- `IndexKey`: a record key's fields. -/
abbrev IndexKey := List ValueItem

inductive DBIdType where
  | int (n : UInt64)
  | record (key : IndexKey)
  deriving DecidableEq, Repr

/-- `StoreError`, the errors of keys, tuples and their pages. -/
inductive StoreError where
  | corruption (what : String)
  | serializationError
  | tupleTooLarge (actual max : Nat)
  | unknownError (what : String)
  | duplicateKey (id : DBIdType)
  | keyNotFound (id : DBIdType)
  | pageCapacityError
  deriving DecidableEq, Repr

def asBytes (s : String) : List UInt8 := s.toByteArray.data.toList

def fromUtf8 (bytes : List UInt8) : Option String := String.fromUTF8? ⟨bytes.toArray⟩

theorem fromUtf8_asBytes (s : String) : fromUtf8 (asBytes s) = some s := by
  have hbytes : (⟨(asBytes s).toArray⟩ : ByteArray) = s.toByteArray := by
    simp [asBytes]
  rw [fromUtf8, hbytes, String.fromUTF8?, dif_pos s.isValidUTF8]
  rfl

theorem asBytes_inj {s t : String} (h : asBytes s = asBytes t) : s = t := by
  have hs := fromUtf8_asBytes s
  rw [h, fromUtf8_asBytes] at hs
  exact (Option.some.inj hs).symm

/-- What `f64::total_cmp` compares: the bits as a signed number, those of a
negative double reversed. -/
def totalKey (bits : UInt64) : Int :=
  if bits.toNat < 2 ^ 63 then bits.toNat else 2 ^ 63 - 1 - bits.toNat

def totalCmp (a b : UInt64) : Ordering := compare (totalKey a) (totalKey b)

def dbHash (bytes : List UInt8) : UInt64 :=
  bytes.foldl (fun h b => ((h ^^^ b.toUInt64) * 0x01000193) &&& 0xFFFFFFFF) 0x811C9DC5

namespace ValueItem

def typeRank : ValueItem → Nat
  | null => 0
  | boolean _ => 1
  | integer _ => 2
  | double _ => 3
  | datetime _ => 4
  | str _ _ => 5
  | blob _ _ => 6

def cmp : ValueItem → ValueItem → Ordering
  | null, null => .eq
  | integer a, integer b => compare a b
  | double a, double b => totalCmp a b
  | datetime a, datetime b => compare a b
  | str a _, str b _ => compare (asBytes a) (asBytes b)
  | boolean a, boolean b => compare a b
  | blob a _, blob b _ => compare a b
  | a, b => compare a.typeRank b.typeRank

def eq : ValueItem → ValueItem → Bool
  | null, null => true
  | integer a, integer b => a == b
  | double a, double b => a == b
  | datetime a, datetime b => a == b
  | str a _, str b _ => a == b
  | blob a _, blob b _ => a == b
  | boolean a, boolean b => a == b
  | _, _ => false

def hash : ValueItem → UInt64
  | null => 0
  | integer i => i.toUInt64
  | double bits => bits
  | datetime t => t
  | str s _ => dbHash (asBytes s)
  | blob b _ => dbHash b
  | boolean b => if b then 1 else 0

def validate : ValueItem → Except StoreError Unit
  | str s cap =>
    if UInt32.ofNat (asBytes s).length > cap then
      .error (.tupleTooLarge (asBytes s).length cap.toNat)
    else .ok ()
  | blob b cap =>
    if UInt32.ofNat b.length > cap then .error (.tupleTooLarge b.length cap.toNat) else .ok ()
  | _ => .ok ()

/-- The value with the capacity of a string or blob set to its length, as one read
from a key's bytes has it. -/
def tight : ValueItem → ValueItem
  | str s _ => str s (UInt32.ofNat (asBytes s).length)
  | blob b _ => blob b (UInt32.ofNat b.length)
  | v => v

theorem eq_refl (v : ValueItem) : v.eq v = true := by
  cases v with
  | null => rfl
  | integer i => exact beq_self_eq_true i
  | double bits => exact beq_self_eq_true bits
  | datetime t => exact beq_self_eq_true t
  | str s cap => exact beq_self_eq_true s
  | blob b cap => exact beq_self_eq_true b
  | boolean b => exact beq_self_eq_true b

/-- Equal values are the same but for a capacity. -/
theorem eq_iff_tight (v w : ValueItem) : v.eq w = true ↔ v.tight = w.tight := by
  cases v with
  | str s cap =>
    cases w with
    | str t cap' =>
      simp only [eq, tight, beq_iff_eq, str.injEq]
      constructor
      · rintro rfl
        exact ⟨rfl, rfl⟩
      · exact And.left
    | null | integer _ | double _ | datetime _ | blob _ _ | boolean _ => simp [eq, tight]
  | blob b cap =>
    cases w with
    | blob c cap' =>
      simp only [eq, tight, beq_iff_eq, blob.injEq]
      constructor
      · rintro rfl
        exact ⟨rfl, rfl⟩
      · exact And.left
    | null | integer _ | double _ | datetime _ | str _ _ | boolean _ => simp [eq, tight]
  | null => cases w <;> simp [eq, tight]
  | integer i => cases w <;> simp [eq, tight]
  | double bits => cases w <;> simp [eq, tight]
  | datetime t => cases w <;> simp [eq, tight]
  | boolean b => cases w <;> simp [eq, tight]

theorem cmp_tight (v w : ValueItem) : v.tight.cmp w.tight = v.cmp w := by
  cases v <;> cases w <;> rfl

theorem hash_tight (v : ValueItem) : v.tight.hash = v.hash := by
  cases v <;> rfl

theorem tight_tight (v : ValueItem) : v.tight.tight = v.tight := by
  cases v <;> rfl

end ValueItem

namespace IndexKey

/-- `IndexKey::new_from_owned`: every value is validated. -/
def newFromOwned (data : List ValueItem) : Except StoreError IndexKey := do
  data.forM ValueItem.validate
  return data

/-- The derived `==`: as many values, and each equal. -/
def eq : IndexKey → IndexKey → Bool
  | [], [] => true
  | a :: as, b :: bs => a.eq b && eq as bs
  | _, _ => false

def hashRefs (fields : List ValueItem) : UInt64 :=
  fields.foldl (fun h d => ((h ^^^ d.hash) * 0x01000193) &&& 0xFFFFFFFF) 0x811C9DC5

/-- The key with every capacity set to its content's length. -/
def tight (key : IndexKey) : IndexKey := key.map ValueItem.tight

theorem eq_iff_tight (as bs : IndexKey) : eq as bs = true ↔ tight as = tight bs := by
  induction as generalizing bs with
  | nil => cases bs <;> simp [eq, tight]
  | cons a as ih =>
    cases bs with
    | nil => simp [eq, tight]
    | cons b bs =>
      simp only [eq, Bool.and_eq_true, ValueItem.eq_iff_tight, ih, tight, List.map_cons,
        List.cons.injEq]

theorem hashRefs_tight (key : IndexKey) : hashRefs (tight key) = hashRefs key := by
  simp only [hashRefs, tight, List.foldl_map, ValueItem.hash_tight]

end IndexKey

namespace DBIdType

/-- The derived `==`. -/
def eq : DBIdType → DBIdType → Bool
  | int a, int b => a == b
  | record a, record b => IndexKey.eq a b
  | _, _ => false

def hashed : DBIdType → UInt64
  | int n => n
  | record key => IndexKey.hashRefs key

/-- The id with every capacity set to its content's length. -/
def tight : DBIdType → DBIdType
  | int n => int n
  | record key => record (IndexKey.tight key)

theorem eq_iff_tight (a b : DBIdType) : a.eq b = true ↔ a.tight = b.tight := by
  cases a <;> cases b <;> simp [eq, tight, IndexKey.eq_iff_tight]

end DBIdType

end SquealDb.Codec
