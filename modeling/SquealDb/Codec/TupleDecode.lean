import SquealDb.Codec.LentId

/-!
# Owned tuples from bytes

`from_bytes::<Tuple>`: the `Deserialize` implementations of `Tuple`, `DBIdType`,
`IndexKey` and `ValueItem` under postcard's rules.  A varint has at most as many
bytes as its type needs, the last of them no larger than what is left of the type;
bytes behind the tuple are not looked at.  Which error postcard gives is left out.
-/

namespace SquealDb.Codec

open Lib KeyCode

namespace Postcard

/-- The loop of a varint: how many bytes may follow, what the next group counts, and
what has been read. -/
def takeVarint (last : UInt8) : Nat → Nat → Nat → Reader Nat
  | 0, _, _ => failure
  | left + 1, scale, out => do
    let val ← Reader.byte
    let out := out + (val &&& 0x7F).toNat * scale
    if val &&& 0x80 = 0 then
      if left = 0 ∧ val > last then failure else return out
    else takeVarint last left (scale * 128) out

/-- A `u64`, and a `usize`. -/
def takeU64 : Reader UInt64 := do
  let n ← takeVarint 1 10 1 0
  return UInt64.ofNat n

def takeU32 : Reader UInt32 := do
  let n ← takeVarint 15 5 1 0
  return UInt32.ofNat n

def takeI64 : Reader Int64 := do
  let n ← takeU64
  return (n >>> 1).toInt64 ^^^ -(n &&& 1).toInt64

def takeBytes : Reader (List UInt8) := do
  let n ← takeU64
  Reader.take n.toNat

def takeOption : Reader (Option UInt64) := do
  let tag ← Reader.byte
  if tag = 0 then return none
  else if tag = 1 then do
    let v ← takeU64
    return some v
  else failure

/-- `ValueItem::deserialize`. -/
def takeValue : Reader ValueItem := do
  let tag ← Reader.byte
  match tag with
  | 0 => return .null
  | 1 => do
    let i ← takeI64
    return .integer i
  | 2 => do
    let bytes ← Reader.take 8
    return .double (UInt64.ofNat (ofLe bytes))
  | 3 => do
    let t ← takeU64
    return .datetime t
  | 4 => do
    let bytes ← takeBytes
    match fromUtf8 bytes with
    | some s => do
      let cap ← takeU32
      return .str s cap
    | none => failure
  | 5 => do
    let bytes ← takeBytes
    let cap ← takeU32
    return .blob bytes cap
  | 6 => do
    let b ← Reader.byte
    match b with
    | 0 => return .boolean false
    | 1 => return .boolean true
    | _ => failure
  | _ => failure

def takeValues : Nat → Reader (List ValueItem)
  | 0 => return []
  | n + 1 => do
    let v ← takeValue
    let vs ← takeValues n
    return v :: vs

/-- `IndexKey::deserialize`. -/
def takeKey : Reader IndexKey := do
  let n ← takeU64
  takeValues n.toNat

/-- `StoredRecord::deserialize`. -/
def takeStored : Reader IndexKey := do
  let bytes ← takeBytes
  match (StoredKey.mk bytes).check with
  | .ok () => return (StoredKey.mk bytes).values
  | .error _ => failure

/-- `DBIdType::deserialize`. -/
def takeId : Reader DBIdType := do
  let tag ← Reader.byte
  match tag with
  | 0 => do
    let n ← takeU64
    return .int n
  | 1 => do
    let k ← takeKey
    return .record k
  | 2 => do
    let k ← takeStored
    return .record k
  | _ => failure

/-- `Tuple::deserialize`. -/
def takeTuple : Reader Tuple := do
  let id ← takeId
  let txnId ← takeOption
  let preLsn ← takeOption
  let data ← takeBytes
  let flags ← Reader.byte
  return ⟨id, txnId, preLsn, data, flags⟩

end Postcard

/-- `from_bytes::<Tuple>`. -/
def fromBytes (bytes : List UInt8) : Except StoreError Tuple :=
  match Postcard.takeTuple bytes 0 with
  | some (t, _) => .ok t
  | none => .error .serializationError

/-! ## What was written reads back -/

namespace Postcard

theorem reads_takeVarint {last : UInt8} (hlast : last.toNat < 128) {left n : Nat} {scale out : Nat}
    (h : n < (last.toNat + 1) * 128 ^ left) :
    Reads (takeVarint last (left + 1) scale out) (leb128 n) (out + n * scale) := by
  induction left generalizing n scale out with
  | zero =>
    have hn : n < 128 := by
      rw [Nat.pow_zero, Nat.mul_one] at h
      omega
    have hbyte : (UInt8.ofNat n).toNat = n := by
      rw [UInt8.toNat_ofNat']
      omega
    have hend : UInt8.ofNat n &&& 0x80 = 0 := (and_80_eq_zero _).mpr (by omega)
    have hok : ¬ (0 = 0 ∧ UInt8.ofNat n > last) := by
      rw [gt_iff_lt, UInt8.lt_iff_toNat_lt, hbyte]
      omega
    rw [leb128_eq, if_pos hn]
    refine Reads.byte_bind ?_
    dsimp only
    rw [if_pos hend, if_neg hok, toNat_and_7F, hbyte, Nat.mod_eq_of_lt hn]
    exact Reads.pure _
  | succ left ih =>
    rw [leb128_eq]
    split
    · next hn =>
        have hbyte : (UInt8.ofNat n).toNat = n := by
          rw [UInt8.toNat_ofNat']
          omega
        have hend : UInt8.ofNat n &&& 0x80 = 0 := (and_80_eq_zero _).mpr (by omega)
        have hok : ¬ (left + 1 = 0 ∧ UInt8.ofNat n > last) := by omega
        refine Reads.byte_bind ?_
        dsimp only
        rw [if_pos hend, if_neg hok, toNat_and_7F, hbyte, Nat.mod_eq_of_lt hn]
        exact Reads.pure _
    · next hn =>
        have hbyte : (UInt8.ofNat (n % 128 + 128)).toNat = n % 128 + 128 := by
          rw [UInt8.toNat_ofNat']
          omega
        have hmore : ¬ UInt8.ofNat (n % 128 + 128) &&& 0x80 = 0 := by
          rw [and_80_eq_zero]
          omega
        have hdiv : n / 128 < (last.toNat + 1) * 128 ^ left := by
          apply Nat.div_lt_of_lt_mul
          rw [Nat.pow_succ] at h
          calc n < (last.toNat + 1) * (128 ^ left * 128) := h
            _ = 128 * ((last.toNat + 1) * 128 ^ left) := by ring
        have hval : out + n % 128 * scale + n / 128 * (scale * 128) = out + n * scale := by
          conv_rhs => rw [← Nat.mod_add_div n 128]
          ring
        have hrest : Reads (takeVarint last (left + 1) (scale * 128) (out + n % 128 * scale))
            (leb128 (n / 128)) (out + n % 128 * scale + n / 128 * (scale * 128)) := ih hdiv
        rw [hval] at hrest
        refine Reads.byte_bind ?_
        dsimp only
        rw [if_neg hmore, toNat_and_7F, hbyte,
          show (n % 128 + 128) % 128 = n % 128 by omega]
        exact hrest

theorem reads_takeU64 (v : UInt64) : Reads takeU64 (unsigned v) v := by
  have hlt := v.toNat_lt
  have hloop : Reads (takeVarint 1 10 1 0) (unsigned v) (0 + v.toNat * 1) :=
    reads_takeVarint (by decide) (Nat.lt_of_lt_of_le hlt (by decide))
  have hread := hloop.map UInt64.ofNat
  rw [Nat.zero_add, Nat.mul_one, UInt64.ofNat_toNat] at hread
  exact hread

theorem reads_takeU32 (v : UInt32) : Reads takeU32 (unsigned v.toUInt64) v := by
  have hlt := v.toNat_lt
  have hloop : Reads (takeVarint 15 5 1 0) (leb128 v.toNat) (0 + v.toNat * 1) :=
    reads_takeVarint (by decide) (Nat.lt_of_lt_of_le hlt (by decide))
  have hread := hloop.map UInt32.ofNat
  rw [Nat.zero_add, Nat.mul_one, UInt32.ofNat_toNat] at hread
  rw [unsigned, UInt32.toNat_toUInt64]
  exact hread

theorem reads_takeI64 (v : Int64) : Reads takeI64 (signed v) v := by
  have hread := (reads_takeU64 (Reader.zigzag v)).map fun n =>
    (n >>> 1).toInt64 ^^^ -(n &&& 1).toInt64
  rw [Reader.unzigzag, Reader.unsigned_zigzag] at hread
  exact hread

theorem reads_takeBytes {b : List UInt8} (h : b.length < 2 ^ 64) :
    Reads takeBytes (bytes b) b := by
  refine (reads_takeU64 (UInt64.ofNat b.length)).bind ?_
  rw [UInt64.toNat_ofNat', Nat.mod_eq_of_lt h]
  exact Reads.take b

theorem reads_takeOption (v : Option UInt64) : Reads takeOption (option v) v := by
  cases v with
  | none => exact Reads.byte_bind (Reads.pure none)
  | some v => exact Reads.byte_bind ((reads_takeU64 v).map some)

theorem reads_takeValue {v : ValueItem} (h : Reader.Fits v) : Reads takeValue (value v) v := by
  cases v with
  | null => exact Reads.byte_bind (Reads.pure _)
  | integer i => exact Reads.byte_bind ((reads_takeI64 i).map _)
  | double bits => exact Reads.byte_bind (Reader.reads_double bits)
  | datetime t => exact Reads.byte_bind ((reads_takeU64 t).map _)
  | str s cap =>
    refine Reads.byte_bind ((reads_takeBytes h).bind ?_)
    rw [fromUtf8_asBytes]
    exact (reads_takeU32 cap).map _
  | blob b cap => exact Reads.byte_bind ((reads_takeBytes h).bind ((reads_takeU32 cap).map _))
  | boolean b =>
    cases b with
    | false => exact Reads.byte_bind (Reads.byte_bind (Reads.pure _))
    | true => exact Reads.byte_bind (Reads.byte_bind (Reads.pure _))

theorem reads_takeValues {k : IndexKey} (h : ∀ v ∈ k, Reader.Fits v) :
    Reads (takeValues k.length) (k.flatMap value) k := by
  induction k with
  | nil => exact Reads.pure []
  | cons v k ih =>
    have hhead := reads_takeValue (h v List.mem_cons_self)
    have htail := ih fun w hw => h w (List.mem_cons_of_mem v hw)
    exact hhead.bind (htail.map (v :: ·))

end Postcard

/-- An id as an owned copy of it has it: keycode bytes keep no capacity. -/
def IdForm.owned (form : IdForm) (id : DBIdType) : DBIdType :=
  match form with
  | .values => id
  | .stored => id.tight

theorem IdForm.owned_eq (form : IdForm) (id : DBIdType) : (form.owned id).eq id = true := by
  cases form with
  | values => exact (DBIdType.eq_iff_tight id id).mpr rfl
  | stored => exact id.tight_eq

/-- A tuple as an owned copy of it has it. -/
def Tuple.ownedAs (t : Tuple) (form : IdForm) : Tuple := { t with id := form.owned t.id }

namespace Postcard

theorem reads_takeId {form : IdForm} {id : DBIdType} (hform : form.Allows id)
    (h : (form.bytes id).length < 2 ^ 64) :
    Reads takeId (form.bytes id) (form.owned id) := by
  cases id with
  | int n => cases form <;> exact Reads.byte_bind ((reads_takeU64 n).map _)
  | record k =>
    cases form with
    | values =>
      simp only [IdForm.bytes, key, List.length_cons, List.length_append] at h
      have hcount := length_le_values k
      have hvalues := reads_takeValues (fits_of_values (k := k) (by omega))
      have hkey : Reads takeKey (key k) k := by
        refine (reads_takeU64 (UInt64.ofNat k.length)).bind ?_
        rw [UInt64.toNat_ofNat', Nat.mod_eq_of_lt (show k.length < 2 ^ 64 by omega)]
        exact hvalues
      exact Reads.byte_bind (hkey.map _)
    | stored =>
      simp only [IdForm.bytes, bytes, List.length_cons, List.length_append] at h
      have hkey : Reads takeStored (bytes (k.flatMap fieldBytes)) (IndexKey.tight k) := by
        have hbytes := reads_takeBytes (b := k.flatMap fieldBytes) (by omega)
        have hrest : Reads (match (StoredKey.mk (k.flatMap fieldBytes)).check with
            | .ok () => pure (StoredKey.mk (k.flatMap fieldBytes)).values
            | .error _ => failure) [] (IndexKey.tight k) := by
          simp only [StoredKey.check_stored hform, StoredKey.values_stored hform]
          exact Reads.pure _
        have hread := hbytes.bind (f := fun bytes =>
          match (StoredKey.mk bytes).check with
          | .ok () => pure (StoredKey.mk bytes).values
          | .error _ => failure) hrest
        rw [List.append_nil] at hread
        exact hread
      exact Reads.byte_bind (hkey.map _)

theorem reads_tuple {t : Tuple} {form : IdForm} (hform : form.Allows t.id)
    (h : (t.bytesAs form).length < 2 ^ 64) :
    Reads takeTuple (t.bytesAs form) (t.ownedAs form) := by
  simp only [Tuple.bytesAs, bytes, List.length_append] at h
  exact (reads_takeId hform (show _ < _ by omega)).bind ((reads_takeOption t.txnId).bind
    ((reads_takeOption t.preLsn).bind ((reads_takeBytes (show _ < _ by omega)).bind
      (Reads.byte_bind (Reads.pure _)))))

end Postcard

/-- A tuple in either form reads back, as an owned copy. -/
theorem fromBytes_bytesAs {t : Tuple} {form : IdForm} (hform : form.Allows t.id)
    (h : (t.bytesAs form).length < 2 ^ 64) :
    fromBytes (t.bytesAs form) = .ok (t.ownedAs form) := by
  have hread := Postcard.reads_tuple hform h [] []
  rw [List.nil_append, List.append_nil, List.length_nil] at hread
  rw [fromBytes, hread]

end SquealDb.Codec
