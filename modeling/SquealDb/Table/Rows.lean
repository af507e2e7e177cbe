import SquealDb.Table.Packed
import SquealDb.Table.Versions

/-!
# Stored rows

`StoredRow`, `RowLayout`, `encode_row` and `decode_row` of `table.rs`: a row's bytes behind
the version they were written under, in one of three forms.

A packed row starts with a marker, the complement of the low byte of its column count; the
other two start with the count itself, a fixed-width row's with its highest bit set.
-/

namespace SquealDb.Table

open Codec Codec.KeyCode Lib Sql

/-! ## The bytes of a row and its version -/

structure StoredRow where
  version : UInt32
  values : List UInt8
  deriving DecidableEq, Repr

namespace StoredRow

/-- `to_allocvec` of it. -/
def toBytes (r : StoredRow) : List UInt8 :=
  Postcard.unsigned r.version.toUInt64 ++ Postcard.bytes r.values

/-- Its `Deserialize`. -/
def take : Reader StoredRow := do
  let version ← Postcard.takeU32
  let values ← Postcard.takeBytes
  return ⟨version, values⟩

/-- `from_bytes` of it. -/
def fromBytes (data : List UInt8) : Except TableError StoredRow :=
  match take data 0 with
  | some (row, _) => .ok row
  | none => .error (.internalError (.store .serializationError))

theorem fromBytes_toBytes {r : StoredRow} (h : r.values.length < 2 ^ 64) :
    fromBytes r.toBytes = .ok r := by
  have hreads : Reads take r.toBytes r :=
    (Postcard.reads_takeU32 r.version).bind ((Postcard.reads_takeBytes h).map _)
  have hread := hreads [] []
  rw [List.nil_append, List.append_nil] at hread
  rw [fromBytes, show take r.toBytes 0 = _ from hread]

end StoredRow

/-! ## Fixed-width rows -/

def fixedRow : UInt64 := (1 : UInt64) <<< 63

def columnWidth : DataType → Option Nat
  | .integer | .double | .datetime => some 9
  | .boolean => some 2
  | .str n | .blob n => some (9 + n.toNat)
  | .null | .unsupported => none

/-- `RowLayout`: each column's offset, and one past the last. -/
structure RowLayout where
  offsets : List Nat
  deriving DecidableEq, Repr

namespace RowLayout

/-- The loop of `of`, from offset `start` on. -/
def offsetsFrom : Nat → List DataType → Option (List Nat)
  | start, [] => some [start]
  | start, t :: rest => do
    let width ← columnWidth t
    return start :: (← offsetsFrom (start + width) rest)

def of (types : List DataType) : Option RowLayout := (offsetsFrom 8 types).map RowLayout.mk

def columns (l : RowLayout) : Nat := l.offsets.length - 1

/-- The offset at a position. -/
def offset (l : RowLayout) (pos : Nat) : Nat := l.offsets.getD pos 0

def len (l : RowLayout) : Nat := l.offset l.columns

def column (l : RowLayout) (row : List UInt8) (pos : Nat) : List UInt8 :=
  (row.drop (l.offset pos)).take (l.offset (pos + 1) - l.offset pos)

/-- A value as `encode` writes it: a string or blob that fits with its column's capacity. -/
def capped : ValueItem → DataType → ValueItem
  | .str s cap, .str n => if (asBytes s).length ≤ n.toNat then .str s n else .str s cap
  | .blob b cap, .blob n => if b.length ≤ n.toNat then .blob b n else .blob b cap
  | v, _ => v

/-- The loop of `encode`, from column `pos` on. -/
def fill (l : RowLayout) : Nat → List (ValueItem × DataType) → List UInt8 → Option (List UInt8)
  | _, [], out => some out
  | pos, (value, datatype) :: rest, out =>
    let value := capped value datatype
    let out := out ++ value.write
    let stop := l.offset (pos + 1)
    if stop < out.length ∨ (out.length < stop ∧ value ≠ .null) then none
    else fill l (pos + 1) rest (out ++ List.replicate (stop - out.length) 0)

/-- `encode`: what builds before packed rows wrote. -/
def encode (l : RowLayout) (types : List DataType) (values : List ValueItem) :
    Option (List UInt8) :=
  if values.length ≠ l.columns then none
  else l.fill 0 (values.zip types) (leBytes 8 (UInt64.ofNat values.length ||| fixedRow).toNat)

def fixedCount (row : List UInt8) : Option UInt64 := do
  let count := UInt64.ofNat (← word 8 row 0)
  if count &&& fixedRow ≠ 0 then some (count &&& ~~~fixedRow) else none

end RowLayout

/-! ## Reading a row -/

def damaged : TableError :=
  .unknownError
    "packed row damaged: a column runs past the row, or a value doesn't fit its type"

/-- The column is not among the wanted ones. -/
def unwanted (wanted : Option (List Bool)) (pos : Nat) : Bool :=
  match wanted with
  | some w => !w.getD pos false
  | none => false

/-- Where column `pos` starts, given where the one before ends if it was read. -/
def Packed.startAt (p : Packed) : Nat → Option Nat → Nat
  | 0, _ => 0
  | _, some stop => stop
  | pos + 1, none => p.endOf pos

/-- The loop over a packed row's columns from `pos` on, given where the column before ends
if it was read; `skip` tells the columns left `NULL`. -/
def packedValues (p : Packed) (skip : Nat → Bool) :
    Nat → Option Nat → List Field → Except TableError (List ValueItem)
  | _, _, [] => .ok []
  | pos, lastEnd, field :: rest =>
    if skip pos then (packedValues p skip (pos + 1) none rest).map (.null :: ·)
    else
      let stop := p.endOf pos
      match p.value pos (p.startAt pos lastEnd) stop field.datatype with
      | none => .error damaged
      | some v => (packedValues p skip (pos + 1) (some stop) rest).map (v :: ·)

/-- The loop over `n` columns of a fixed-width row from `pos` on. -/
def fixedValues (l : RowLayout) (row : List UInt8) (skip : Nat → Bool) :
    Nat → Nat → Except TableError (List ValueItem)
  | _, 0 => .ok []
  | pos, n + 1 =>
    if skip pos then (fixedValues l row skip (pos + 1) n).map (.null :: ·)
    else
      match ValueItem.decode (l.column row pos) with
      | .error e => .error (.ofValue e)
      | .ok (v, _) => (fixedValues l row skip (pos + 1) n).map (v :: ·)

/-- The loop over `n` values of a tagged row from `pos` on. -/
def taggedValues (skip : Nat → Bool) :
    Nat → Nat → ValueRefs → Except TableError (List ValueItem)
  | _, 0, _ => .ok []
  | pos, n + 1, refs =>
    let (value, refs) :=
      if skip pos then
        let (skipped, refs) := refs.skipValue
        (skipped.map fun r => r.map fun _ => ValueItem.null, refs)
      else refs.next
    match value with
    | none => .ok []
    | some (.error e) => .error (.ofValue e)
    | some (.ok v) => (taggedValues skip (pos + 1) n refs).map (v :: ·)

namespace SqlTable

/-- The fields' types. -/
def types (fields : SchemaVersion) : List DataType := fields.map (·.datatype)

/-- `layout`, of a version. -/
def layout (fields : SchemaVersion) : Option RowLayout := RowLayout.of (types fields)

def decodePackedRow (t : SqlTable) (row : StoredRow) (p : Packed) (wanted : Option (List Bool)) :
    Except TableError IndexKey := do
  let fields ← match t.fieldsAt row.version with
    | some fields => .ok fields
    | none =>
      .error (.unknownError ("row was written under schema version " ++ toString row.version ++
        " but table " ++ t.name.quote ++ " has no such version"))
  let current := row.version == t.version
  let values ← packedValues p (fun pos => current && unwanted wanted pos) 0 none fields
  let values ← newRow values
  if current then return values else t.reproject row.version values

def decodeFixedRow (t : SqlTable) (row : StoredRow) (count : UInt64)
    (wanted : Option (List Bool)) : Except TableError IndexKey := do
  let fits := ((t.fieldsAt row.version).bind layout).filter fun l =>
    l.columns == count.toNat && l.len == row.values.length
  let l ← match fits with
    | some l => .ok l
    | none =>
      .error (.unknownError ("row of " ++ toString count ++ " fixed-width value(s) in " ++
        toString row.values.length ++ " byte(s) doesn't match schema version " ++
        toString row.version ++ " of table " ++ t.name.quote))
  let current := row.version == t.version
  let values ← fixedValues l row.values (fun pos => current && unwanted wanted pos) 0 l.columns
  let values ← newRow values
  if current then return values else t.reproject row.version values

/-- `decode_stored_row`, of a row written with each value tagged. -/
def decodeTaggedRow (t : SqlTable) (row : StoredRow) (wanted : Option (List Bool)) :
    Except TableError IndexKey :=
  if row.version ≠ t.version then do
    let values ← (IndexKey.fromBytes row.values).mapError .ofValue
    t.reproject row.version values
  else do
    let refs ← (IndexKey.refs row.values).mapError .ofValue
    if refs.left ≠ t.fields.length then
      throw (.unknownError ("row has " ++ toString refs.left ++
        " value(s) but schema version " ++ toString row.version ++ " of table " ++ t.name.quote ++
        " declared " ++ toString t.fields.length ++ " field(s)"))
    let values ← taggedValues (unwanted wanted) 0 t.fields.length refs
    newRow values

def decodeStoredRow (t : SqlTable) (row : StoredRow) (wanted : Option (List Bool)) :
    Except TableError IndexKey :=
  match (t.fieldsAt row.version).bind fun fields => Packed.parse row.values fields.length with
  | some p => t.decodePackedRow row p wanted
  | none =>
    match RowLayout.fixedCount row.values with
    | some count => t.decodeFixedRow row count wanted
    | none => t.decodeTaggedRow row wanted

def decodeRow (t : SqlTable) (data : List UInt8) (wanted : Option (List Bool)) :
    Except TableError IndexKey := do
  let row ← StoredRow.fromBytes data
  t.decodeStoredRow row wanted

/-! ## Writing a row -/

/-- The values' bytes as `encode_row` writes them: packed, or each value tagged. -/
def rowBytes (t : SqlTable) (row : IndexKey) : List UInt8 :=
  (Packed.encode (types t.fields) row).getD (IndexKey.toBytes row)

def encodeRow (t : SqlTable) (row : IndexKey) : List UInt8 :=
  StoredRow.toBytes ⟨t.version, t.rowBytes row⟩

/-- `encode_fixed_row`: what builds before packed rows stored. -/
def encodeFixedRow (t : SqlTable) (row : IndexKey) : Option (List UInt8) := do
  let values ← (← layout t.fields).encode (types t.fields) row
  return StoredRow.toBytes ⟨t.version, values⟩

end SqlTable

end SquealDb.Table
