import SquealDb.Table.Readers

/-!
# Batches of rows

`Batch` and `Column` of `batch.rs`, and `decode_row_to_batch` of `table.rs`.

A batch holds rows column by column: the values of one type in one vector, a column's strings
as one buffer and where each ends. A column that takes a value not of its type holds its
values one by one from then on.

Where the source panics the definitions here give nothing.
-/

namespace SquealDb.Table

open Codec Codec.KeyCode Lib Sql

/-! ## Text -/

def isCharBoundary (s : String) (index : Nat) : Bool :=
  index == 0 ||
    match (asBytes s)[index]? with
    | none => index == (asBytes s).length
    | some b => decide (b < 0x80) || decide (0xC0 ≤ b)

/-- `&s[start..stop]`. -/
def slice (s : String) (start stop : Nat) : Option String :=
  if isCharBoundary s start && isCharBoundary s stop then
    (getRange (asBytes s) start stop).bind fromUtf8
  else none

/-- How many bytes a character of this first byte has, if more than one, and the least and
greatest its second may be. -/
def leads (b : UInt8) : Option (Nat × UInt8 × UInt8) :=
  if 0xC2 ≤ b ∧ b ≤ 0xDF then some (2, 0x80, 0xBF)
  else if b = 0xE0 then some (3, 0xA0, 0xBF)
  else if b = 0xED then some (3, 0x80, 0x9F)
  else if 0xE1 ≤ b ∧ b ≤ 0xEF then some (3, 0x80, 0xBF)
  else if b = 0xF0 then some (4, 0x90, 0xBF)
  else if 0xF1 ≤ b ∧ b ≤ 0xF3 then some (4, 0x80, 0xBF)
  else if b = 0xF4 then some (4, 0x80, 0x8F)
  else none

/-- The first chunk of some bytes: how many it takes, and whether they are a character. -/
def utf8Chunk : List UInt8 → Nat × Bool
  | [] => (0, true)
  | b :: rest =>
    if b < 0x80 then (1, true)
    else
      match leads b, rest with
      | some (count, least, greatest), second :: rest =>
        if least ≤ second ∧ second ≤ greatest then
          let more := (rest.take (count - 2)).takeWhile fun b => 0x80 ≤ b && b < 0xC0
          (2 + more.length, more.length == count - 2)
        else (1, false)
      | _, _ => (1, false)

/-- The bytes with each chunk that is no character replaced; at most `fuel` of them. -/
def replaced : Nat → List UInt8 → List UInt8
  | 0, _ => []
  | fuel + 1, bytes =>
    match bytes, utf8Chunk bytes with
    | [], _ => []
    | _, (count, true) => bytes.take count ++ replaced fuel (bytes.drop count)
    | _, (count, false) => [0xEF, 0xBF, 0xBD] ++ replaced fuel (bytes.drop count)

def fromUtf8Lossy (bytes : List UInt8) : String :=
  match fromUtf8 bytes with
  | some s => s
  | none => (fromUtf8 (replaced bytes.length bytes)).getD ""

/-! ## Columns -/

def notUtf8 : TableError := .unknownError "a stored string is not UTF-8"

inductive ColumnData where
  | absent
  | integer (v : List Int64)
  | datetime (v : List UInt64)
  | double (v : List UInt64)
  | boolean (v : List Bool)
  | str (ends : List UInt32) (filling : List UInt8) (text : String) (capacity : UInt32)
  | blob (ends : List UInt32) (bytes : List UInt8) (capacity : UInt32)
  | values (v : List ValueItem)
  deriving DecidableEq, Repr

structure Column where
  data : ColumnData
  null : List Bool
  nulls : Nat
  deriving DecidableEq, Repr

def span (ends : List UInt32) (row : Nat) : Option (Nat × Nat) := do
  let start ← if row = 0 then some 0 else ends[row - 1]?.map (·.toNat)
  return (start, (← ends[row]?).toNat)

namespace Column

def new (t : DataType) : Column where
  data :=
    match t with
    | .integer => .integer []
    | .datetime => .datetime []
    | .double => .double []
    | .boolean => .boolean []
    | .str n => .str [] [] "" n
    | .blob n => .blob [] [] n
    | .null | .unsupported => .values []
  null := []
  nulls := 0

def absent : Column := ⟨.absent, [], 0⟩

def isAbsent (c : Column) : Bool :=
  match c.data with
  | .absent => true
  | _ => false

def isNull (c : Column) (row : Nat) : Bool := c.null.getD row true

def clear (c : Column) : Column where
  data :=
    match c.data with
    | .absent => .absent
    | .integer _ => .integer []
    | .datetime _ => .datetime []
    | .double _ => .double []
    | .boolean _ => .boolean []
    | .str _ _ _ capacity => .str [] [] "" capacity
    | .blob _ _ capacity => .blob [] [] capacity
    | .values _ => .values []
  null := []
  nulls := 0

def finish (c : Column) : Except TableError Column :=
  match c.data with
  | .str ends filling _ capacity =>
    match fromUtf8 filling with
    | none => .error notUtf8
    | some text =>
      if ends.all fun stop => isCharBoundary text stop.toNat then
        .ok { c with data := .str ends [] text capacity }
      else .error notUtf8
  | _ => .ok c

def pushNull (c : Column) : Column where
  data :=
    match c.data with
    | .absent => .absent
    | .integer v => .integer (v ++ [0])
    | .datetime v => .datetime (v ++ [0])
    | .double v => .double (v ++ [0])
    | .boolean v => .boolean (v ++ [false])
    | .str ends filling text capacity =>
      .str (ends ++ [UInt32.ofNat filling.length]) filling text capacity
    | .blob ends bytes capacity => .blob (ends ++ [UInt32.ofNat bytes.length]) bytes capacity
    | .values v => .values (v ++ [.null])
  null := c.null ++ [true]
  nulls := c.nulls + 1

/-- The column with one more value, not `NULL`. -/
def pushed (c : Column) (data : ColumnData) : Column where
  data := data
  null := c.null ++ [false]
  nulls := c.nulls

def pushPacked (c : Column) (bytes : List UInt8) : Except TableError Column :=
  match c.data with
  | .absent => .ok c
  | .integer v =>
    match trimmed bytes with
    | some z => .ok (c.pushed (.integer (v ++ [unzigzag z])))
    | none => .error damaged
  | .datetime v =>
    match trimmed bytes with
    | some d => .ok (c.pushed (.datetime (v ++ [d])))
    | none => .error damaged
  | .double v =>
    if bytes.length = 8 then .ok (c.pushed (.double (v ++ [UInt64.ofNat (ofLe bytes)])))
    else .error damaged
  | .boolean v => .ok (c.pushed (.boolean (v ++ [bytes.head?.any (· != 0)])))
  | .str ends filling text capacity =>
    .ok (c.pushed (.str (ends ++ [UInt32.ofNat (filling ++ bytes).length]) (filling ++ bytes)
      text capacity))
  | .blob ends held capacity =>
    .ok (c.pushed (.blob (ends ++ [UInt32.ofNat (held ++ bytes).length]) (held ++ bytes) capacity))
  | .values _ => .error damaged

def get (c : Column) (row : Nat) : Option ValueItem :=
  if c.isNull row then some .null
  else
    match c.data with
    | .absent => some .null
    | .integer v => v[row]?.map .integer
    | .datetime v => v[row]?.map .datetime
    | .double v => v[row]?.map .double
    | .boolean v => v[row]?.map .boolean
    | .str ends _ text capacity => do
      let (start, stop) ← span ends row
      let s ← slice text start stop
      return .str s capacity
    | .blob ends bytes capacity => do
      let (start, stop) ← span ends row
      let b ← getRange bytes start stop
      return .blob b capacity
    | .values v => v[row]?

def unfinished (c : Column) (row : Nat) : Option ValueItem :=
  if c.isNull row then some .null
  else
    match c.data with
    | .str ends filling _ capacity => do
      let (start, stop) ← span ends row
      let bytes ← getRange filling start stop
      return .str (fromUtf8Lossy bytes) capacity
    | _ => c.get row

/-- The column's data with a value of its type behind the others; none if it is not of it. -/
def taken (data : ColumnData) (value : ValueItem) : Option ColumnData :=
  match data, value with
  | .integer v, .integer i => some (.integer (v ++ [i]))
  | .datetime v, .datetime d => some (.datetime (v ++ [d]))
  | .double v, .double d => some (.double (v ++ [d]))
  | .boolean v, .boolean b => some (.boolean (v ++ [b]))
  | .str ends filling text capacity, .str s cap =>
    if cap = capacity then
      let filling := filling ++ asBytes s
      some (.str (ends ++ [UInt32.ofNat filling.length]) filling text capacity)
    else none
  | .blob ends bytes capacity, .blob b cap =>
    if cap = capacity then
      let bytes := bytes ++ b
      some (.blob (ends ++ [UInt32.ofNat bytes.length]) bytes capacity)
    else none
  | .values v, value => some (.values (v ++ [value]))
  | _, _ => none

def push (c : Column) (value : ValueItem) : Option Column :=
  if value = .null then some c.pushNull
  else if c.isAbsent then some c
  else
    match taken c.data value with
    | some data => some (c.pushed data)
    | none => do
      let values ← (List.range c.null.length).mapM c.unfinished
      return c.pushed (.values (values ++ [value]))

end Column

/-! ## Batches -/

structure Batch where
  columns : List Column
  len : Nat
  deriving DecidableEq, Repr

namespace Batch

def new (types : List DataType) (wanted : Option (List Bool)) : Batch where
  columns := types.mapIdx fun i t => if unwanted wanted i then .absent else .new t
  len := 0

def clear (b : Batch) : Batch := ⟨b.columns.map Column.clear, 0⟩

/-- `row_pushed`, after the row's values. -/
def rowPushed (b : Batch) (columns : List Column) : Batch := ⟨columns, b.len + 1⟩

/-- The loop of `finish`. -/
def finishAll : List Column → Except TableError (List Column)
  | [] => .ok []
  | c :: rest =>
    match c.finish with
    | .error e => .error e
    | .ok c => (finishAll rest).map (c :: ·)

def finish (b : Batch) : Except TableError Batch := (finishAll b.columns).map fun cs => ⟨cs, b.len⟩

end Batch

/-- One turn of the loop of `decode_row_to_batch` over a packed row's columns, which starts at
byte `start`. -/
def pushPackedAt (p : Packed) (pos start : Nat) (c : Column) : Except TableError Column :=
  if c.isAbsent then .ok c
  else if p.isNull pos then .ok c.pushNull
  else
    match getRange p.data start (p.endOf pos) with
    | some bytes => c.pushPacked bytes
    | none => .error damaged

/-- The loop from column `pos` on, which starts at byte `start`. -/
def pushPackedRow (p : Packed) : Nat → Nat → List Column → Except TableError (List Column)
  | _, _, [] => .ok []
  | pos, start, c :: rest =>
    match pushPackedAt p pos start c with
    | .error e => .error e
    | .ok c => (pushPackedRow p (pos + 1) (p.endOf pos) rest).map (c :: ·)

/-- One turn of the loop of `decode_row_to_batch` over a decoded row's columns. -/
def pushAt (values : List ValueItem) (pos : Nat) (c : Column) : Option Column :=
  match values[pos]? with
  | some value => c.push value
  | none => some c.pushNull

/-- The loop from column `pos` on. -/
def pushRow (values : List ValueItem) : Nat → List Column → Option (List Column)
  | _, [] => some []
  | pos, c :: rest =>
    match pushAt values pos c with
    | none => none
    | some c => (pushRow values (pos + 1) rest).map (c :: ·)

/-- `decode_row_to_batch`: whether the row passes, and the batch. On an error the source leaves
part of the row in the batch, which it then gives up. -/
def SqlTable.decodeRowToBatch (t : SqlTable) (data : List UInt8) (tests : List ColumnTest)
    (batch : Batch) : Option (Except TableError (Bool × Batch)) :=
  match StoredRow.fromBytes data with
  | .error e => some (.error e)
  | .ok row =>
    match (if row.version = t.version then Packed.parse row.values t.fields.length else none) with
    | some p =>
      match testsParsed p tests with
      | .error e => some (.error e)
      | .ok false => some (.ok (false, batch))
      | .ok true =>
        some ((pushPackedRow p 0 0 batch.columns).map fun cs => (true, batch.rowPushed cs))
    | none =>
      match t.decodeRowIf data none tests with
      | .error e => some (.error e)
      | .ok none => some (.ok (false, batch))
      | .ok (some values) =>
        (pushRow values 0 batch.columns).map fun cs => .ok (true, batch.rowPushed cs)

end SquealDb.Table
