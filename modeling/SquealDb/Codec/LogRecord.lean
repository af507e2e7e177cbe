import SquealDb.Codec.TupleDecode

/-!
# Log records as bytes

`LogRecord`, its `Operation` and `Record` of `logger.rs`, and their hand-rolled and derived
implementations of `Serialize` and `Deserialize` under postcard's rules. A transaction's id,
an LSN, a table's and a page's id are their numbers.
-/

namespace SquealDb.Codec

open Lib

structure Record where
  tableId : UInt64
  tuple : Tuple
  dataPage : Option UInt64
  deriving DecidableEq, Repr

inductive Operation where
  | add (txn : UInt64) (post : Record)
  | mod (txn : UInt64) (pre post : Record)
  | del (txn : UInt64) (pre : Record)
  | commit (txn : UInt64)
  | rollback (txn : UInt64)
  | sequence (name : String) (highWater : UInt64) (dropped : Bool)
  | purge (txn tableId : UInt64) (key : DBIdType)
  deriving DecidableEq, Repr

structure LogRecord where
  lsn : UInt64
  operation : Operation
  deriving DecidableEq, Repr

/-! ## Writing -/

namespace Postcard

/-- `Record::serialize`, the derived one. -/
def record (r : Record) : List UInt8 := unsigned r.tableId ++ (tuple r.tuple ++ option r.dataPage)

/-- `Operation::serialize`. -/
def operation : Operation → List UInt8
  | .add txn post => 0 :: (unsigned txn ++ record post)
  | .mod txn pre post => 1 :: (unsigned txn ++ (record pre ++ record post))
  | .del txn pre => 2 :: (unsigned txn ++ record pre)
  | .commit txn => 3 :: unsigned txn
  | .rollback txn => 4 :: unsigned txn
  | .sequence name highWater dropped =>
    5 :: (bytes (asBytes name) ++ (unsigned highWater ++ [if dropped then 1 else 0]))
  | .purge txn tableId key => 6 :: (unsigned txn ++ (unsigned tableId ++ id key))

/-- `LogRecord::serialize`, the derived one. -/
def logRecord (r : LogRecord) : List UInt8 := unsigned r.lsn ++ operation r.operation

/-! ## Reading -/

def takeBool : Reader Bool := do
  let b ← Reader.byte
  match b with
  | 0 => return false
  | 1 => return true
  | _ => failure

def takeString : Reader String := do
  let content ← takeBytes
  match fromUtf8 content with
  | some s => return s
  | none => failure

/-- `Record::deserialize`. -/
def takeRecord : Reader Record := do
  let tableId ← takeU64
  let tuple ← takeTuple
  let dataPage ← takeOption
  return ⟨tableId, tuple, dataPage⟩

/-- `Operation::deserialize`. -/
def takeOperation : Reader Operation := do
  let tag ← Reader.byte
  match tag with
  | 0 => do
    let txn ← takeU64
    let post ← takeRecord
    return .add txn post
  | 1 => do
    let txn ← takeU64
    let pre ← takeRecord
    let post ← takeRecord
    return .mod txn pre post
  | 2 => do
    let txn ← takeU64
    let pre ← takeRecord
    return .del txn pre
  | 3 => do
    let txn ← takeU64
    return .commit txn
  | 4 => do
    let txn ← takeU64
    return .rollback txn
  | 5 => do
    let name ← takeString
    let highWater ← takeU64
    let dropped ← takeBool
    return .sequence name highWater dropped
  | 6 => do
    let txn ← takeU64
    let tableId ← takeU64
    let key ← takeId
    return .purge txn tableId key
  | _ => failure

/-- `LogRecord::deserialize`. -/
def takeLogRecord : Reader LogRecord := do
  let lsn ← takeU64
  let operation ← takeOperation
  return ⟨lsn, operation⟩

end Postcard

/-! ## What was written reads back -/

/-- An id as it is read back. -/
def DBIdType.owned (id : DBIdType) : DBIdType := (IdForm.ofId id).owned id

/-- A record as it is read back. -/
def Record.owned (r : Record) :
    Record := { r with tuple := { r.tuple with id := r.tuple.id.owned } }

/-- An operation as it is read back. -/
def Operation.owned : Operation → Operation
  | add txn post => add txn post.owned
  | mod txn pre post => mod txn pre.owned post.owned
  | del txn pre => del txn pre.owned
  | purge txn tableId key => purge txn tableId key.owned
  | op => op

/-- A log record as it is read back: a record key read from its keycode bytes keeps no
reserved capacity, which is no part of a key. -/
def LogRecord.owned (r : LogRecord) : LogRecord := { r with operation := r.operation.owned }

/-- An id read back is the id, as ids compare. -/
theorem DBIdType.owned_eq (id : DBIdType) : id.owned.eq id = true := IdForm.owned_eq _ id

/-- Two records that differ at most in the reserved capacities of their ids' fields, which
the ids' own comparison ignores. -/
def Record.Same (r s : Record) : Prop :=
  r.tableId = s.tableId ∧ r.dataPage = s.dataPage ∧ r.tuple.id.eq s.tuple.id = true ∧
    r.tuple = { s.tuple with id := r.tuple.id }

/-- Two operations that differ at most so. -/
def Operation.Same : Operation → Operation → Prop
  | add txn post, add txn' post' => txn = txn' ∧ post.Same post'
  | mod txn pre post, mod txn' pre' post' => txn = txn' ∧ pre.Same pre' ∧ post.Same post'
  | del txn pre, del txn' pre' => txn = txn' ∧ pre.Same pre'
  | purge txn tableId key, purge txn' tableId' key' =>
    txn = txn' ∧ tableId = tableId' ∧ key.eq key' = true
  | op, op' => op = op'

/-- Two log records that differ at most so. -/
def LogRecord.Same (r s : LogRecord) : Prop := r.lsn = s.lsn ∧ r.operation.Same s.operation

theorem Record.owned_same (r : Record) : r.owned.Same r :=
  ⟨rfl, rfl, r.tuple.id.owned_eq, rfl⟩

/-- A log record read back is the record. -/
theorem LogRecord.owned_same (r : LogRecord) : r.owned.Same r := by
  refine ⟨rfl, ?_⟩
  show r.operation.owned.Same r.operation
  cases r.operation with
  | add txn post => exact ⟨rfl, post.owned_same⟩
  | mod txn pre post => exact ⟨rfl, pre.owned_same, post.owned_same⟩
  | del txn pre => exact ⟨rfl, pre.owned_same⟩
  | commit txn => rfl
  | rollback txn => rfl
  | sequence name highWater dropped => rfl
  | purge txn tableId key => exact ⟨rfl, rfl, key.owned_eq⟩

namespace Postcard

theorem reads_takeString {s : String} (h : (asBytes s).length < 2 ^ 64) :
    Reads takeString (bytes (asBytes s)) s := by
  have hrest : Reads (match fromUtf8 (asBytes s) with
      | some s => (pure s : Reader String)
      | none => failure) [] s := by
    rw [fromUtf8_asBytes]
    exact Reads.pure s
  have hread := (reads_takeBytes h).bind (f := fun content =>
    match fromUtf8 content with
    | some s => (pure s : Reader String)
    | none => failure) hrest
  rwa [List.append_nil] at hread

theorem reads_takeBool (b : Bool) : Reads takeBool [if b then 1 else 0] b := by
  cases b <;> exact Reads.byte_bind (Reads.pure _)

theorem reads_id {key : DBIdType} (h : (id key).length < 2 ^ 64) :
    Reads takeId (id key) key.owned := by
  rw [← IdForm.bytes_ofId] at h ⊢
  exact reads_takeId (IdForm.allows_ofId key) h

theorem reads_tuple_written {t : Tuple} (h : (tuple t).length < 2 ^ 64) :
    Reads takeTuple (tuple t) { t with id := t.id.owned } := by
  have hbytes : t.bytesAs (IdForm.ofId t.id) = tuple t := by
    rw [Tuple.bytesAs, IdForm.bytes_ofId, tuple]
    simp only [List.append_assoc]
  rw [← hbytes] at h ⊢
  exact reads_tuple (IdForm.allows_ofId t.id) h

theorem reads_record {r : Record} (h : (record r).length < 2 ^ 64) :
    Reads takeRecord (record r) r.owned := by
  simp only [record, List.length_append] at h
  exact (reads_takeU64 r.tableId).bind ((reads_tuple_written (show _ < _ by omega)).bind
    ((reads_takeOption r.dataPage).map _))

theorem reads_operation {op : Operation} (h : (operation op).length < 2 ^ 64) :
    Reads takeOperation (operation op) op.owned := by
  cases op with
  | add txn post =>
    simp only [operation, List.length_cons, List.length_append] at h
    have hpost : Reads takeRecord (record post) post.owned := reads_record (by omega)
    exact Reads.byte_bind ((reads_takeU64 txn).bind (hpost.map _))
  | mod txn pre post =>
    simp only [operation, List.length_cons, List.length_append] at h
    have hpre : Reads takeRecord (record pre) pre.owned := reads_record (by omega)
    have hpost : Reads takeRecord (record post) post.owned := reads_record (by omega)
    exact Reads.byte_bind ((reads_takeU64 txn).bind (hpre.bind (hpost.map _)))
  | del txn pre =>
    simp only [operation, List.length_cons, List.length_append] at h
    have hpre : Reads takeRecord (record pre) pre.owned := reads_record (by omega)
    exact Reads.byte_bind ((reads_takeU64 txn).bind (hpre.map _))
  | commit txn => exact Reads.byte_bind ((reads_takeU64 txn).map _)
  | rollback txn => exact Reads.byte_bind ((reads_takeU64 txn).map _)
  | sequence name highWater dropped =>
    simp only [operation, bytes, List.length_cons, List.length_append] at h
    have hname : Reads takeString (bytes (asBytes name)) name := reads_takeString (by omega)
    exact Reads.byte_bind (hname.bind
      ((reads_takeU64 highWater).bind ((reads_takeBool dropped).map _)))
  | purge txn tableId key =>
    simp only [operation, List.length_cons, List.length_append] at h
    have hkey : Reads takeId (id key) key.owned := reads_id (by omega)
    exact Reads.byte_bind ((reads_takeU64 txn).bind ((reads_takeU64 tableId).bind (hkey.map _)))

/-- A log record reads back. -/
theorem reads_logRecord {r : LogRecord} (h : (logRecord r).length < 2 ^ 64) :
    Reads takeLogRecord (logRecord r) r.owned := by
  simp only [logRecord, List.length_append] at h
  exact (reads_takeU64 r.lsn).bind ((reads_operation (show _ < _ by omega)).map _)

/-! ## What is cut short is not read -/

theorem steady_takeVarint (last : UInt8) (left scale out : Nat) :
    Steady (takeVarint last left scale out) := by
  induction left generalizing scale out with
  | zero => exact Steady.failure
  | succ left ih =>
    refine Steady.byte.bind fun val => ?_
    dsimp only
    split
    · split
      · exact Steady.failure
      · exact Steady.pure _
    · exact ih _ _

theorem steady_takeU64 : Steady takeU64 :=
  (steady_takeVarint 1 10 1 0).bind fun _ => Steady.pure _

theorem steady_takeU32 : Steady takeU32 :=
  (steady_takeVarint 15 5 1 0).bind fun _ => Steady.pure _

theorem steady_takeI64 : Steady takeI64 := steady_takeU64.bind fun _ => Steady.pure _

theorem steady_takeBytes : Steady takeBytes := steady_takeU64.bind fun n => Steady.take n.toNat

theorem steady_takeOption : Steady takeOption := by
  refine Steady.byte.bind fun tag => ?_
  split
  · exact Steady.pure none
  · split
    · exact steady_takeU64.bind fun _ => Steady.pure _
    · exact Steady.failure

theorem steady_takeValue : Steady takeValue := by
  refine Steady.byte.bind fun tag => ?_
  split
  · exact Steady.pure _
  · exact steady_takeI64.bind fun _ => Steady.pure _
  · exact (Steady.take 8).bind fun _ => Steady.pure _
  · exact steady_takeU64.bind fun _ => Steady.pure _
  · refine steady_takeBytes.bind fun content => ?_
    split
    · exact steady_takeU32.bind fun _ => Steady.pure _
    · exact Steady.failure
  · exact steady_takeBytes.bind fun _ => steady_takeU32.bind fun _ => Steady.pure _
  · refine Steady.byte.bind fun b => ?_
    split
    · exact Steady.pure _
    · exact Steady.pure _
    · exact Steady.failure
  · exact Steady.failure

theorem steady_takeValues (n : Nat) : Steady (takeValues n) := by
  induction n with
  | zero => exact Steady.pure []
  | succ n ih => exact steady_takeValue.bind fun _ => ih.bind fun _ => Steady.pure _

theorem steady_takeStored : Steady takeStored := by
  refine steady_takeBytes.bind fun content => ?_
  split
  · exact Steady.pure _
  · exact Steady.failure

theorem steady_takeId : Steady takeId := by
  refine Steady.byte.bind fun tag => ?_
  split
  · exact steady_takeU64.bind fun _ => Steady.pure _
  · exact (steady_takeU64.bind fun n => steady_takeValues n.toNat).bind fun _ => Steady.pure _
  · exact steady_takeStored.bind fun _ => Steady.pure _
  · exact Steady.failure

theorem steady_takeTuple : Steady takeTuple :=
  steady_takeId.bind fun _ => steady_takeOption.bind fun _ => steady_takeOption.bind fun _ =>
    steady_takeBytes.bind fun _ => Steady.byte.bind fun _ => Steady.pure _

theorem steady_takeRecord : Steady takeRecord :=
  steady_takeU64.bind fun _ => steady_takeTuple.bind fun _ => steady_takeOption.bind fun _ =>
    Steady.pure _

theorem steady_takeString : Steady takeString := by
  refine steady_takeBytes.bind fun content => ?_
  split
  · exact Steady.pure _
  · exact Steady.failure

theorem steady_takeBool : Steady takeBool := by
  refine Steady.byte.bind fun b => ?_
  split
  · exact Steady.pure _
  · exact Steady.pure _
  · exact Steady.failure

theorem steady_takeOperation : Steady takeOperation := by
  refine Steady.byte.bind fun tag => ?_
  split
  · exact steady_takeU64.bind fun _ => steady_takeRecord.bind fun _ => Steady.pure _
  · exact steady_takeU64.bind fun _ => steady_takeRecord.bind fun _ =>
      steady_takeRecord.bind fun _ => Steady.pure _
  · exact steady_takeU64.bind fun _ => steady_takeRecord.bind fun _ => Steady.pure _
  · exact steady_takeU64.bind fun _ => Steady.pure _
  · exact steady_takeU64.bind fun _ => Steady.pure _
  · exact steady_takeString.bind fun _ => steady_takeU64.bind fun _ =>
      steady_takeBool.bind fun _ => Steady.pure _
  · exact steady_takeU64.bind fun _ => steady_takeU64.bind fun _ =>
      steady_takeId.bind fun _ => Steady.pure _
  · exact Steady.failure

theorem steady_logRecord : Steady takeLogRecord :=
  steady_takeU64.bind fun _ => steady_takeOperation.bind fun _ => Steady.pure _

end Postcard

end SquealDb.Codec
