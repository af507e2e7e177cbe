import Mathlib.Data.List.Sort
import SquealDb.Codec.TupleDecode
import SquealDb.Lib.Script
import SquealDb.Sql.Partition
import SquealDb.Store.Record
import SquealDb.Table.Rows

/-!
# INSERT, UPDATE, DELETE and TRUNCATE

What the statements that write rows call of the store: `insert_rows_in_txn`, `row_tuples`,
`delete_one_row_in_txn`, `update_rows_matching`, `delete_rows_matching` and
`check_foreign_keys` of `schema.rs`, and the statements' own dispatch.

A tree's keys are told apart by their bytes (`KeyCode.encode`). The rows that an UPDATE or a
DELETE matches are what its source yields: some of the rows its transaction sees in the table's
partitions, each once.
-/

namespace SquealDb.Table

open Codec Lib Sql

/-- A key of one of the store's trees. -/
structure TreeKey where
  tree : UInt64
  id : List UInt8
  deriving DecidableEq, Repr

/-- What a statement fails with. -/
inductive StatementError where
  | table (e : TableError)
  | sql (e : Sql.SchemaError)
  | store (e : Store.StoreError TreeKey)
  | missingKey (name : String)
  deriving DecidableEq, Repr

/-- A statement's calls of the store. -/
abbrev Calls := Script TreeKey (List UInt8) String StatementError

/-- The statement fails. -/
def fail {α : Type} (e : StatementError) : Calls α := Script.done (.error e)

/-- A step of the table's own. -/
def ofTable {α : Type} (r : Except TableError α) : Calls α :=
  Script.ofExcept (r.mapError .table)

/-- `Partition`, with its trees: of its rows, and of its entries of each index. -/
structure StoredPartition extends Sql.Partition where
  rows : UInt64
  indices : List UInt64
  deriving DecidableEq, Repr

/-- `SqlTable`, with its partitions. -/
structure StoredTable where
  table : SqlTable
  kind : PartitionKind
  partitions : List StoredPartition
  deriving DecidableEq, Repr

/-- `RowTuples`: a row's tuple and the tree it is for, and those of its entries. -/
structure RowTuples where
  rows : TreeKey
  row : List UInt8
  entries : List (TreeKey × List UInt8)
  deriving DecidableEq, Repr

/-- The trees: which keep their rows in their leaves, and the most a tuple may take in one, which
is less than a page. -/
structure Trees where
  rowsInLeaves : UInt64 → Bool
  limit : UInt64 → Nat
  size : TreeKey → List UInt8 → Nat
  data_le : ∀ key data, data.length ≤ size key data
  limit_lt : ∀ tree, limit tree < 2 ^ 32

namespace SqlTable

def primaryKey (t : SqlTable) : Option SqlIndex := t.indices.find? (·.isPrimary)

def fieldPosition (t : SqlTable) (field : Field) : Option Nat :=
  t.fields.findIdx? fun f => f.name == field.name

/-- `extract_field_values`: an index's fields are the table's own. -/
def extractFieldValues (t : SqlTable) (fields : List Field) (row : List ValueItem) :
    List ValueItem :=
  fields.map fun f => (t.fieldPosition f).elim .null fun pos => row.getD pos .null

def uniqueIndexPosition (t : SqlTable) (column : String) : Option Nat :=
  t.indices.findIdx? fun i => (i.isPrimary || i.isUnique) && i.fields.map (·.name) == [column]

end SqlTable

def SqlIndex.hasTree (i : SqlIndex) : Bool := !i.isPrimary

/-- `Partition::index`: a table's partitions have a tree for each of its indexes. -/
def StoredPartition.index (p : StoredPartition) (i : Nat) : UInt64 := p.indices.getD i 0

/-- The row's key as an index key. -/
def identityOf : DBIdType → IndexKey
  | .record key => key
  | .int n => [.integer n.toInt64]

namespace StoredTable

def partitioning (t : StoredTable) : Option Partitioning :=
  t.table.partitionedBy.map fun id => ⟨t.kind, id⟩

/-- `partition_column`: its position and its name. -/
def partitionColumn (t : StoredTable) : Option (Nat × String) := do
  let spec ← t.partitioning
  let pos ← t.table.fields.findIdx? fun f => f.id == spec.fieldId
  return (pos, (← t.table.fields[pos]?).name)

def partitionFor (text : Text) (t : StoredTable) (row : List ValueItem) : Except TableError Nat :=
  match t.partitioning, t.partitionColumn with
  | some spec, some (pos, name) =>
    match spec.route (t.partitions.map (·.toPartition)) (row.getD pos .null) with
    | some i => .ok i
    | none =>
      .error (.userError ("table " ++ t.table.name.quote ++ " has no partition for " ++ name ++
        " = " ++ display text (row.getD pos .null)))
  | _, _ => .ok 0

/-- The partition at a position, which is always one of the table's. -/
def part (t : StoredTable) (i : Nat) : Except TableError StoredPartition :=
  match t.partitions[i]? with
  | some p => .ok p
  | none => .error (.unknownError "no such partition")

/-- The key of a row's entry in an index. -/
def indexKey (t : StoredTable) (index : SqlIndex) (row : List ValueItem) (identity : IndexKey) :
    Except TableError DBIdType := do
  let values := t.table.extractFieldValues index.fields row
  return .record (← newRow (if index.isUnique then values else values ++ identity))

/-- The indexes that have a tree, with their positions. -/
def indexesWithTree (t : StoredTable) : List (SqlIndex × Nat) :=
  t.table.indices.zipIdx.filter fun i => i.1.hasTree

/-- The keys of a row's entries, with the indexes' positions. -/
def indexKeys (t : StoredTable) (row : List ValueItem) (identity : IndexKey) :
    Except TableError (List (Nat × DBIdType)) :=
  t.indexesWithTree.mapM fun i => do
    return (i.2, ← t.indexKey i.1 row identity)

/-- `row_key`, given the name of the rowid sequence. -/
def rowKey (t : StoredTable) (sequence : String) (row : List ValueItem) : Calls DBIdType :=
  match t.table.primaryKey with
  | some pk => do
    let key ← ofTable (newRow (t.table.extractFieldValues pk.fields row))
    return .record key
  | none => do
    let id ← Script.genKey sequence fun n => pure n
    return .int id

/-- `row_tuples`, once the row has its key. -/
def tuplesOf (text : Text) (t : StoredTable) (row : List ValueItem) (rowKey : DBIdType) :
    Except TableError RowTuples := do
  let identity := identityOf rowKey
  let part ← t.part (← t.partitionFor text row)
  let keys ← t.indexKeys row identity
  let row ← newRow row
  return {
    rows := ⟨part.rows, KeyCode.encode rowKey []⟩
    row := t.table.encodeRow row
    entries := keys.map fun i =>
      (⟨part.index i.1, KeyCode.encode i.2 []⟩, Postcard.key identity) }

end StoredTable

/-- The derived `Debug` of a value, given that of a double. -/
def debugValue (double : UInt64 → String) : ValueItem → String
  | .null => "Null"
  | .integer i => "Integer(" ++ toString i.toInt ++ ")"
  | .double d => "Double(" ++ double d ++ ")"
  | .datetime t => "Datetime(" ++ toString t.toNat ++ ")"
  | .str s cap => "Str((" ++ s.quote ++ ", " ++ toString cap.toNat ++ "))"
  | .blob b cap =>
    "Blob(([" ++ ", ".intercalate (b.map fun x => toString x.toNat) ++ "], " ++
      toString cap.toNat ++ "))"
  | .boolean b => "Boolean(" ++ (if b then "true" else "false") ++ ")"

/-- `Schema`: its tables by their lower-case names, and the trees they are kept in; `text` and
`debugDouble` are what the standard library makes of values. -/
structure Catalog where
  name : String
  tables : String → Option StoredTable
  trees : Trees
  text : Text
  debugDouble : UInt64 → String

namespace Catalog

def getTable (c : Catalog) (name : String) : Calls StoredTable :=
  match c.tables (c.text.toLowercase name) with
  | some t => pure t
  | none => fail (.table (.badTableName ("Table " ++ name.quote ++ " does not exist")))

def rowidSeqName (c : Catalog) (table : String) : String := c.name ++ "." ++ table ++ ".rowid"

def rowTuples (c : Catalog) (t : StoredTable) (row : List ValueItem) : Calls RowTuples := do
  let key ← t.rowKey (c.rowidSeqName t.table.name) row
  ofTable (t.tuplesOf c.text row key)

/-- `check_fits`: a tuple that is too large is refused before anything is logged. -/
def checkFits (c : Catalog) (key : TreeKey) (data : List UInt8) : Except StatementError Unit :=
  if c.trees.limit key.tree < c.trees.size key data then
    .error (.store (.tupleTooLarge (c.trees.size key data) (c.trees.limit key.tree)))
  else .ok ()

def insert (c : Catalog) (key : TreeKey) (data : List UInt8) : Calls PUnit := do
  Script.ofExcept ((c.checkFits key data).map fun _ => PUnit.unit)
  Script.put key data

/-- `check_fits` of each tuple. -/
def checkAllFit (c : Catalog) (tuples : List (TreeKey × List UInt8)) : Except StatementError Unit :=
  tuples.forM fun t => c.checkFits t.1 t.2

/-- The inserts one by one. -/
def insertTuples (c : Catalog) : List (TreeKey × List UInt8) → Calls PUnit
  | [] => pure ⟨⟩
  | t :: rest => do
    c.insert t.1 t.2
    c.insertTuples rest

/-- `Db::insert_many`: into a tree with its rows in its leaves all of them are checked first,
and written in key order; into any other they go one by one. -/
def insertMany (c : Catalog) (tree : UInt64) (tuples : List (TreeKey × List UInt8)) : Calls PUnit :=
  if c.trees.rowsInLeaves tree then do
    Script.ofExcept ((c.checkAllFit tuples).map fun _ => PUnit.unit)
    Script.insertAll (tuples.insertionSort fun a b => a.1.id ≤ b.1.id)
  else c.insertTuples tuples

/-- `index_has_key`, over the partitions left. -/
def indexHasKey (index : SqlIndex) (i : Nat) (key : DBIdType) :
    List StoredPartition → Calls Bool
  | [] => pure false
  | part :: rest =>
    let tree := if index.hasTree then part.index i else part.rows
    Script.find ⟨tree, KeyCode.encode key []⟩ fun there =>
      if there then pure true else indexHasKey index i key rest

/-- `check_foreign_keys`, of the keys left. -/
def checkForeignKeys (c : Catalog) (t : StoredTable) (row : List ValueItem) :
    List SqlForeignKey → Calls PUnit
  | [] => pure ⟨⟩
  | fk :: rest =>
    match t.table.fields.findIdx? fun f => f.name == fk.column with
    | none => fail (.table (.unknownError "a table's foreign keys are of its own fields"))
    | some pos =>
      let value := row.getD pos .null
      if value = .null then c.checkForeignKeys t row rest
      else do
        let refTable ← match c.tables (c.text.toLowercase fk.refTable) with
          | some r => pure r
          | none =>
            fail (.table (.unknownError ("foreign key on " ++ t.table.name.quote ++ "." ++
              fk.column ++ " references unknown table " ++ fk.refTable.quote)))
        let (i, index) ← match refTable.table.uniqueIndexPosition fk.refColumn with
          | some i =>
            match refTable.table.indices[i]? with
            | some index => pure (i, index)
            | none => fail (.table (.unknownError "no such index"))
          | none =>
            fail (.table (.unknownError ("foreign key on " ++ t.table.name.quote ++ "." ++
              fk.column ++ " references " ++ fk.refTable.quote ++ "." ++ fk.refColumn ++
              ", which is no longer a PRIMARY KEY/UNIQUE column")))
        let key ← ofTable (newRow [value])
        let found ← indexHasKey index i (.record key) refTable.partitions
        if found then c.checkForeignKeys t row rest
        else
          fail (.table (.userError ("insert on table " ++ t.table.name.quote ++
            " violates foreign key " ++ (fk.name.getD "<unnamed>").quote ++ ": no row in " ++
            fk.refTable.quote ++ " with " ++ fk.refColumn ++ " = " ++ debugValue c.debugDouble
              value)))

/-- `insert_one_row_in_txn`. -/
def insertOneRow (c : Catalog) (t : StoredTable) (row : List ValueItem) : Calls PUnit := do
  c.checkForeignKeys t row t.table.foreignKeys
  let built ← c.rowTuples t row
  c.insertTuples ((built.rows, built.row) :: built.entries)

/-- The closure `add` of `insert_rows_in_txn`. -/
def addWrite (tuple : TreeKey × List UInt8) :
    List (UInt64 × List (TreeKey × List UInt8)) → List (UInt64 × List (TreeKey × List UInt8))
  | [] => [(tuple.1.tree, [tuple])]
  | (tree, tuples) :: rest =>
    if tree = tuple.1.tree then (tree, tuples ++ [tuple]) :: rest
    else (tree, tuples) :: addWrite tuple rest

/-- The rows built one after another. -/
def buildRows (c : Catalog) (t : StoredTable) : List (List ValueItem) → Calls (List RowTuples)
  | [] => pure []
  | row :: rest => do
    let built ← c.rowTuples t row
    let others ← c.buildRows t rest
    return built :: others

/-- Each tree given its tuples. -/
def insertTrees (c : Catalog) : List (UInt64 × List (TreeKey × List UInt8)) → Calls PUnit
  | [] => pure ⟨⟩
  | (tree, tuples) :: rest => do
    c.insertMany tree tuples
    c.insertTrees rest

/-- The rows' inserts one by one. -/
def insertEach (c : Catalog) (t : StoredTable) : List (List ValueItem) → Calls PUnit
  | [] => pure ⟨⟩
  | row :: rest => do
    c.insertOneRow t row
    c.insertEach t rest

def insertRowsInTxn (c : Catalog) (t : StoredTable) (rows : List (List ValueItem)) :
    Calls PUnit := do
  if rows.length < 2 ∨ t.table.foreignKeys ≠ [] then c.insertEach t rows
  else
    let built ← c.buildRows t rows
    let rowWrites := built.foldl (fun writes b => addWrite (b.rows, b.row) writes) []
    let indexWrites := (built.flatMap (·.entries)).foldl (fun writes e => addWrite e writes) []
    c.insertTrees (rowWrites ++ indexWrites)

/-- The loop of `delete_one_row_in_txn` over the indexes left. -/
def removeEntries (t : StoredTable) (part : StoredPartition) (row : List ValueItem)
    (identity : IndexKey) : List (SqlIndex × Nat) → Calls PUnit
  | [] => pure ⟨⟩
  | (index, i) :: rest => do
    let key ← ofTable (t.indexKey index row identity)
    Script.drop ⟨part.index i, KeyCode.encode key []⟩
    removeEntries t part row identity rest

/-- `delete_one_row_in_txn`. -/
def deleteOneRow (c : Catalog) (t : StoredTable) (row : List ValueItem) (rowKey : DBIdType) :
    Calls PUnit := do
  let part ← ofTable (do t.part (← t.partitionFor c.text row))
  removeEntries t part row (identityOf rowKey) t.indexesWithTree
  Script.drop ⟨part.rows, KeyCode.encode rowKey []⟩

def coerceSelectedValue (c : Catalog) (value : ValueItem) (datatype : DataType) :
    Except TableError ValueItem :=
  match value, datatype with
  | .null, _ => .ok .null
  | .integer i, .integer => .ok (.integer i)
  | .double d, .double => .ok (.double d)
  | .datetime d, .datetime => .ok (.datetime d)
  | .str s _, .str cap => .ok (.str s cap)
  | .blob b _, .blob cap => .ok (.blob b cap)
  | .boolean b, .boolean => .ok (.boolean b)
  | v, dt =>
    .error (.userError ("value " ++ debugValue c.debugDouble v ++
      " does not match column type " ++ debugType dt))

/-- A value for a column: of its type, and `NULL` only where it may be. -/
def columnValue (c : Catalog) (field : Field) (value : ValueItem) :
    Except TableError ValueItem := do
  let item ← c.coerceSelectedValue value field.datatype
  if item = .null ∧ field.nullable = false then
    .error (.userError ("Column " ++ field.name.quote ++ " cannot be null"))
  else return item

def fillFullRow : List Field → List (String × ValueItem) → Except TableError (List ValueItem)
  | [], _ => .ok []
  | f :: rest, byName => do
    let item ← match byName.lookup f.name, f.default with
      | some v, _ => .ok v
      | none, some v => .ok v
      | none, none =>
        if f.nullable then .ok .null
        else
          .error (.userError ("Column " ++ f.name.quote ++
            " has no value and is not nullable"))
    return item :: (← fillFullRow rest (byName.filter fun p => p.1 ≠ f.name))

/-- The columns an INSERT names, or all of them. -/
def targetFields (text : Text) (t : StoredTable) :
    Option (List String) → Except TableError (List Field)
  | none => .ok t.table.fields
  | some names => names.mapM fun name =>
    match t.table.fields.find? fun f => f.name == text.toLowercase name with
    | some f => .ok f
    | none => .error (t.table.noColumn (text.toLowercase name))

/-- One row of `rows_from_select`. -/
def shapeRow (c : Catalog) (t : StoredTable) (targets : List Field) (values : List ValueItem) :
    Except TableError (List ValueItem) := do
  if values.length ≠ targets.length then
    throw (.userError ("SELECT returned " ++ toString values.length ++
      " column(s) but INSERT expects " ++ toString targets.length))
  let items ← (targets.zip values).mapM fun p => return (p.1.name, ← c.columnValue p.1 p.2)
  fillFullRow t.table.fields items.reverse

def rowsFromSelect (c : Catalog) (t : StoredTable) (columns : Option (List String))
    (selected : List (List ValueItem)) : Except TableError (List (List ValueItem)) := do
  let targets ← targetFields c.text t columns
  selected.mapM (c.shapeRow t targets)

/-- One row's new values, and the assignments' expressions after it. -/
def assignRow (c : Catalog) (t : StoredTable) (current : List ValueItem) :
    List (Nat × EvalExpr) → List ValueItem →
      Except StatementError (List ValueItem × List (Nat × EvalExpr))
  | [], newRow => .ok (newRow, [])
  | (pos, expr) :: rest, newRow => do
    let (raw, expr) ← (expr.eval c.text current).mapError .sql
    match t.table.fields[pos]? with
    | none => .error (.table (.unknownError "an assignment is to one of the table's fields"))
    | some field =>
      let item ← (c.columnValue field raw).mapError .table
      let (newRow, rest) ← c.assignRow t current rest (newRow.set pos item)
      return (newRow, (pos, expr) :: rest)

/-- `update_rows_matching`, of the matches left. -/
def updateRowsMatching (c : Catalog) (t : StoredTable) :
    List (DBIdType × IndexKey) → List (Nat × EvalExpr) → Calls PUnit
  | [], _ => pure ⟨⟩
  | (oldKey, current) :: rest, assignments => do
    let (newRow, assignments) ← Script.ofExcept (c.assignRow t current assignments current)
    c.deleteOneRow t current oldKey
    c.insertOneRow t newRow
    c.updateRowsMatching t rest assignments

/-- `delete_rows_matching`, of the matches left. -/
def deleteRowsMatching (c : Catalog) (t : StoredTable) :
    List (DBIdType × IndexKey) → Calls PUnit
  | [] => pure ⟨⟩
  | (key, row) :: rest => do
    c.deleteOneRow t row key
    c.deleteRowsMatching t rest

/-- A row as its source reads it, with its key. -/
def readMatch (t : StoredTable) (row : TreeKey × List UInt8) :
    Except TableError (DBIdType × IndexKey) := do
  let id ← (KeyCode.decode row.1.id).mapError .ofStore
  return (id, ← t.table.decodeRow row.2 none)

/-- `table_scan_source` and `drain_with_ids`: the rows that match, with their keys. -/
def matchingRows (t : StoredTable) : Calls (List (DBIdType × IndexKey)) :=
  Script.select (fun key => t.partitions.any fun p => p.rows == key.tree) fun rows =>
    ofTable (rows.mapM (readMatch t))

end Catalog

/-- A statement that writes rows. What the rows of an INSERT come from, and what an UPDATE's or
a DELETE's WHERE keeps, was read before; `fails` is a statement that failed by then. -/
inductive Statement where
  | insert (table : String) (columns : Option (List String)) (selected : List (List ValueItem))
  | update (table : String) (assignments : List (Nat × EvalExpr))
  | delete (table : String)
  | truncate (table : String)
  | fails (e : StatementError)

/-- `Statement::execute`, of a statement that writes rows. -/
def Statement.calls (c : Catalog) : Statement → Calls PUnit
  | .insert table columns selected => do
    let t ← c.getTable table
    let rows ← ofTable (c.rowsFromSelect t columns selected)
    c.insertRowsInTxn t rows
  | .update table assignments => do
    let t ← c.getTable table
    let rows ← Catalog.matchingRows t
    c.updateRowsMatching t rows assignments
  | .delete table | .truncate table => do
    let t ← c.getTable table
    let rows ← Catalog.matchingRows t
    c.deleteRowsMatching t rows
  | .fails e => fail e

end SquealDb.Table
