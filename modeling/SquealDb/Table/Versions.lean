import SquealDb.Codec.ValueBytes
import SquealDb.Sql.DataType

/-!
# A table's column layouts

`Field`, `TableBuilder::build`, `alter_add_column`, `alter_drop_column`,
`alter_rename_column` and `reproject` of `table.rs`.

Each alteration adds a version and leaves the earlier ones.  A column is told across the
versions by an id that no other column is given; a renamed column keeps its own.  Whole
tables are described by their columns here: what they are stored in is left out.
-/

namespace SquealDb.Table

open Codec Sql

/-- `SchemaError`, as rows and alterations give it. -/
inductive TableError where
  | badTableName (what : String)
  | userError (what : String)
  | unknownError (what : String)
  | internalError (e : ValueError)
  deriving DecidableEq, Repr

/-- `SchemaError::from`. -/
def TableError.ofStore : StoreError → TableError
  | .tupleTooLarge actual max =>
    .userError ("value too large: " ++ toString actual ++ " byte(s), maximum allowed is " ++
      toString max ++ " byte(s)")
  | e => .internalError (.store e)

/-- `SchemaError::from`. -/
def TableError.ofValue : ValueError → TableError
  | .store e => .ofStore e
  | e => .internalError e

/-- `new_from` and `new_from_owned`, their error converted. -/
def newRow (values : List ValueItem) : Except TableError IndexKey :=
  (IndexKey.newFromOwned values).mapError .ofStore

structure Field where
  id : UInt32
  name : String
  datatype : DataType
  nullable : Bool
  default : Option ValueItem
  deriving DecidableEq, Repr

namespace Field

/-- A string or blob type of more than a field may hold. -/
def tooLong : DataType → Bool
  | .blob l | .str l => l > 4 * 1024 * 1024
  | _ => false

def new (name : String) (datatype : DataType) (nullable : Bool) (default : Option ValueItem) :
    Except TableError Field :=
  if tooLong datatype then .error (.userError "Max field size is 4MB.")
  else if default = some .null ∧ nullable = false then
    .error (.userError ("Column " ++ name.quote ++ " is NOT NULL and cannot DEFAULT to NULL"))
  else .ok { id := 0, name, datatype, nullable, default }

def withId (f : Field) (id : UInt32) : Field := { f with id }

/-- What a row that has no value for the column reads as. -/
def backfill (f : Field) : ValueItem := f.default.getD .null

end Field

/-- `SchemaVersion`: its fields. -/
abbrev SchemaVersion := List Field

structure SqlIndex where
  name : Option String
  isPrimary : Bool
  isUnique : Bool
  fields : List Field
  deriving DecidableEq, Repr

structure SqlForeignKey where
  name : Option String
  column : String
  refTable : String
  refColumn : String
  deriving DecidableEq, Repr

/-- `SqlTable`, what of it rows and alterations go by; `partitionedBy` is the id of the
column it is partitioned by. -/
structure SqlTable where
  name : String
  versions : List SchemaVersion
  indices : List SqlIndex
  foreignKeys : List SqlForeignKey
  nextFieldId : UInt32
  partitionedBy : Option UInt32
  hasVersion : versions ≠ []
  deriving DecidableEq, Repr

namespace SqlTable

def fields (t : SqlTable) : SchemaVersion := t.versions.getLast t.hasVersion

def version (t : SqlTable) : UInt32 := UInt32.ofNat (t.versions.length - 1)

def fieldsAt (t : SqlTable) (version : UInt32) : Option SchemaVersion :=
  t.versions[version.toNat]?

theorem toNat_version {t : SqlTable} (h : t.versions.length ≤ 2 ^ 32) :
    t.version.toNat = t.versions.length - 1 := by
  have hpos := List.length_pos_of_ne_nil t.hasVersion
  rw [version, UInt32.toNat_ofNat', Nat.mod_eq_of_lt (by omega)]

/-- The current version's columns are the table's. -/
theorem fieldsAt_version {t : SqlTable} (h : t.versions.length ≤ 2 ^ 32) :
    t.fieldsAt t.version = some t.fields := by
  rw [fieldsAt, toNat_version h, fields, ← List.getLast?_eq_getElem?,
    List.getLast?_eq_some_getLast]

/-- The table with one more version. -/
def pushVersion (t : SqlTable) (fields : SchemaVersion) : SqlTable where
  name := t.name
  versions := t.versions ++ [fields]
  indices := t.indices
  foreignKeys := t.foreignKeys
  nextFieldId := t.nextFieldId
  partitionedBy := t.partitionedBy
  hasVersion := List.append_ne_nil_of_right_ne_nil _ (List.cons_ne_nil _ _)

/-- `partition_column`: its name. -/
def partitionColumn (t : SqlTable) : Option String := do
  let id ← t.partitionedBy
  return (← t.fields.find? fun f => f.id = id).name

def indexReferencing (t : SqlTable) (column : String) : Option SqlIndex :=
  t.indices.find? fun i => i.fields.any fun f => f.name = column

def fkReferencingLocalColumn (t : SqlTable) (column : String) : Option SqlForeignKey :=
  t.foreignKeys.find? fun fk => fk.column = column

/-- The table has a column of that name. -/
def hasColumn (t : SqlTable) (name : String) : Bool := t.fields.any fun f => f.name = name

def alterAddColumn (t : SqlTable) (field : Field) : Except TableError SqlTable :=
  if t.hasColumn field.name then
    .error (.userError ("Duplicate field name: " ++ field.name))
  else if field.nullable = false ∧ field.default = none then
    .error (.userError ("Column " ++ field.name.quote ++ " is NOT NULL — ADD COLUMN on a table " ++
      "that may already have rows needs a DEFAULT to backfill existing rows with"))
  else
    .ok { t.pushVersion (t.fields ++ [field.withId t.nextFieldId]) with
      nextFieldId := t.nextFieldId + 1 }

/-- What `alter_drop_column` and `alter_rename_column` refuse of a column that an index or
a foreign key is on. -/
def checkUnused (t : SqlTable) (name : String) : Except TableError Unit :=
  match t.indexReferencing name with
  | some i =>
    .error (.userError ("Column " ++ name.quote ++ " is used by index " ++
      (i.name.getD "<unnamed>").quote ++ " — drop the index first"))
  | none =>
    match t.fkReferencingLocalColumn name with
    | some fk =>
      .error (.userError ("Column " ++ name.quote ++ " is used by foreign key " ++
        (fk.name.getD "<unnamed>").quote ++ " — drop the foreign key first"))
    | none => .ok ()

/-- The error of both for a name that is none of the table's. -/
def noColumn (t : SqlTable) (name : String) : TableError :=
  .userError ("Table " ++ t.name.quote ++ " has no column named " ++ name.quote)

def alterDropColumn (t : SqlTable) (name : String) : Except TableError SqlTable :=
  if t.hasColumn name = false then .error (t.noColumn name)
  else if t.partitionColumn = some name then
    .error (.userError ("Column " ++ name.quote ++ " is what table " ++ t.name.quote ++
      " is partitioned by"))
  else do
    t.checkUnused name
    let fields := t.fields.filter fun f => f.name ≠ name
    if fields.isEmpty then .error (.userError "Cannot drop the last remaining column")
    else .ok (t.pushVersion fields)

def alterRenameColumn (t : SqlTable) (oldName newName : String) : Except TableError SqlTable :=
  if t.hasColumn oldName = false then .error (t.noColumn oldName)
  else if t.hasColumn newName then
    .error (.userError ("Duplicate field name: " ++ newName))
  else do
    t.checkUnused oldName
    return t.pushVersion (t.fields.map fun f =>
      if f.name = oldName then { f with name := newName } else f)

/-- `reproject`, of a `VersionedRow`. -/
def reproject (t : SqlTable) (version : UInt32) (values : IndexKey) :
    Except TableError IndexKey :=
  match t.fieldsAt version with
  | none =>
    .error (.unknownError ("row was written under schema version " ++ toString version ++
      " but table " ++ t.name.quote ++ " has no such version"))
  | some stored =>
    if values.length ≠ stored.length then
      .error (.unknownError ("row has " ++ toString values.length ++
        " value(s) but schema version " ++ toString version ++ " of table " ++ t.name.quote ++
        " declared " ++ toString stored.length ++ " field(s)"))
    else if version = t.version then .ok values
    else
      newRow (t.fields.map fun f =>
        match stored.findIdx? fun sf => sf.id = f.id with
        | some pos => values.getD pos .null
        | none => f.backfill)

end SqlTable

/-! ## Creating a table -/

structure IndexHolder where
  name : Option String
  isPrimary : Bool
  isUnique : Bool
  fields : List String
  deriving DecidableEq, Repr

/-- The derived `Debug` of an index. -/
def IndexHolder.debug (i : IndexHolder) : String :=
  "IndexHolder \x7b name: " ++
    (match i.name with | some n => "Some(" ++ n.quote ++ ")" | none => "None") ++
    ", is_primary: " ++ toString i.isPrimary ++ ", is_unique: " ++ toString i.isUnique ++
    ", fields: [" ++ ", ".intercalate (i.fields.map String.quote) ++ "] \x7d"

/-- The derived `Debug` of a type. -/
def debugType : DataType → String
  | .integer => "Integer"
  | .double => "Double"
  | .datetime => "Datetime"
  | .str n => "Str(" ++ toString n ++ ")"
  | .blob n => "Blob(" ++ toString n ++ ")"
  | .null => "Null"
  | .unsupported => "Unsupported"
  | .boolean => "Boolean"

namespace SqlTable

def uniqueIndexOn (t : SqlTable) (column : String) : Option SqlIndex :=
  t.indices.find? fun i => (i.isPrimary || i.isUnique) && (i.fields.map (·.name) == [column])

def validateForeignKeyTarget (t : SqlTable) (refColumn : String) (datatype : DataType) :
    Except TableError Unit :=
  match t.fields.find? fun f => f.name = refColumn with
  | none => .error (t.noColumn refColumn)
  | some field =>
    if (t.uniqueIndexOn refColumn).isNone then
      .error (.userError ("Column " ++ refColumn.quote ++ " on table " ++ t.name.quote ++
        " must be a PRIMARY KEY or UNIQUE column to be a foreign key target"))
    else if field.datatype ≠ datatype then
      .error (.userError ("Foreign key column type " ++ debugType datatype ++
        " does not match referenced column " ++ refColumn.quote ++ "'s type " ++
        debugType field.datatype))
    else .ok ()

end SqlTable

/-- `TableBuilder`, once it has a name. -/
structure TableBuilder where
  name : String
  fields : List Field
  indices : List IndexHolder
  foreignKeys : List SqlForeignKey
  deriving DecidableEq, Repr

namespace TableBuilder

/-- The fields' names: each short enough, and none twice. -/
def checkNames : List String → List Field → Except TableError Unit
  | _, [] => .ok ()
  | seen, f :: rest =>
    if 128 ≤ f.name.utf8ByteSize then
      .error (.userError "Max field name length is 128")
    else if f.name ∈ seen then .error (.userError ("Duplicate field name: " ++ f.name))
    else checkNames (f.name :: seen) rest

/-- `build`'s checks of one index. -/
def checkIndex (fields : List Field) (i : IndexHolder) : Except TableError Unit :=
  if i.isPrimary ∧ i.isUnique = false then
    .error (.userError ("Primary index must be unique. " ++ i.debug))
  else if (i.isPrimary ∨ i.isUnique) ∧
      i.fields.any fun n => fields.any fun f => f.name = n ∧ f.nullable then
    .error (.userError "Unique or primary keys cannot be nullable")
  else if ¬ i.fields.all fun n => fields.any fun f => f.name = n then
    .error (.userError ("Index " ++ i.debug ++ ": has field names not in table"))
  else .ok ()

/-- `build`'s checks of the foreign keys, given the names seen so far. -/
def checkForeignKeys (fields : List Field) :
    List String → List SqlForeignKey → Except TableError Unit
  | _, [] => .ok ()
  | seen, fk :: rest =>
    if ¬ fields.any fun f => f.name = fk.column then
      .error (.userError ("Foreign key references unknown column: " ++ fk.column))
    else
      match fk.name with
      | none => checkForeignKeys fields seen rest
      | some name =>
        if name ∈ seen then
          .error (.userError ("Duplicate foreign key constraint name: " ++ name))
        else checkForeignKeys fields (name :: seen) rest

/-- The first version: the fields with their ids, by position. -/
def numbered (fields : List Field) : SchemaVersion :=
  fields.mapIdx fun i f => f.withId (UInt32.ofNat i)

/-- `build`'s check of the foreign keys to the table itself. -/
def checkSelfKeys (t : SqlTable) : List SqlForeignKey → Except TableError Unit
  | [] => .ok ()
  | fk :: rest => do
    if fk.refTable.toLower = t.name.toLower then
      match t.fields.find? fun f => f.name = fk.column with
      | some f => t.validateForeignKeyTarget fk.refColumn f.datatype
      | none => .ok ()
    checkSelfKeys t rest

/-- The table `build` makes of its columns, indexes and foreign keys. -/
def table (b : TableBuilder) : SqlTable where
  name := b.name
  versions := [numbered b.fields]
  indices := b.indices.map fun i => {
    name := i.name
    isPrimary := i.isPrimary
    isUnique := i.isUnique
    fields := i.fields.filterMap fun n => (numbered b.fields).find? fun f => f.name = n }
  foreignKeys := b.foreignKeys
  nextFieldId := UInt32.ofNat b.fields.length
  partitionedBy := none
  hasVersion := List.cons_ne_nil _ _

def build (b : TableBuilder) : Except TableError SqlTable := do
  if 128 < b.name.utf8ByteSize then
    throw (.badTableName "Table name cannot be longer than 128")
  checkNames [] b.fields
  b.indices.forM (checkIndex b.fields)
  checkForeignKeys b.fields [] b.foreignKeys
  checkSelfKeys b.table b.foreignKeys
  return b.table

end TableBuilder

end SquealDb.Table
