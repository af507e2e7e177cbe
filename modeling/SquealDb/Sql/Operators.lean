import SquealDb.Sql.Numeric

/-!
# Operators on values

`CrateValueItem::unary`, `CrateValueItem::binary` and what they use, of
`plan/eval.rs`.

The integer operators are checked; unary minus is not, and wraps.
-/

namespace SquealDb.Sql

open Codec Lib

/-- `SchemaError`, the errors of evaluating and of running a query.  An operand error
keeps the values its text shows. -/
inductive SchemaError where
  | invalidOperationOnOperand (op what : String) (shown : List ValueItem)
  | internalSchemaError (what : String)
  | internalError (e : StoreError)
  | queryMemoryExceeded (requested used limit : Nat)
  | userError (what : String)
  | unknownError (what : String)
  deriving DecidableEq, Repr

/-- `SchemaError::from`. -/
def SchemaError.ofStore : StoreError → SchemaError
  | .tupleTooLarge actual max =>
    .userError ("value too large: " ++ toString actual ++ " byte(s), maximum allowed is " ++
      toString max ++ " byte(s)")
  | e => .internalError e

inductive UnaryOp where
  | plus | minus | not
  deriving DecidableEq, Repr

inductive BinaryOp where
  | plus | minus | multiply | divide | modulo | concat
  | eq | notEq | lt | ltEq | gt | gtEq | and | or
  deriving DecidableEq, Repr

/-- The operator's `Debug` text. -/
def UnaryOp.debug : UnaryOp → String
  | .plus => "Plus"
  | .minus => "Minus"
  | .not => "Not"

@[inherit_doc UnaryOp.debug]
def BinaryOp.debug : BinaryOp → String
  | .plus => "Plus"
  | .minus => "Minus"
  | .multiply => "Multiply"
  | .divide => "Divide"
  | .modulo => "Modulo"
  | .concat => "Concat"
  | .eq => "Eq"
  | .notEq => "NotEq"
  | .lt => "Lt"
  | .ltEq => "LtEq"
  | .gt => "Gt"
  | .gtEq => "GtEq"
  | .and => "And"
  | .or => "Or"

def operandErrorMsg {α : Type} (op what : String) : Except SchemaError α :=
  .error (.invalidOperationOnOperand op what [])

/-- The integer an `i64` operation makes, if it is one. -/
def checked (n : Int) : Option Int64 :=
  if -2 ^ 63 ≤ n ∧ n < 2 ^ 63 then some (Int64.ofInt n) else none

def checkedAdd (a b : Int64) : Option Int64 := checked (a.toInt + b.toInt)

def checkedSub (a b : Int64) : Option Int64 := checked (a.toInt - b.toInt)

def checkedMul (a b : Int64) : Option Int64 := checked (a.toInt * b.toInt)

def checkedAbs (a : Int64) : Option Int64 := checked a.toInt.natAbs

def checkedDiv (a b : Int64) : Option Int64 :=
  if b = 0 then none else checked (a.toInt.tdiv b.toInt)

/-- `checked_rem`: `none` also where the quotient overflows. -/
def checkedRem (a b : Int64) : Option Int64 :=
  if b = 0 then none
  else if a = Int64.minValue ∧ b = -1 then none
  else checked (a.toInt.tmod b.toInt)

def numeric (lhs rhs : ValueItem) (op : BinaryOp) (intOp : Int64 → Int64 → Option Int64)
    (floatOp : UInt64 → UInt64 → UInt64) (intErr : String) : Except SchemaError ValueItem :=
  match lhs, rhs with
  | .integer a, .integer b =>
    match intOp a b with
    | some i => .ok (.integer i)
    | none => operandErrorMsg op.debug intErr
  | .double a, .double b => .ok (.double (floatOp a b))
  | .integer a, .double b => .ok (.double (floatOp (Binary64.ofInt a.toInt) b))
  | .double a, .integer b => .ok (.double (floatOp a (Binary64.ofInt b.toInt)))
  | _, _ => operandErrorMsg op.debug "non-numeric operand"

def typeName : ValueItem → String
  | .null => "null"
  | .integer _ => "integer"
  | .double _ => "double"
  | .datetime _ => "datetime"
  | .str _ _ => "string"
  | .blob _ _ => "blob"
  | .boolean _ => "boolean"

def sameType (lhs rhs : ValueItem) (op : BinaryOp) : Except SchemaError Unit :=
  if lhs.typeRank = rhs.typeRank then .ok ()
  else
    .error (.invalidOperationOnOperand op.debug
      ("cannot compare different data types (" ++ typeName lhs ++ " and " ++ typeName rhs ++ ")")
      [])

def valuesEqual (lhs rhs : ValueItem) (op : BinaryOp) : Except SchemaError Bool :=
  match cmpMixed lhs rhs with
  | some ord => .ok (ord == some .eq)
  | none => do
    sameType lhs rhs op
    return match lhs, rhs with
      | .double a, .double b => Binary64.ieeeEq a b
      | .str a _, .str b _ => a == b
      | .blob a _, .blob b _ => a == b
      | _, _ => lhs.eq rhs

/-- `compare`. -/
def compareValues (lhs rhs : ValueItem) (op : BinaryOp) : Except SchemaError Ordering :=
  let orNan (ord : Option Ordering) : Except SchemaError Ordering :=
    match ord with
    | some o => .ok o
    | none => operandErrorMsg op.debug "NaN"
  match cmpMixed lhs rhs with
  | some ord => orNan ord
  | none => do
    sameType lhs rhs op
    match lhs, rhs with
    | .integer a, .integer b => .ok (compare a b)
    | .datetime a, .datetime b => .ok (compare a b)
    | .str a _, .str b _ => .ok (compare (asBytes a) (asBytes b))
    | .boolean a, .boolean b => .ok (compare a b)
    | .double a, .double b => orNan (Binary64.partialCmp a b)
    | _, _ => operandErrorMsg op.debug "mismatched or unorderable operand types"

def unary (item : ValueItem) (op : UnaryOp) : Except SchemaError ValueItem :=
  match item with
  | .blob _ _ | .str _ _ | .datetime _ => operandErrorMsg op.debug " blob/string/date"
  | .boolean b =>
    match op with
    | .not => .ok (.boolean !b)
    | _ => operandErrorMsg op.debug "boolean"
  | .double d =>
    match op with
    | .minus => .ok (.double (Binary64.neg d))
    | .plus => .ok (.double d)
    | .not => operandErrorMsg "not" "double"
  | .integer i =>
    match op with
    | .minus => .ok (.integer (-i))
    | .plus => .ok (.integer i)
    | .not => operandErrorMsg "not" "integer"
  | .null => .ok .null

/-- The truth value `AND` and `OR` read an operand as. -/
def truth (op : BinaryOp) : ValueItem → Except SchemaError (Option Bool)
  | .boolean b => .ok (some b)
  | .null => .ok none
  | _ => operandErrorMsg op.debug "non-boolean operand"

/-- `AND` and `OR`: a known operand can decide the answer on its own, and only
otherwise is a `NULL` operand the answer. -/
def logic (lhs rhs : ValueItem) (op : BinaryOp) : Except SchemaError ValueItem := do
  let l ← truth op lhs
  let r ← truth op rhs
  let decisive := op == .or
  if l = some decisive ∨ r = some decisive then return .boolean decisive
  else if l = none ∨ r = none then return .null
  else return .boolean !decisive

def binary (lhs rhs : ValueItem) (op : BinaryOp) : Except SchemaError ValueItem :=
  if op = .and ∨ op = .or then logic lhs rhs op
  else if lhs = .null ∨ rhs = .null then .ok .null
  else
    match op with
    | .plus => numeric lhs rhs op checkedAdd Binary64.add "integer overflow"
    | .minus => numeric lhs rhs op checkedSub Binary64.sub "integer overflow"
    | .multiply => numeric lhs rhs op checkedMul Binary64.mul "integer overflow"
    | .divide => numeric lhs rhs op checkedDiv Binary64.div "division by zero"
    | .modulo => numeric lhs rhs op checkedRem Binary64.rem "division by zero"
    | .concat =>
      match lhs, rhs with
      | .str a _, .str b _ => .ok (.str (a ++ b) (UInt32.ofNat (asBytes (a ++ b)).length))
      | _, _ => operandErrorMsg op.debug "non-string operand"
    | .eq => return .boolean (← valuesEqual lhs rhs op)
    | .notEq => return .boolean !(← valuesEqual lhs rhs op)
    | .lt => return .boolean (← compareValues lhs rhs op).isLT
    | .ltEq => return .boolean (← compareValues lhs rhs op).isLE
    | .gt => return .boolean (← compareValues lhs rhs op).isGT
    | .gtEq => return .boolean (← compareValues lhs rhs op).isGE
    | .and | .or => logic lhs rhs op

end SquealDb.Sql
