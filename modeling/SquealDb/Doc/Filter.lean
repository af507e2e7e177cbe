import SquealDb.Doc.Collection

/-!
# Query filters

`sq-json/src/filter.rs`: how a filter document parses, which documents it matches, and the
conditions that every document it matches must meet on one field each, which an index can use and
an upsert starts from.

The `regex` crate is a parameter, and so are the expressions of `$expr`.
-/

namespace SquealDb.Doc

open Lib

/-- `RegexBuilder::build` with its options, and `is_match`; `parse_expr`, and whether `eval` gives
a value that is `truthy`. -/
structure Matching where
  Regex : Type
  build : String → String → Except String Regex
  isMatch : Regex → String → Bool
  Expr : Type
  parseExpr : Value → Except OpError Expr
  holds : Expr → Document → Bool

inductive CmpOp where
  | gt
  | gte
  | lt
  | lte
  deriving DecidableEq, Repr

variable (ext : Matching)

structure Pattern where
  regex : ext.Regex
  source : String
  options : String

mutual

inductive Filter where
  | and (filters : List Filter)
  | or (filters : List Filter)
  | nor (filters : List Filter)
  | field (path : String) (conds : List Cond)
  | expr (e : ext.Expr)

inductive Cond where
  | eq (v : Value)
  | ne (v : Value)
  | cmp (op : CmpOp) (v : Value)
  | isIn (values : List Value)
  | nin (values : List Value)
  | exists (want : Bool)
  | size (n : Nat)
  | all (values : List Value)
  | elemMatch (matching : ElemMatch)
  | not (conds : List Cond)
  | regex (pattern : Pattern ext)

inductive ElemMatch where
  | filter (f : Filter)
  | conds (conds : List Cond)

end

variable {ext}

/-! ## Parsing -/

def Pattern.new (source options : String) : Except OpError (Pattern ext) :=
  match options.toList.find? fun o => o ∉ ['i', 'm', 's', 'x'] with
  | some other => .error (.badValue ("unknown $regex option '" ++ String.ofList [other] ++ "'"))
  | none =>
    match ext.build source options with
    | .error e => .error (.badValue ("bad $regex: " ++ e))
    | .ok regex => .ok ⟨regex, source, options⟩

/-- The name of an operator. -/
def isDollar (key : String) : Bool := key.toList.head? == some '$'

/-- `is_operator_doc`: by its first field. -/
def isOperatorDoc (d : Document) : Bool := d.head?.any fun field => isDollar field.1

/-- `truthy` of `filter.rs`. -/
def truthy : Value → Bool
  | .null | .bool false => false
  | .int i => i != 0
  | .double d => !Binary64.ieeeEq d 0
  | _ => true

/-- `*n as usize`, of a double that is not negative. -/
def asUsize (d : UInt64) : Nat := min (Binary64.trunc d).toNat (2 ^ 64 - 1)

/-- A whole number that is not negative. -/
def wholeCount : Value → Option Nat
  | .int n => if 0 ≤ n.toInt then some n.toInt.toNat else none
  | .double d =>
    if Binary64.isFinite d ∧ 0 ≤ Binary64.scaled d ∧ Binary64.fraction d = 0 then
      some (asUsize d)
    else none
  | _ => none

/-- The array that an operator needs. -/
def arrayArg (op : String) : Value → Except OpError (List Value)
  | .array items => .ok items
  | _ => .error (.badValue (op ++ " needs an array"))

/-- The `$options` of a document of operators. -/
def optionsOf (d : Document) : Except OpError String :=
  match d.get "$options" with
  | none => .ok ""
  | some v =>
    if (d.get "$regex").isNone then .error (.badValue "$options needs a $regex")
    else
      match v with
      | .string o => .ok o
      | _ => .error (.badValue "$options needs a string")

/-- An operator whose argument has no filter in it, in `parse_operators`. -/
def parseOperator (options path op : String) (v : Value) : Except OpError (Cond ext) :=
  if op = "$regex" then
    match v with
    | .string source => (Pattern.new source options).map .regex
    | _ => .error (.badValue "$regex needs a string")
  else if op = "$eq" then .ok (.eq v)
  else if op = "$ne" then .ok (.ne v)
  else if op = "$gt" then .ok (.cmp .gt v)
  else if op = "$gte" then .ok (.cmp .gte v)
  else if op = "$lt" then .ok (.cmp .lt v)
  else if op = "$lte" then .ok (.cmp .lte v)
  else if op = "$in" then (arrayArg op v).map .isIn
  else if op = "$nin" then (arrayArg op v).map .nin
  else if op = "$all" then (arrayArg op v).map .all
  else if op = "$exists" then .ok (.exists (truthy v))
  else if op = "$size" then
    match wholeCount v with
    | some n => .ok (.size n)
    | none => .error (.badValue "$size needs a non-negative whole number")
  else .error (.badValue ("unknown operator " ++ op ++ " on " ++ path))

mutual

/-- The loop of `Filter::parse`. -/
def parseFields : List (String × Value) → Except OpError (List (Filter ext))
  | [] => .ok []
  | (key, value) :: rest =>
    if key = "$comment" then parseFields rest
    else
      (if key = "$and" then (parseList key value).map .and
        else if key = "$or" then (parseList key value).map .or
        else if key = "$nor" then (parseList key value).map .nor
        else if key = "$expr" then (ext.parseExpr value).map .expr
        else if isDollar key then .error (.badValue ("unknown top level operator: " ++ key))
        else (parseConds key value).map (.field key)) >>= fun part =>
      parseFields rest >>= fun parts =>
      pure (part :: parts)

def parseList (op : String) : Value → Except OpError (List (Filter ext))
  | .array [] => .error (.badValue (op ++ " must be a nonempty array"))
  | .array items => parseEntries op items
  | _ => .error (.badValue (op ++ " must be an array"))

def parseEntries (op : String) : List Value → Except OpError (List (Filter ext))
  | [] => .ok []
  | .document d :: rest => do
    let parts ← parseFields d
    let filters ← parseEntries op rest
    pure (.and parts :: filters)
  | _ :: _ => .error (.badValue (op ++ " entries need to be full objects"))

def parseConds (path : String) : Value → Except OpError (List (Cond ext))
  | .document d =>
    if isOperatorDoc d then do
      let options ← optionsOf d
      parseOperators options path d
    else .ok [.eq (.document d)]
  | other => .ok [.eq other]

/-- `parse_operators`, with the `$options`. -/
def parseOperators (options path : String) :
    List (String × Value) → Except OpError (List (Cond ext))
  | [] => .ok []
  | (op, v) :: rest =>
    if op = "$options" then parseOperators options path rest
    else
      (if op = "$elemMatch" then parseElemMatch path v
        else if op = "$not" then parseNot path v
        else parseOperator options path op v) >>= fun cond =>
      parseOperators options path rest >>= fun conds =>
      pure (cond :: conds)

/-- `$elemMatch`. -/
def parseElemMatch (path : String) : Value → Except OpError (Cond ext)
  | .document inner =>
    if isOperatorDoc inner then do
      let options ← optionsOf inner
      let conds ← parseOperators options path inner
      pure (.elemMatch (.conds conds))
    else do
      let parts ← parseFields inner
      pure (.elemMatch (.filter (.and parts)))
  | _ => .error (.badValue "$elemMatch needs an Object")

/-- `$not`. -/
def parseNot (path : String) : Value → Except OpError (Cond ext)
  | .document inner =>
    if isOperatorDoc inner then do
      let options ← optionsOf inner
      let conds ← parseOperators options path inner
      pure (.not conds)
    else .error (.badValue "$not needs an operator object")
  | _ => .error (.badValue "$not needs an operator object")

end

def Filter.parse (doc : Document) : Except OpError (Filter ext) :=
  (parseFields doc).map .and

/-! ## Matching -/

/-- `eq_holds`: the field's value, or an element of it; null is missing as well. -/
def eqHolds (values : List Value) (v : Value) : Bool :=
  (match v with
    | .null => values.isEmpty
    | _ => false) ||
  values.any fun x =>
    x.valuesEqual v ||
      match x with
      | .array items => items.any fun e => e.valuesEqual v
      | _ => false

/-- `cmp_value`: within the bracket of the operand's type. -/
def cmpValue (x : Value) (op : CmpOp) (v : Value) : Bool :=
  if x.typeOrder ≠ v.typeOrder then false
  else
    match op with
    | .gt => (x.compare v).isGT
    | .gte => (x.compare v).isGE
    | .lt => (x.compare v).isLT
    | .lte => (x.compare v).isLE

def cmpHolds (values : List Value) (op : CmpOp) (v : Value) : Bool :=
  match v with
  | .null => (op == .gte || op == .lte) && eqHolds values v
  | _ =>
    values.any fun x =>
      cmpValue x op v ||
        match x with
        | .array items => items.any fun e => cmpValue e op v
        | _ => false

def Pattern.isMatch (p : Pattern ext) : Value → Bool
  | .string s => ext.isMatch p.regex s
  | _ => false

/-- `holds_for_value`, of an element that is not reached through a path; `otherwise` is what
`holds` says of it alone. -/
def Cond.holdsForValue (v : Value) (otherwise : Bool) : Cond ext → Bool
  | .eq target => v.valuesEqual target
  | .ne target => !v.valuesEqual target
  | .cmp op target => cmpValue v op target
  | .isIn targets => targets.any v.valuesEqual
  | .nin targets => !targets.any v.valuesEqual
  | _ => otherwise

mutual

def Filter.matches : Filter ext → Document → Bool
  | .and filters, doc => allMatch filters doc
  | .or filters, doc => anyMatches filters doc
  | .nor filters, doc => !anyMatches filters doc
  | .field path conds, doc => allHold conds (lookup doc path)
  | .expr e, doc => ext.holds e doc

def allMatch : List (Filter ext) → Document → Bool
  | [], _ => true
  | f :: rest, doc => f.matches doc && allMatch rest doc

def anyMatches : List (Filter ext) → Document → Bool
  | [], _ => false
  | f :: rest, doc => f.matches doc || anyMatches rest doc

/-- `Cond::holds`, of a field whose path reached these values. -/
def Cond.holds : Cond ext → List Value → Bool
  | .eq v, values => eqHolds values v
  | .ne v, values => !eqHolds values v
  | .cmp op v, values => cmpHolds values op v
  | .isIn vs, values => vs.any (eqHolds values)
  | .nin vs, values => !vs.any (eqHolds values)
  | .exists want, values => !values.isEmpty == want
  | .size n, values => values.any fun v =>
    match v with
    | .array items => items.length == n
    | _ => false
  | .all vs, values => !vs.isEmpty && vs.all (eqHolds values)
  | .elemMatch matching, values => values.any fun v =>
    match v with
    | .array items => items.any matching.matches
    | _ => false
  | .not conds, values => !allHold conds values
  | .regex p, values => values.any fun v =>
    p.isMatch v ||
      match v with
      | .array items => items.any p.isMatch
      | _ => false

def allHold : List (Cond ext) → List Value → Bool
  | [], _ => true
  | c :: rest, values => c.holds values && allHold rest values

def ElemMatch.matches : ElemMatch ext → Value → Bool
  | .filter f, element =>
    match element with
    | .document d => f.matches d
    | _ => false
  | .conds conds, element => allHoldForValue conds element

def allHoldForValue : List (Cond ext) → Value → Bool
  | [], _ => true
  | c :: rest, v => c.holdsForValue v (c.holds [v]) && allHoldForValue rest v

end

/-! ## Required conditions -/

mutual

/-- `Filter::required`: the conditions that every document matched must meet on one field each. -/
def Filter.required : Filter ext → List (String × Cond ext)
  | .and filters => requiredOfAll filters
  | .field path conds => conds.map fun c => (path, c)
  | .or _ | .nor _ | .expr _ => []

def requiredOfAll : List (Filter ext) → List (String × Cond ext)
  | [] => []
  | f :: rest => f.required ++ requiredOfAll rest

end

end SquealDb.Doc
