import SquealDb.Sql.Expr
import SquealDb.Table.RowReading

/-!
# The readers of a stored row

`ColumnTest`, `decode_row_if` and `decode_row_into` of `table.rs`.

Each goes its own way through a packed row of the current version, and a row in another form
or of an earlier version through `decode_row`.
-/

namespace SquealDb.Table

open Codec Codec.KeyCode Lib Sql

/-! ## Tests -/

structure ColumnTest where
  pos : Nat
  datatype : DataType
  op : BinaryOp
  value : ValueItem
  deriving DecidableEq, Repr

namespace ColumnTest

/-- A comparison read from the other side. -/
def flipped : BinaryOp → BinaryOp
  | .lt => .gt
  | .ltEq => .gtEq
  | .gt => .lt
  | .gtEq => .ltEq
  | other => other

/-- The operator compares. -/
def compares : BinaryOp → Bool
  | .eq | .notEq | .lt | .ltEq | .gt | .gtEq => true
  | _ => false

/-- The literal is of the column's type, one whose values order plainly. -/
def typed : DataType → ValueItem → Bool
  | .integer, .integer _ => true
  | .datetime, .datetime _ => true
  | .str _, .str _ _ => true
  | .boolean, .boolean _ => true
  | _, _ => false

/-- The test of a column against a literal, if it is one. -/
def make (fields : SchemaVersion) (pos : Nat) (op : BinaryOp) (value : ValueItem) :
    Option ColumnTest := do
  let field ← fields[pos]?
  if compares op && typed field.datatype value then some ⟨pos, field.datatype, op, value⟩ else none

def of (fields : SchemaVersion) : EvalExpr → Option ColumnTest
  | .binary (.value pos) op (.literal v) => make fields pos op v
  | .binary (.literal v) op (.value pos) => make fields pos (flipped op) v
  | _ => none

def passes (test : ColumnTest) (column : ValueItem) : Bool :=
  if column.eq .null then false
  else if column.typeRank ≠ test.value.typeRank then true
  else
    let ord := column.cmp test.value
    match test.op with
    | .eq => ord.isEq
    | .notEq => ord.isNe
    | .lt => ord.isLT
    | .ltEq => ord.isLE
    | .gt => ord.isGT
    | .gtEq => ord.isGE
    | _ => true

/-- A test is of a column of the table's, by its type. -/
theorem of_field {fields : SchemaVersion} {filter : EvalExpr} {test : ColumnTest}
    (h : of fields filter = some test) :
    ∃ f, fields[test.pos]? = some f ∧ f.datatype = test.datatype := by
  have hmake : ∀ {pos op v}, make fields pos op v = some test →
      ∃ f, fields[test.pos]? = some f ∧ f.datatype = test.datatype := by
    intro pos op v hm
    rw [make] at hm
    cases hf : fields[pos]? with
    | none => simp [hf] at hm
    | some f =>
      simp only [hf, Option.bind_eq_bind, Option.bind_some] at hm
      split at hm
      · rw [← Option.some.inj hm]
        exact ⟨f, hf, rfl⟩
      · exact nomatch hm
  unfold of at h
  split at h
  · exact hmake h
  · exact hmake h
  · exact nomatch h

end ColumnTest

/-! ## Reading a row if it passes -/

/-- The loop of `decode_row_if` over a packed row's tests: no answer if the row is not packed,
an error if it is damaged. -/
def testsPacked (row : List UInt8) (columns : Nat) :
    List ColumnTest → Option (Except TableError Bool)
  | [] => some (.ok true)
  | test :: rest =>
    match Packed.readOne row columns test.pos test.datatype with
    | none => none
    | some none => some (.error damaged)
    | some (some value) =>
      if test.passes value then testsPacked row columns rest else some (.ok false)

/-- The loop of `decode_row_if` over a fixed-width row's tests. -/
def testsFixed (l : RowLayout) (row : List UInt8) : List ColumnTest → Except TableError Bool
  | [] => .ok true
  | test :: rest =>
    match ValueItem.decode (l.column row test.pos) with
    | .error e => .error (.ofValue e)
    | .ok (value, _) => if test.passes value then testsFixed l row rest else .ok false

/-- The loop of `decode_row_into` and `decode_row_to_batch` over a parsed row's tests. -/
def testsParsed (p : Packed) : List ColumnTest → Except TableError Bool
  | [] => .ok true
  | test :: rest =>
    match p.value test.pos (p.startOf test.pos) (p.endOf test.pos) test.datatype with
    | none => .error damaged
    | some value => if test.passes value then testsParsed p rest else .ok false

/-- `store_in`: what a slot holds afterwards. -/
def storeIn (slot value : ValueItem) : ValueItem :=
  match slot, value with
  | .str _ _, .str s c => .str s c
  | _, v => v

@[simp] theorem storeIn_eq (slot value : ValueItem) : storeIn slot value = value := by
  unfold storeIn
  split <;> rfl

/-- Each slot filled with a value; there are as many of one as of the other. -/
def storeAll : List ValueItem → List ValueItem → List ValueItem
  | slot :: slots, v :: vs => storeIn slot v :: storeAll slots vs
  | slots, _ => slots

def resize (out : List ValueItem) (n : Nat) : List ValueItem :=
  out.take n ++ List.replicate (n - out.length) .null

namespace SqlTable

/-- The tests of `decode_row_if` that its row fails, if it is tested at all. -/
def rowPasses (t : SqlTable) (row : StoredRow) (tests : List ColumnTest) :
    Except TableError Bool :=
  let columns := t.fields.length
  let packed := if ¬ tests.isEmpty ∧ row.version = t.version ∧ 0 < columns
    then testsPacked row.values columns tests else none
  match packed with
  | some passed => passed
  | none =>
    let fixed := if ¬ tests.isEmpty ∧ row.version = t.version ∧
        (RowLayout.fixedCount row.values).isSome
      then ((t.fieldsAt row.version).bind layout).filter fun l => l.len == row.values.length
      else none
    match fixed with
    | some l => testsFixed l row.values tests
    | none => .ok true

def decodeRowIf (t : SqlTable) (data : List UInt8) (wanted : Option (List Bool))
    (tests : List ColumnTest) : Except TableError (Option IndexKey) := do
  let row ← StoredRow.fromBytes data
  if ← t.rowPasses row tests then (t.decodeStoredRow row wanted).map some else return none

/-- `decode_row_into`: whether the row passes, and what the buffer holds. -/
def decodeRowInto (t : SqlTable) (data : List UInt8) (wanted : Option (List Bool))
    (tests : List ColumnTest) (out : List ValueItem) :
    Except TableError (Bool × List ValueItem) := do
  let row ← StoredRow.fromBytes data
  let parsed := if row.version = t.version then Packed.parse row.values t.fields.length else none
  match parsed with
  | some p =>
    if ← testsParsed p tests then
      let values ← packedValues p (unwanted wanted) 0 none t.fields
      return (true, storeAll (resize out t.fields.length) values)
    else return (false, out)
  | none =>
    match ← t.decodeRowIf data wanted tests with
    | none => return (false, out)
    | some decoded => return (true, storeAll (resize out decoded.length) decoded)

end SqlTable

/-! ## A row that is read whole -/

variable {vs row : List ValueItem} {p : Packed} {pos : Nat} {l : RowLayout} {t : SqlTable}
  {sr : StoredRow} {tests : List ColumnTest} {data : List UInt8}

/-- A row that passes its check is the values it was made of. -/
theorem newRow_inv (h : newRow vs = .ok row) :
    row = vs ∧ ∀ v ∈ vs, v.validate = .ok () := by
  rw [newRow] at h
  cases hnew : IndexKey.newFromOwned vs with
  | error e => simp [hnew, Except.mapError] at h
  | ok k =>
    have hk : k = vs := by
      rw [IndexKey.newFromOwned] at hnew
      cases hall : vs.forM ValueItem.validate with
      | error e => simp [hall, bind, Except.bind] at hnew
      | ok u =>
        simp only [hall, bind, Except.bind, pure, Except.pure] at hnew
        exact (Except.ok.inj hnew).symm
    rw [hnew] at h
    have hrow : k = row := Except.ok.inj h
    rw [hk] at hnew
    exact ⟨hrow.symm.trans hk, IndexKey.newFromOwned_iff.mp hnew⟩

/-- Each column of a packed row that is read whole reads as its value. -/
theorem packedValues_inv {lastEnd : Option Nat} {fields : List Field}
    (hend : EndKept p pos lastEnd)
    (h : packedValues p (fun _ => false) pos lastEnd fields = .ok vs) :
    fields.length = vs.length ∧ ∀ i f v, fields[i]? = some f → vs[i]? = some v →
      p.value (pos + i) (p.startOf (pos + i)) (p.endOf (pos + i)) f.datatype = some v := by
  induction fields generalizing pos lastEnd vs with
  | nil =>
    obtain rfl : [] = vs := Except.ok.inj h
    exact ⟨rfl, fun i f v hf => nomatch hf⟩
  | cons f fields ih =>
    rw [packedValues, if_neg Bool.false_ne_true, startAt_kept hend] at h
    dsimp only at h
    cases hvalue : p.value pos (p.startOf pos) (p.endOf pos) f.datatype with
    | none => simp [hvalue] at h
    | some v =>
      rw [hvalue] at h
      dsimp only at h
      cases hrest : packedValues p (fun _ => false) (pos + 1) (some (p.endOf pos)) fields with
      | error e => simp [hrest, Except.map] at h
      | ok rest =>
        rw [hrest] at h
        obtain rfl : v :: rest = vs := Except.ok.inj h
        obtain ⟨hlen, hvalues⟩ :=
          ih (fun stop hstop => ⟨pos, rfl, (Option.some.inj hstop).symm⟩) hrest
        refine ⟨by rw [List.length_cons, List.length_cons, hlen], ?_⟩
        intro i g w hg hw
        cases i with
        | zero =>
          obtain rfl := Option.some.inj hg
          obtain rfl := Option.some.inj hw
          exact hvalue
        | succ i =>
          have hnext := hvalues i g w hg hw
          rwa [show pos + 1 + i = pos + (i + 1) by omega] at hnext

/-- Each column of a fixed-width row that is read whole decodes to its value. -/
theorem fixedValues_inv {row : List UInt8} {n : Nat}
    (h : fixedValues l row (fun _ => false) pos n = .ok vs) :
    vs.length = n ∧ ∀ i v, vs[i]? = some v →
      ∃ m, ValueItem.decode (l.column row (pos + i)) = .ok (v, m) := by
  induction n generalizing pos vs with
  | zero =>
    obtain rfl : [] = vs := Except.ok.inj h
    exact ⟨rfl, fun i v hv => nomatch hv⟩
  | succ n ih =>
    rw [fixedValues, if_neg Bool.false_ne_true] at h
    cases hvalue : ValueItem.decode (l.column row pos) with
    | error e => simp [hvalue] at h
    | ok read =>
      obtain ⟨v, m⟩ := read
      rw [hvalue] at h
      dsimp only at h
      cases hrest : fixedValues l row (fun _ => false) (pos + 1) n with
      | error e => simp [hrest, Except.map] at h
      | ok rest =>
        rw [hrest] at h
        obtain rfl : v :: rest = vs := Except.ok.inj h
        obtain ⟨hlen, hvalues⟩ := ih hrest
        refine ⟨by rw [List.length_cons, hlen], ?_⟩
        intro i w hw
        cases i with
        | zero =>
          obtain rfl := Option.some.inj hw
          exact ⟨m, hvalue⟩
        | succ i =>
          have hnext := hvalues i w hw
          rwa [show pos + 1 + i = pos + (i + 1) by omega] at hnext

/-- A tagged row that is read whole is read as well with columns stepped over. -/
theorem taggedValues_inv {n : Nat} {refs : ValueRefs} (skip : Nat → Bool) (hleft : refs.left = n)
    (h : taggedValues (fun _ => false) pos n refs = .ok vs) :
    taggedValues skip pos n refs = .ok (masked skip pos vs) := by
  induction n generalizing pos refs vs with
  | zero =>
    obtain rfl : [] = vs := Except.ok.inj h
    rfl
  | succ n ih =>
    rw [taggedValues] at h
    simp only [Bool.false_eq_true, if_false] at h
    cases hread : (if refs.index ≤ refs.bytes.length then
        ValueItem.decode (refs.bytes.drop refs.index) else
        .error (.truncatedValueItem ("offset " ++ toString refs.index ++
          " past end of buffer (" ++ toString refs.bytes.length ++ " byte(s))"))) with
    | error e =>
      have hnext : refs.next.1 = some (.error e) := by
        simp only [ValueRefs.next, ValueRefs.step, hleft, hread]
      rw [hnext] at h
      cases h
    | ok read =>
      obtain ⟨v, used⟩ := read
      have hnext : refs.next =
          (some (.ok v), { refs with index := refs.index + used, left := n }) := by
        simp only [ValueRefs.next, ValueRefs.step, hleft, hread]
      rw [hnext] at h
      dsimp only at h
      cases hrest : taggedValues (fun _ => false) (pos + 1) n
          { refs with index := refs.index + used, left := n } with
      | error e => simp [hrest, Except.map] at h
      | ok rest =>
        rw [hrest] at h
        obtain rfl : v :: rest = vs := Except.ok.inj h
        have htail : taggedValues skip (pos + 1) n
            { refs with index := refs.index + used, left := n } = .ok _ := ih rfl hrest
        rw [taggedValues, masked]
        by_cases hskip : skip pos = true
        · split at hread
          · next hin =>
              have hwidth := ValueItem.width_of_decode hread
              have hstep : refs.skipValue =
                  (some (.ok ()), { refs with index := refs.index + used, left := n }) := by
                simp only [ValueRefs.skipValue, ValueRefs.step, hleft, if_pos hin, hwidth]
                rfl
              simp only [if_pos hskip, hstep, Option.map_some, Except.map, htail]
          · cases hread
        · simp only [if_neg hskip, hnext, htail]
          rfl

/-- The row the values of version `version` are under the current one. -/
def Becomes (t : SqlTable) (version : UInt32) (vs row : List ValueItem) : Prop :=
  if version = t.version then row = vs else t.reproject version vs = .ok row

/-- How `decode_row` read a row whole. -/
inductive ReadWhole (t : SqlTable) (sr : StoredRow) (row : List ValueItem) : Prop
  | packed (fields : SchemaVersion) (p : Packed) (vs : List ValueItem)
      (fields_eq : t.fieldsAt sr.version = some fields)
      (parse_eq : Packed.parse sr.values fields.length = some p)
      (values_eq : packedValues p (fun _ => false) 0 none fields = .ok vs)
      (valid : ∀ v ∈ vs, v.validate = .ok ()) (row_eq : Becomes t sr.version vs row)
  | fixed (count : UInt64) (l : RowLayout) (vs : List ValueItem)
      (parse_eq : (t.fieldsAt sr.version).bind
        (fun fields => Packed.parse sr.values fields.length) = none)
      (count_eq : RowLayout.fixedCount sr.values = some count)
      (layout_eq : ((t.fieldsAt sr.version).bind SqlTable.layout).filter
        (fun l => l.columns == count.toNat && l.len == sr.values.length) = some l)
      (values_eq : fixedValues l sr.values (fun _ => false) 0 l.columns = .ok vs)
      (valid : ∀ v ∈ vs, v.validate = .ok ()) (row_eq : Becomes t sr.version vs row)
  | older (vs : List ValueItem)
      (parse_eq : (t.fieldsAt sr.version).bind
        (fun fields => Packed.parse sr.values fields.length) = none)
      (count_eq : RowLayout.fixedCount sr.values = none) (version_ne : sr.version ≠ t.version)
      (values_eq : IndexKey.fromBytes sr.values = .ok vs)
      (row_eq : t.reproject sr.version vs = .ok row)
  | current (refs : ValueRefs)
      (parse_eq : (t.fieldsAt sr.version).bind
        (fun fields => Packed.parse sr.values fields.length) = none)
      (count_eq : RowLayout.fixedCount sr.values = none) (version_eq : sr.version = t.version)
      (refs_eq : IndexKey.refs sr.values = .ok refs) (left_eq : refs.left = t.fields.length)
      (values_eq : taggedValues (fun _ => false) 0 t.fields.length refs = .ok row)
      (valid : ∀ v ∈ row, v.validate = .ok ())

theorem unwanted_none : unwanted none = fun _ => false := rfl

/-- A row that goes through its check and on to the current version. -/
theorem becomes_of_ok {version : UInt32} (h : (do
      let values ← newRow vs
      if version == t.version then return values else t.reproject version values :
        Except TableError IndexKey) = .ok row) :
    (∀ v ∈ vs, v.validate = .ok ()) ∧ Becomes t version vs row := by
  cases hnew : newRow vs with
  | error e => simp [hnew, bind, Except.bind] at h
  | ok values =>
    obtain ⟨rfl, hvalid⟩ := newRow_inv hnew
    refine ⟨hvalid, ?_⟩
    simp only [hnew, bind, Except.bind, pure, Except.pure] at h
    rw [Becomes]
    by_cases hver : version = t.version
    · rw [if_pos hver]
      rw [if_pos (beq_iff_eq.mpr hver)] at h
      exact (Except.ok.inj h).symm
    · rw [if_neg hver]
      rwa [if_neg (by simpa using hver)] at h

theorem readWhole (h : t.decodeStoredRow sr none = .ok row) : ReadWhole t sr row := by
  rw [SqlTable.decodeStoredRow] at h
  cases hparse : (t.fieldsAt sr.version).bind
      (fun fields => Packed.parse sr.values fields.length) with
  | some p =>
    obtain ⟨fields, hfields, hp⟩ := Option.bind_eq_some_iff.mp hparse
    rw [hparse] at h
    simp only [SqlTable.decodePackedRow, hfields, unwanted_none, Bool.and_false] at h
    cases hvalues : packedValues p (fun _ => false) 0 none fields with
    | error e => simp [hvalues, bind, Except.bind] at h
    | ok vs =>
      have hrest := h
      simp only [hvalues, bind, Except.bind] at hrest
      obtain ⟨hvalid, hrow⟩ := becomes_of_ok hrest
      exact .packed fields p vs hfields hp hvalues hvalid hrow
  | none =>
    rw [hparse] at h
    dsimp only at h
    cases hcount : RowLayout.fixedCount sr.values with
    | some count =>
      rw [hcount] at h
      simp only [SqlTable.decodeFixedRow, unwanted_none, Bool.and_false] at h
      cases hlayout : ((t.fieldsAt sr.version).bind SqlTable.layout).filter
          (fun l => l.columns == count.toNat && l.len == sr.values.length) with
      | none => simp [hlayout, bind, Except.bind] at h
      | some l =>
        cases hvalues : fixedValues l sr.values (fun _ => false) 0 l.columns with
        | error e => simp [hlayout, hvalues, bind, Except.bind] at h
        | ok vs =>
          have hrest := h
          simp only [hlayout, hvalues, bind, Except.bind] at hrest
          obtain ⟨hvalid, hrow⟩ := becomes_of_ok hrest
          exact .fixed count l vs hparse hcount hlayout hvalues hvalid hrow
    | none =>
      rw [hcount] at h
      simp only [SqlTable.decodeTaggedRow] at h
      by_cases hver : sr.version = t.version
      · rw [if_neg (not_not.mpr hver)] at h
        cases hrefs : IndexKey.refs sr.values with
        | error e => simp [hrefs, Except.mapError, bind, Except.bind] at h
        | ok refs =>
          by_cases hleft : refs.left = t.fields.length
          · cases hvalues : taggedValues (fun _ => false) 0 t.fields.length refs with
            | error e =>
              simp [hrefs, hleft, hvalues, unwanted_none, Except.mapError, bind,
                Except.bind] at h
            | ok vs =>
              simp only [hrefs, hleft, hvalues, unwanted_none, Except.mapError, bind,
                Except.bind, ne_eq, not_true_eq_false, if_false] at h
              obtain ⟨rfl, hvalid⟩ := newRow_inv h
              exact .current refs hparse hcount hver hrefs hleft hvalues hvalid
          · simp [hrefs, hleft, Except.mapError, bind, Except.bind, throw, throwThe,
              MonadExceptOf.throw] at h
      · rw [if_pos hver] at h
        cases hvalues : IndexKey.fromBytes sr.values with
        | error e => simp [hvalues, Except.mapError, bind, Except.bind] at h
        | ok vs =>
          simp only [hvalues, Except.mapError, bind, Except.bind] at h
          exact .older vs hparse hcount hver hvalues h

/-- The row with the columns that are not wanted left `NULL`, where `decode_row` leaves them:
in a row of the current version. -/
def wantedOf (t : SqlTable) (sr : StoredRow) (wanted : Option (List Bool)) (row : List ValueItem) :
    List ValueItem :=
  if sr.version = t.version then masked (unwanted wanted) 0 row else row

/-- A row's values go through its check and on to the current version, masked or not. -/
theorem check_masked (wanted : Option (List Bool)) (hvalid : ∀ v ∈ vs, v.validate = .ok ())
    (hrow : Becomes t sr.version vs row) :
    (do
      let values ← newRow
        (masked (fun pos => (sr.version == t.version) && unwanted wanted pos) 0 vs)
      if sr.version == t.version then return values else t.reproject sr.version values :
        Except TableError IndexKey) = .ok (wantedOf t sr wanted row) := by
  rw [newRow_masked _ 0 hvalid]
  by_cases hver : sr.version = t.version
  · rw [Becomes, if_pos hver] at hrow
    have hbeq : (sr.version == t.version) = true := beq_iff_eq.mpr hver
    simp only [hbeq, Bool.true_and, wantedOf, if_pos hver, hrow, bind, Except.bind, if_true]
    rfl
  · rw [Becomes, if_neg hver] at hrow
    have hbeq : (sr.version == t.version) = false := by simpa using hver
    simp only [hbeq, Bool.false_and, masked_false, wantedOf, if_neg hver, bind, Except.bind,
      Bool.false_eq_true, if_false]
    exact hrow

/-- With columns left out, `decode_row` gives the same row but for them. -/
theorem decodeStoredRow_wanted (h : ReadWhole t sr row) (wanted : Option (List Bool)) :
    t.decodeStoredRow sr wanted = .ok (wantedOf t sr wanted row) := by
  cases h with
  | packed fields p vs fields_eq parse_eq values_eq valid row_eq =>
    obtain ⟨hlen, hvalues⟩ := packedValues_inv (fun _ hstop => absurd hstop (by simp)) values_eq
    simp only [Nat.zero_add] at hvalues
    have hmasked := packedValues_all
      (fun pos => (sr.version == t.version) && unwanted wanted pos) hlen hvalues
    rw [SqlTable.decodeStoredRow, fields_eq, Option.bind_some, parse_eq]
    simp only [SqlTable.decodePackedRow, fields_eq]
    show (packedValues p (fun pos => (sr.version == t.version) && unwanted wanted pos) 0 none
      fields >>= _) = _
    rw [hmasked]
    exact check_masked wanted valid row_eq
  | fixed count l vs parse_eq count_eq layout_eq values_eq valid row_eq =>
    obtain ⟨hlen, hvalues⟩ := fixedValues_inv values_eq
    have hmasked := fixedValues_eq
      (fun pos => (sr.version == t.version) && unwanted wanted pos) hvalues
    rw [hlen] at hmasked
    rw [SqlTable.decodeStoredRow, parse_eq]
    simp only [count_eq, SqlTable.decodeFixedRow, layout_eq]
    show (fixedValues l sr.values (fun pos => (sr.version == t.version) && unwanted wanted pos) 0
      l.columns >>= _) = _
    rw [hmasked]
    exact check_masked wanted valid row_eq
  | older vs parse_eq count_eq version_ne values_eq row_eq =>
    rw [SqlTable.decodeStoredRow, parse_eq]
    simp only [count_eq, SqlTable.decodeTaggedRow]
    rw [if_pos version_ne, values_eq, wantedOf, if_neg version_ne]
    exact row_eq
  | current refs parse_eq count_eq version_eq refs_eq left_eq values_eq valid =>
    rw [SqlTable.decodeStoredRow, parse_eq]
    simp only [count_eq, SqlTable.decodeTaggedRow]
    rw [if_neg (not_not.mpr version_eq), refs_eq, wantedOf, if_pos version_eq]
    show (if refs.left ≠ t.fields.length then _ else _) = _
    rw [if_neg (not_not.mpr left_eq)]
    show (taggedValues (unwanted wanted) 0 t.fields.length refs >>= _) = _
    rw [taggedValues_inv (unwanted wanted) left_eq values_eq]
    exact newRow_masked _ 0 valid

theorem getElem?_wantedOf {wanted : Option (List Bool)} (h : unwanted wanted pos = false) :
    (wantedOf t sr wanted row)[pos]? = row[pos]? := by
  rw [wantedOf]
  split
  · rw [getElem?_masked, Nat.zero_add, h]
    simp
  · rfl

@[simp] theorem length_wantedOf {wanted : Option (List Bool)} :
    (wantedOf t sr wanted row).length = row.length := by
  rw [wantedOf]
  split
  · exact length_masked _ _ _
  · rfl

/-! ## Tests of a row that is read whole -/

/-- The tests of a table's columns. -/
def TestsOf (t : SqlTable) (tests : List ColumnTest) : Prop :=
  ∀ test ∈ tests, ∃ filter, ColumnTest.of t.fields filter = some test

/-- Some test fails on the row's value. -/
def Fails (tests : List ColumnTest) (row : List ValueItem) : Prop :=
  ∃ test ∈ tests, ∃ v, row[test.pos]? = some v ∧ test.passes v = false

theorem readOne_of_parse {row : List UInt8} {columns : Nat} {datatype : DataType}
    (h : Packed.parse row columns = some p) :
    Packed.readOne row columns pos datatype =
      some (p.value pos (p.startOf pos) (p.endOf pos) datatype) := by
  unfold Packed.parse at h
  split at h
  · exact nomatch h
  · split at h
    · next marker header rest =>
        split at h
        · exact nomatch h
        · next hmarker =>
            unfold Packed.readOne
            dsimp only
            rw [if_pos (not_not.mp hmarker), h]
            rfl
    · exact nomatch h

/-- Both ways through a packed row's tests say the same. -/
theorem testsPacked_of_parse {row : List UInt8} {columns : Nat}
    (h : Packed.parse row columns = some p) (tests : List ColumnTest) :
    testsPacked row columns tests = some (testsParsed p tests) := by
  induction tests with
  | nil => rfl
  | cons test tests ih =>
    rw [testsPacked, testsParsed, readOne_of_parse h]
    cases hvalue : p.value test.pos (p.startOf test.pos) (p.endOf test.pos) test.datatype with
    | none => rfl
    | some v =>
      dsimp only
      split
      · exact ih
      · rfl

/-- The tests of a packed row that is read whole answer, and a row is dropped only for one that
fails. -/
theorem testsParsed_ok (hlen : t.fields.length = row.length)
    (hvalues : ∀ i f v, t.fields[i]? = some f → row[i]? = some v →
      p.value i (p.startOf i) (p.endOf i) f.datatype = some v) (htests : TestsOf t tests) :
    ∃ accepted, testsParsed p tests = .ok accepted ∧ (accepted = false → Fails tests row) := by
  induction tests with
  | nil => exact ⟨true, rfl, fun h => Bool.noConfusion h⟩
  | cons test tests ih =>
    obtain ⟨filter, hfilter⟩ := htests test List.mem_cons_self
    obtain ⟨f, hf, htype⟩ := ColumnTest.of_field hfilter
    have hlt : test.pos < row.length := by
      rw [← hlen]
      exact (List.getElem?_eq_some_iff.mp hf).1
    have hv := List.getElem?_eq_getElem hlt
    have hvalue := hvalues test.pos f _ hf hv
    rw [htype] at hvalue
    rw [testsParsed, hvalue]
    dsimp only
    by_cases hpass : test.passes row[test.pos] = true
    · rw [if_pos hpass]
      obtain ⟨accepted, hrest, hfails⟩ := ih fun test' h' =>
        htests test' (List.mem_cons_of_mem _ h')
      refine ⟨accepted, hrest, fun hfalse => ?_⟩
      obtain ⟨test', hmem, hfail⟩ := hfails hfalse
      exact ⟨test', List.mem_cons_of_mem _ hmem, hfail⟩
    · rw [if_neg hpass]
      exact ⟨false, rfl, fun _ => ⟨test, List.mem_cons_self, _, hv, by simpa using hpass⟩⟩

theorem testsFixed_ok {bytes : List UInt8} (hlen : t.fields.length = row.length)
    (hvalues : ∀ i v, row[i]? = some v → ∃ n, ValueItem.decode (l.column bytes i) = .ok (v, n))
    (htests : TestsOf t tests) :
    ∃ accepted, testsFixed l bytes tests = .ok accepted ∧ (accepted = false → Fails tests row) := by
  induction tests with
  | nil => exact ⟨true, rfl, fun h => Bool.noConfusion h⟩
  | cons test tests ih =>
    obtain ⟨filter, hfilter⟩ := htests test List.mem_cons_self
    obtain ⟨f, hf, -⟩ := ColumnTest.of_field hfilter
    have hlt : test.pos < row.length := by
      rw [← hlen]
      exact (List.getElem?_eq_some_iff.mp hf).1
    have hv := List.getElem?_eq_getElem hlt
    obtain ⟨n, hvalue⟩ := hvalues test.pos _ hv
    rw [testsFixed, hvalue]
    dsimp only
    by_cases hpass : test.passes row[test.pos] = true
    · rw [if_pos hpass]
      obtain ⟨accepted, hrest, hfails⟩ := ih fun test' h' =>
        htests test' (List.mem_cons_of_mem _ h')
      refine ⟨accepted, hrest, fun hfalse => ?_⟩
      obtain ⟨test', hmem, hfail⟩ := hfails hfalse
      exact ⟨test', List.mem_cons_of_mem _ hmem, hfail⟩
    · rw [if_neg hpass]
      exact ⟨false, rfl, fun _ => ⟨test, List.mem_cons_self, _, hv, by simpa using hpass⟩⟩

/-! ## What every reader makes of a row -/

theorem word_head {row : List UInt8} {n : Nat} (h : word 8 row 0 = some n) :
    ∃ b rest, row = b :: rest ∧ b.toNat = n % 256 := by
  obtain ⟨bytes, hbytes, rfl⟩ := Option.map_eq_some_iff.mp h
  rw [getRange] at hbytes
  split at hbytes
  · next hin =>
      cases row with
      | nil => simp at hin
      | cons b rest =>
        refine ⟨b, rest, rfl, ?_⟩
        rw [← Option.some.inj hbytes, List.drop_zero]
        show b.toNat = (b.toNat + 256 * ofLe (rest.take 7)) % 256
        have hb := b.toNat_lt
        omega
  · cases hbytes

/-- A row that starts with its column count is not taken for a packed one. -/
theorem readOne_counted {row : List UInt8} {n columns : Nat} (h : word 8 row 0 = some n)
    (hcount : n % 256 = columns % 256) (pos : Nat) (datatype : DataType) :
    Packed.readOne row columns pos datatype = none := by
  obtain ⟨b, rest, rfl, hb⟩ := word_head h
  have hbyte : b = UInt8.ofNat columns := by
    apply UInt8.toNat_inj.mp
    rw [hb, hcount, UInt8.toNat_ofNat']
  have hmarker : b ≠ packedMarker columns := by
    rw [hbyte, packedMarker]
    exact ne_complement _
  cases rest with
  | nil => rfl
  | cons header rest => exact if_neg hmarker

theorem fixedCount_word {row : List UInt8} {count : UInt64}
    (h : RowLayout.fixedCount row = some count) :
    ∃ n, word 8 row 0 = some n ∧ n % 256 = count.toNat % 256 := by
  rw [RowLayout.fixedCount] at h
  cases hword : word 8 row 0 with
  | none => simp [hword] at h
  | some n =>
    simp only [hword, Option.bind_eq_bind, Option.bind_some] at h
    split at h
    · refine ⟨n, rfl, ?_⟩
      have hmask : (~~~fixedRow).toNat = 2 ^ 63 - 1 := by decide
      rw [← Option.some.inj h, UInt64.toNat_and, hmask, Nat.and_two_pow_sub_one_eq_mod,
        UInt64.toNat_ofNat']
      omega
    · cases h

theorem columns_of_layout {fields : SchemaVersion} (h : SqlTable.layout fields = some l) :
    l.columns = fields.length := by
  obtain ⟨offsets, hoffsets, rfl⟩ := Option.map_eq_some_iff.mp h
  have hlen := (RowLayout.offsetsFrom_eq hoffsets).1
  rw [SqlTable.types, List.length_map] at hlen
  show offsets.length - 1 = fields.length
  omega

theorem testsPacked_none {row : List UInt8} {columns : Nat}
    (h : ∀ pos datatype, Packed.readOne row columns pos datatype = none) (hne : tests ≠ []) :
    testsPacked row columns tests = none := by
  cases tests with
  | nil => exact absurd rfl hne
  | cons test tests => rw [testsPacked, h]

theorem SqlTable.rowPasses_unpacked (hversion : sr.version = t.version) (hne : tests ≠ [])
    (h : ∀ pos datatype, Packed.readOne sr.values t.fields.length pos datatype = none) :
    t.rowPasses sr tests =
      match (if (RowLayout.fixedCount sr.values).isSome
        then ((t.fieldsAt sr.version).bind layout).filter fun l => l.len == sr.values.length
        else none) with
      | some l => testsFixed l sr.values tests
      | none => .ok true := by
  have hempty : tests.isEmpty = false := by simpa using hne
  simp only [rowPasses, hempty, hversion, testsPacked_none h hne, ite_self, Bool.false_eq_true,
    not_false_eq_true, true_and]

/-- A packed row of the current version that is read whole reads as its values. -/
theorem ReadWhole.packed_inv (h : ReadWhole t sr row) (hversions : t.versions.length ≤ 2 ^ 32)
    (hver : sr.version = t.version) (hp : Packed.parse sr.values t.fields.length = some p) :
    t.fields.length = row.length ∧ ∀ i f v, t.fields[i]? = some f → row[i]? = some v →
      p.value i (p.startOf i) (p.endOf i) f.datatype = some v := by
  have hfields : t.fieldsAt sr.version = some t.fields := by
    rw [hver]
    exact SqlTable.fieldsAt_version hversions
  have hparse : (t.fieldsAt sr.version).bind
      (fun fields => Packed.parse sr.values fields.length) = some p := by
    rw [hfields]
    exact hp
  cases h with
  | packed fields q vs fields_eq parse_eq values_eq valid row_eq =>
    obtain rfl := Option.some.inj (fields_eq.symm.trans hfields)
    obtain rfl := Option.some.inj (parse_eq.symm.trans hp)
    rw [Becomes, if_pos hver] at row_eq
    subst row_eq
    obtain ⟨hlen, hvalues⟩ := packedValues_inv (fun _ hs => absurd hs (by simp)) values_eq
    simp only [Nat.zero_add] at hvalues
    exact ⟨hlen, hvalues⟩
  | fixed count l vs parse_eq count_eq layout_eq values_eq valid row_eq =>
    rw [hparse] at parse_eq
    exact nomatch parse_eq
  | older vs parse_eq count_eq version_ne values_eq row_eq => exact absurd hver version_ne
  | current refs parse_eq count_eq version_eq refs_eq left_eq values_eq valid =>
    rw [hparse] at parse_eq
    exact nomatch parse_eq

theorem readWhole_of_decodeRow (h : t.decodeRow data none = .ok row) :
    ∃ sr, StoredRow.fromBytes data = .ok sr ∧ ReadWhole t sr row := by
  rw [SqlTable.decodeRow] at h
  cases hsr : StoredRow.fromBytes data with
  | error e => simp [hsr, bind, Except.bind] at h
  | ok sr =>
    rw [hsr] at h
    exact ⟨sr, rfl, readWhole h⟩

/-- What the tests make of a row that is read whole. -/
theorem rowPasses_ok (hversions : t.versions.length ≤ 2 ^ 32) (h : ReadWhole t sr row)
    (htests : TestsOf t tests) :
    ∃ accepted, t.rowPasses sr tests = .ok accepted ∧ (accepted = false → Fails tests row) ∧
      ∀ p, sr.version = t.version → Packed.parse sr.values t.fields.length = some p →
        testsParsed p tests = .ok accepted := by
  by_cases hne : tests = []
  · subst hne
    exact ⟨true, by simp [SqlTable.rowPasses], fun hfalse => Bool.noConfusion hfalse,
      fun p _ _ => rfl⟩
  have hempty : tests.isEmpty = false := by simpa using hne
  by_cases hver : sr.version = t.version
  · have hfields : t.fieldsAt sr.version = some t.fields := by
      rw [hver]
      exact SqlTable.fieldsAt_version hversions
    have hread := h
    cases h with
    | packed fields p vs fields_eq parse_eq values_eq valid row_eq =>
      obtain rfl := Option.some.inj (fields_eq.symm.trans hfields)
      obtain ⟨hlen, hvalues⟩ := hread.packed_inv hversions hver parse_eq
      obtain ⟨accepted, hok, hfails⟩ := testsParsed_ok hlen hvalues htests
      have hpos : 0 < t.fields.length := by
        rw [Nat.pos_iff_ne_zero]
        intro hzero
        unfold Packed.parse at parse_eq
        rw [if_pos hzero] at parse_eq
        cases parse_eq
      refine ⟨accepted, ?_, hfails, ?_⟩
      · simp only [SqlTable.rowPasses, hempty, hver, hpos, Bool.false_eq_true, not_false_eq_true,
          and_self, if_true, testsPacked_of_parse parse_eq, hok]
      · intro q _ hq
        rw [← Option.some.inj (parse_eq.symm.trans hq)]
        exact hok
    | fixed count l vs parse_eq count_eq layout_eq values_eq valid row_eq =>
      rw [Becomes, if_pos hver] at row_eq
      subst row_eq
      rw [hfields, Option.bind_some] at parse_eq layout_eq
      obtain ⟨hlayout, hfits⟩ := Option.filter_eq_some_iff.mp layout_eq
      rw [Bool.and_eq_true, beq_iff_eq, beq_iff_eq] at hfits
      obtain ⟨hlen, hvalues⟩ := fixedValues_inv values_eq
      simp only [Nat.zero_add] at hvalues
      have hcolumns := columns_of_layout hlayout
      obtain ⟨n, hword, hn⟩ := fixedCount_word count_eq
      have hcount : n % 256 = t.fields.length % 256 := by rw [hn, ← hfits.1, hcolumns]
      have hone := readOne_counted hword hcount
      obtain ⟨accepted, hok, hfails⟩ := testsFixed_ok (by omega) hvalues htests
      refine ⟨accepted, ?_, hfails, fun p _ hp => by rw [parse_eq] at hp; cases hp⟩
      rw [SqlTable.rowPasses_unpacked hver hne hone, count_eq, hfields, Option.bind_some, hlayout,
        Option.isSome_some, if_pos rfl, Option.filter_some, if_pos (by simpa using hfits.2)]
      exact hok
    | older vs parse_eq count_eq version_ne values_eq row_eq => exact absurd hver version_ne
    | current refs parse_eq count_eq version_eq refs_eq left_eq values_eq valid =>
      rw [hfields, Option.bind_some] at parse_eq
      have hword : word 8 sr.values 0 = some refs.left := by
        rw [IndexKey.refs] at refs_eq
        split at refs_eq
        · next left hword => rw [hword, ← Except.ok.inj refs_eq]
        · cases refs_eq
      have hone := readOne_counted hword (congrArg (· % 256) left_eq)
      refine ⟨true, ?_, fun hfalse => Bool.noConfusion hfalse,
        fun p _ hp => by rw [parse_eq] at hp; cases hp⟩
      rw [SqlTable.rowPasses_unpacked hver hne hone, count_eq]
      rfl
  · refine ⟨true, ?_, fun hfalse => Bool.noConfusion hfalse, fun p heq => absurd heq hver⟩
    simp [SqlTable.rowPasses, hver]

theorem decodeRow_wanted (hsr : StoredRow.fromBytes data = .ok sr) (h : ReadWhole t sr row)
    (wanted : Option (List Bool)) : t.decodeRow data wanted = .ok (wantedOf t sr wanted row) := by
  rw [SqlTable.decodeRow, hsr]
  exact decodeStoredRow_wanted h wanted

theorem decodeRowIf_eq (hsr : StoredRow.fromBytes data = .ok sr) (h : ReadWhole t sr row)
    {accepted : Bool} (hpasses : t.rowPasses sr tests = .ok accepted)
    (wanted : Option (List Bool)) :
    t.decodeRowIf data wanted tests =
      .ok (if accepted then some (wantedOf t sr wanted row) else none) := by
  rw [SqlTable.decodeRowIf, hsr]
  show (t.rowPasses sr tests >>= _) = _
  rw [hpasses]
  cases accepted with
  | false => rfl
  | true =>
    show (t.decodeStoredRow sr wanted).map some = _
    rw [decodeStoredRow_wanted h wanted]
    rfl

theorem length_resize (out : List ValueItem) (n : Nat) : (resize out n).length = n := by
  rw [resize, List.length_append, List.length_take, List.length_replicate]
  omega

/-- Slots that are filled hold nothing of what was there. -/
theorem storeAll_eq {slots : List ValueItem} (h : slots.length = vs.length) :
    storeAll slots vs = vs := by
  induction vs generalizing slots with
  | nil =>
    rw [List.eq_nil_of_length_eq_zero h]
    rfl
  | cons v vs ih =>
    cases slots with
    | nil => exact nomatch h
    | cons slot slots => rw [storeAll, storeIn_eq, ih (Nat.succ.inj h)]

theorem decodeRowInto_eq (hversions : t.versions.length ≤ 2 ^ 32)
    (hsr : StoredRow.fromBytes data = .ok sr) (h : ReadWhole t sr row) {accepted : Bool}
    (hpasses : t.rowPasses sr tests = .ok accepted)
    (hparsed : ∀ p, sr.version = t.version → Packed.parse sr.values t.fields.length = some p →
      testsParsed p tests = .ok accepted) (wanted : Option (List Bool)) (out : List ValueItem) :
    t.decodeRowInto data wanted tests out =
      .ok (accepted, if accepted then wantedOf t sr wanted row else out) := by
  rw [SqlTable.decodeRowInto, hsr]
  cases hp : (if sr.version = t.version then Packed.parse sr.values t.fields.length else none) with
  | none =>
    show (match (if sr.version = t.version then Packed.parse sr.values t.fields.length
      else none) with | some p => _ | none => _) = _
    rw [hp]
    show (t.decodeRowIf data wanted tests >>= _) = _
    rw [decodeRowIf_eq hsr h hpasses wanted]
    cases accepted with
    | false => rfl
    | true =>
      show Except.ok (true, storeAll (resize out _) (wantedOf t sr wanted row)) = _
      rw [storeAll_eq (length_resize out _)]
      rfl
  | some p =>
    have hver : sr.version = t.version := by
      by_contra hne
      rw [if_neg hne] at hp
      exact nomatch hp
    show (match (if sr.version = t.version then Packed.parse sr.values t.fields.length
      else none) with | some p => _ | none => _) = _
    rw [hp]
    rw [if_pos hver] at hp
    show (testsParsed p tests >>= _) = _
    rw [hparsed p hver hp]
    cases accepted with
    | false => rfl
    | true =>
      obtain ⟨hlen, hvalues⟩ := h.packed_inv hversions hver hp
      have hmasked := packedValues_all (unwanted wanted) hlen hvalues
      show (packedValues p (unwanted wanted) 0 none t.fields >>= _) = _
      rw [hmasked, wantedOf, if_pos hver]
      show Except.ok (true, storeAll (resize out t.fields.length) _) = _
      rw [storeAll_eq (by rw [length_resize, length_masked, hlen])]
      rfl

/-- `decode_row_if` and `decode_row_into` accept a row, or drop it for a test that fails, and
give the values that `decode_row` gives. -/
def ReadAlike (t : SqlTable) (data : List UInt8) (tests : List ColumnTest) (row : List ValueItem)
    (accepted : Bool) : Prop :=
  (accepted = false → Fails tests row) ∧ ∀ wanted, ∃ values,
    t.decodeRow data wanted = .ok values ∧ values.length = row.length ∧
    (∀ pos, unwanted wanted pos = false → values[pos]? = row[pos]?) ∧
    t.decodeRowIf data wanted tests = .ok (if accepted then some values else none) ∧
    ∀ out, t.decodeRowInto data wanted tests out =
      .ok (accepted, if accepted then values else out)

theorem readAlike (hversions : t.versions.length ≤ 2 ^ 32)
    (hsr : StoredRow.fromBytes data = .ok sr) (h : ReadWhole t sr row) {accepted : Bool}
    (hpasses : t.rowPasses sr tests = .ok accepted) (hfails : accepted = false → Fails tests row)
    (hparsed : ∀ p, sr.version = t.version → Packed.parse sr.values t.fields.length = some p →
      testsParsed p tests = .ok accepted) : ReadAlike t data tests row accepted := by
  refine ⟨hfails, fun wanted => ⟨wantedOf t sr wanted row, ?_⟩⟩
  exact ⟨decodeRow_wanted hsr h wanted, length_wantedOf, fun pos hpos => getElem?_wantedOf hpos,
    decodeRowIf_eq hsr h hpasses wanted,
    decodeRowInto_eq hversions hsr h hpasses hparsed wanted⟩

end SquealDb.Table
