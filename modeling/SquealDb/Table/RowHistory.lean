import Mathlib.Data.List.Nodup
import Mathlib.Data.List.Perm.Subperm
import SquealDb.Lib.Run
import SquealDb.Table.RowForms

/-!
# Rows across a table's versions

A table is created, altered any number of times, and written to under each of its versions.
A row that was stored stands for what the same alterations make of its values: an added
column appends its default, a dropped one takes its value away, a renamed one changes
nothing.  Nothing is said of ids there; that `decode_row` matches columns by them is what is
proved.

`reproject` checks the row it makes, so that a default longer than its column makes every
older row unreadable: nothing checks a default where it is declared.
-/

namespace SquealDb.Table

open Codec Codec.KeyCode Lib Sql

/-! ## Alterations and what they mean for a row -/

/-- `ALTER TABLE`: `ADD`, `DROP` and `RENAME COLUMN`. -/
inductive Alteration where
  | add (name : String) (datatype : DataType) (nullable : Bool) (default : Option ValueItem)
  | drop (name : String)
  | rename (oldName newName : String)
  deriving DecidableEq, Repr

namespace Alteration

/-- What the statement does to the table. -/
def apply (t : SqlTable) : Alteration → Except TableError SqlTable
  | add name datatype nullable default => do
    let field ← Field.new name datatype nullable default
    t.alterAddColumn field
  | drop name => t.alterDropColumn name
  | rename oldName newName => t.alterRenameColumn oldName newName

/-- What the statement means for a row of the table with those columns. -/
def onRow (fields : SchemaVersion) (row : List ValueItem) : Alteration → List ValueItem
  | add _ _ _ default => row ++ [default.getD .null]
  | drop name => ((fields.zip row).filter fun c => c.1.name ≠ name).map (·.2)
  | rename _ _ => row

/-- The columns the statement leaves the table with. -/
def columns (t : SqlTable) : Alteration → SchemaVersion
  | add name datatype nullable default =>
    t.fields ++ [⟨t.nextFieldId, name, datatype, nullable, default⟩]
  | drop name => t.fields.filter fun f => f.name ≠ name
  | rename oldName newName =>
    t.fields.map fun f => if f.name = oldName then { f with name := newName } else f

/-- The next id after the statement. -/
def nextId (t : SqlTable) : Alteration → UInt32
  | add _ _ _ _ => t.nextFieldId + 1
  | drop _ | rename _ _ => t.nextFieldId

/-- A statement that does not fail adds a version, and gives an added column an id. -/
theorem apply_eq {t t' : SqlTable} {a : Alteration} (h : a.apply t = .ok t') :
    t' = { t.pushVersion (a.columns t) with nextFieldId := a.nextId t } := by
  cases a with
  | add name datatype nullable default =>
    cases hnew : Field.new name datatype nullable default with
    | error e => simp [apply, hnew, bind, Except.bind] at h
    | ok field =>
      have hfield : field = ⟨0, name, datatype, nullable, default⟩ := by
        unfold Field.new at hnew
        split at hnew
        · exact nomatch hnew
        · split at hnew
          · exact nomatch hnew
          · exact (Except.ok.inj hnew).symm
      have hadd : t.alterAddColumn field = .ok t' := by
        rw [apply, hnew] at h
        exact h
      unfold SqlTable.alterAddColumn at hadd
      split at hadd
      · exact nomatch hadd
      · split at hadd
        · exact nomatch hadd
        · rw [← Except.ok.inj hadd, hfield]
          rfl
  | drop name =>
    rw [apply, SqlTable.alterDropColumn] at h
    split at h
    · exact nomatch h
    · split at h
      · exact nomatch h
      · cases hused : t.checkUnused name with
        | error e => simp [hused, bind, Except.bind] at h
        | ok u =>
          simp only [hused, bind, Except.bind] at h
          split at h
          · exact nomatch h
          · rw [← Except.ok.inj h]
            rfl
  | rename oldName newName =>
    rw [apply, SqlTable.alterRenameColumn] at h
    split at h
    · exact nomatch h
    · split at h
      · exact nomatch h
      · cases hused : t.checkUnused oldName with
        | error e => simp [hused, bind, Except.bind] at h
        | ok u =>
          simp only [hused, bind, Except.bind] at h
          rw [← Except.ok.inj h]
          rfl

end Alteration

/-- What is carried over, of a row `vs` with the columns `stored`, to the columns `fields`:
`reproject`. -/
def carried (stored : SchemaVersion) (vs : List ValueItem) (fields : SchemaVersion) :
    List ValueItem :=
  fields.map fun f =>
    match stored.findIdx? fun sf => sf.id = f.id with
    | some pos => vs.getD pos .null
    | none => f.backfill

@[simp] theorem length_carried (stored : SchemaVersion) (vs : List ValueItem)
    (fields : SchemaVersion) : (carried stored vs fields).length = fields.length :=
  List.length_map ..

/-- A column that is not among the stored ones is filled in with its default. -/
theorem findIdx?_none {stored : SchemaVersion} {id : UInt32} (h : ∀ g ∈ stored, g.id ≠ id) :
    stored.findIdx? (fun sf => sf.id = id) = none := by
  rw [List.findIdx?_eq_none_iff]
  intro g hg
  exact decide_eq_false (h g hg)

variable {fields : SchemaVersion} {vs : List ValueItem} {t : SqlTable} {a : Alteration}

/-- Carried over to the columns it has, a row is as it was. -/
theorem carried_self (hnodup : (fields.map (·.id)).Nodup) (hlen : vs.length = fields.length) :
    carried fields vs fields = vs := by
  apply List.ext_getElem (by rw [length_carried, hlen])
  intro i h₁ h₂
  have hi : i < fields.length := by rwa [length_carried] at h₁
  have hfind : fields.findIdx? (fun sf => sf.id = fields[i].id) = some i := by
    rw [List.findIdx?_eq_some_iff_getElem]
    refine ⟨hi, decide_eq_true rfl, ?_⟩
    intro j hj heq
    have hj' : j < (fields.map (·.id)).length := by rw [List.length_map]; omega
    have hi' : i < (fields.map (·.id)).length := by rw [List.length_map]; exact hi
    have hids : (fields.map (·.id))[j] = (fields.map (·.id))[i] := by
      rw [List.getElem_map, List.getElem_map]
      exact of_decide_eq_true heq
    have hji := (List.Nodup.getElem_inj_iff hnodup).mp hids
    omega
  simp only [carried, List.getElem_map, hfind]
  rw [List.getD_eq_getElem?_getD, List.getElem?_eq_getElem h₂, Option.getD_some]

/-- An alteration means for what was carried over what carrying over to its columns is. -/
theorem carried_columns {stored : SchemaVersion} (vs : List ValueItem) (a : Alteration)
    (hfresh : ∀ g ∈ stored, g.id ≠ t.nextFieldId) :
    carried stored vs (a.columns t) = a.onRow t.fields (carried stored vs t.fields) := by
  cases a with
  | add name datatype nullable default =>
    have hnone := findIdx?_none hfresh
    simp only [carried, Alteration.columns, Alteration.onRow, List.map_append, List.map_cons,
      List.map_nil, hnone]
    rfl
  | drop name =>
    simp only [carried, Alteration.columns, Alteration.onRow]
    induction t.fields with
    | nil => rfl
    | cons f fields ih =>
      rw [List.map_cons, List.zip_cons_cons, List.filter_cons, List.filter_cons]
      by_cases hname : f.name ≠ name
      · rw [if_pos (decide_eq_true hname), if_pos (decide_eq_true hname), List.map_cons,
          List.map_cons, ih]
      · rw [if_neg (by simpa using hname), if_neg (by simpa using hname), ih]
  | rename oldName newName =>
    simp only [carried, Alteration.columns, Alteration.onRow, List.map_map]
    apply List.map_congr_left
    intro f _
    simp only [Function.comp_apply]
    by_cases hname : f.name = oldName
    · rw [if_pos hname]
      rfl
    · rw [if_neg hname]

/-- Equal rows stay equal under an alteration. -/
theorem SameRow.onRow {ws : List ValueItem} (h : SameRow vs ws) (a : Alteration) :
    SameRow (a.onRow fields vs) (a.onRow fields ws) := by
  cases a with
  | add name datatype nullable default =>
    exact List.rel_append h (SameRow.refl _)
  | drop name =>
    simp only [Alteration.onRow]
    induction h generalizing fields with
    | nil => cases fields <;> exact .nil
    | cons hhead _ ih =>
      cases fields with
      | nil => exact .nil
      | cons f fields =>
        rw [List.zip_cons_cons, List.zip_cons_cons, List.filter_cons, List.filter_cons]
        by_cases hname : f.name ≠ name
        · rw [if_pos (decide_eq_true hname), if_pos (decide_eq_true hname)]
          exact .cons hhead ih
        · rw [if_neg (by simpa using hname), if_neg (by simpa using hname)]
          exact ih
  | rename oldName newName => exact h

/-! ## Runs -/

/-- A stored row's bytes, and the row they stand for now. -/
structure Stored where
  data : List UInt8
  row : List ValueItem
  deriving DecidableEq, Repr

/-- A table and the rows stored in it. -/
structure State where
  table : SqlTable
  stored : List Stored
  deriving DecidableEq, Repr

/-- What can happen to a table: a statement, a row written, and a row written by a build from
before packed rows. -/
inductive Event where
  | alter (a : Alteration)
  | write (row : IndexKey)
  | writeFixed (row : IndexKey)
  deriving DecidableEq, Repr

/-- A row `IndexKey` lets be built, with a value for each column. -/
def SqlTable.Accepts (t : SqlTable) (row : IndexKey) : Prop :=
  row.length = t.fields.length ∧ IndexKey.newFromOwned row = .ok row

instance (t : SqlTable) (row : IndexKey) : Decidable (t.Accepts row) :=
  inferInstanceAs (Decidable (_ ∧ _))

/-- A statement that fails changes nothing; a `Vec` holds less than `2 ^ 63` bytes. -/
def State.step (s : State) : Event → State
  | .alter a =>
    match a.apply s.table with
    | .ok t => ⟨t, s.stored.map fun r => { r with row := a.onRow s.table.fields r.row }⟩
    | .error _ => s
  | .write row =>
    if s.table.Accepts row ∧ (s.table.rowBytes row).length < 2 ^ 63 then
      { s with stored := ⟨s.table.encodeRow row, row⟩ :: s.stored }
    else s
  | .writeFixed row =>
    match s.table.encodeFixedRow row with
    | some data =>
      if s.table.Accepts row ∧ data.length < 2 ^ 63 then
        { s with stored := ⟨data, row⟩ :: s.stored }
      else s
    | none => s

/-- What each step must meet for rows to read back: an added column's default is within its
capacity, no version or column is the `2 ^ 32`nd, and a written row can be said in its form. -/
def Sound (s : State) : Event → Prop
  | .alter a => s.table.versions.length < 2 ^ 32 ∧
      match a with
      | .add _ _ _ default =>
        (∀ v, default = some v → v.validate = .ok ()) ∧ s.table.nextFieldId.toNat + 1 < 2 ^ 32
      | _ => True
  | .write row => Sayable (SqlTable.types s.table.fields) row
  | .writeFixed _ => True

/-- The values agree with the row wherever they are wanted. -/
def ReadsAs (wanted : Option (List Bool)) (values row : List ValueItem) : Prop :=
  values.length = row.length ∧ ∀ pos v w, unwanted wanted pos = false →
    row[pos]? = some v → values[pos]? = some w → v.eq w = true

/-- A stored row is a form of values that are carried over to the row it stands for. -/
structure Kept (t : SqlTable) (r : Stored) : Prop where
  form : ∃ version fields vs bytes, r.data = StoredRow.toBytes ⟨version, bytes⟩ ∧
    bytes.length < 2 ^ 64 ∧ t.fieldsAt version = some fields ∧ Form fields vs bytes ∧
    vs.length = fields.length ∧ vs.length < 2 ^ 64 ∧ (∀ v ∈ vs, v.validate = .ok ()) ∧
    SameRow r.row (carried fields vs t.fields) ∧
    ∀ f ∈ t.fields, (∀ g ∈ fields, g.id ≠ f.id) → f.backfill.validate = .ok ()

/-- The versions are few enough for their numbers, each tells its columns apart, and no
column has the id that is next. -/
structure Numbered (t : SqlTable) : Prop where
  versions_le : t.versions.length ≤ 2 ^ 32
  nodup : ∀ fields ∈ t.versions, (fields.map (·.id)).Nodup
  id_lt : ∀ fields ∈ t.versions, ∀ f ∈ fields, f.id.toNat < t.nextFieldId.toNat

namespace SqlTable

theorem fields_mem (t : SqlTable) : t.fields ∈ t.versions := List.getLast_mem t.hasVersion

end SqlTable

/-- A table has fewer columns than ids. -/
theorem Numbered.length_le (h : Numbered t) (hf : fields ∈ t.versions) :
    fields.length ≤ t.nextFieldId.toNat := by
  have hnodup : (fields.map fun f => f.id.toNat).Nodup := by
    have hmap := (h.nodup fields hf).map (f := UInt32.toNat) fun a b hab => UInt32.toNat_inj.mp hab
    rwa [List.map_map] at hmap
  have hsubset : (fields.map fun f => f.id.toNat) ⊆ List.range t.nextFieldId.toNat := by
    intro n hn
    obtain ⟨f, hmem, rfl⟩ := List.mem_map.mp hn
    exact List.mem_range.mpr (h.id_lt fields hf f hmem)
  have hle := (List.subperm_of_subset hnodup hsubset).length_le
  rwa [List.length_map, List.length_range] at hle

/-- A stored row reads back as what it stands for. -/
theorem Kept.reads {r : Stored} (hn : Numbered t) (h : Kept t r) (wanted : Option (List Bool)) :
    ∃ values, t.decodeRow r.data wanted = .ok values ∧ ReadsAs wanted values r.row := by
  obtain ⟨version, fields, vs, bytes, hdata, hbytes, hfields, hform, hlen, hcount, hvalid, hrow,
    hback⟩ := h.form
  have hcurrent : version = t.version → t.fields = fields := by
    intro heq
    rw [heq, SqlTable.fieldsAt_version hn.versions_le] at hfields
    exact Option.some.inj hfields
  have hdecode := decodeStoredRow_form hform hfields hcurrent hlen hcount hvalid wanted
  have hread : t.decodeRow r.data wanted = t.decodeStoredRow ⟨version, bytes⟩ wanted := by
    rw [SqlTable.decodeRow, hdata, StoredRow.fromBytes_toBytes hbytes]
    rfl
  by_cases hver : version = t.version
  · rw [if_pos hver] at hdecode
    refine ⟨_, hread.trans hdecode, ?_⟩
    rw [hcurrent hver, carried_self (hn.nodup fields (List.mem_of_getElem? hfields)) hlen] at hrow
    refine ⟨by rw [length_masked, hrow.length_eq], ?_⟩
    intro pos v w hwanted hv hw
    rw [getElem?_masked, Nat.zero_add, hwanted, Option.map_eq_some_iff] at hw
    obtain ⟨u, hu, rfl⟩ := hw
    rw [if_neg Bool.false_ne_true]
    exact hrow.eq_of_getElem? hv hu
  · have hreproject : t.reproject version vs = .ok (carried fields vs t.fields) := by
      have hall : ∀ v ∈ carried fields vs t.fields, v.validate = .ok () := by
        intro v hv
        obtain ⟨f, hf, rfl⟩ := List.mem_map.mp hv
        split
        · next pos hpos =>
            have hlt : pos < vs.length := by
              rw [hlen]
              exact (List.findIdx?_eq_some_iff_getElem.mp hpos).1
            rw [List.getD_eq_getElem?_getD, List.getElem?_eq_getElem hlt, Option.getD_some]
            exact hvalid _ (List.getElem_mem hlt)
        · next hnone =>
            rw [List.findIdx?_eq_none_iff] at hnone
            exact hback f hf fun g hg => of_decide_eq_false (hnone g hg)
      rw [SqlTable.reproject, hfields]
      show (if vs.length ≠ fields.length then _ else _) = _
      rw [if_neg (not_not.mpr hlen), if_neg hver]
      exact newRow_ok hall
    rw [if_neg hver, hreproject] at hdecode
    refine ⟨_, hread.trans hdecode, hrow.length_eq.symm, ?_⟩
    intro pos v w _ hv hw
    exact hrow.eq_of_getElem? hv hw

/-- An alteration gives no id twice and keeps below the next. -/
theorem Numbered.alter {s : State} (h : Numbered s.table) (hsound : Sound s (.alter a)) :
    Numbered { s.table.pushVersion (a.columns s.table) with nextFieldId := a.nextId s.table } := by
  have hfields := s.table.fields_mem
  have hnodup := h.nodup _ hfields
  have hlt := h.id_lt _ hfields
  have hcolumns : ((a.columns s.table).map (·.id)).Nodup ∧
      (∀ f ∈ a.columns s.table, f.id.toNat < (a.nextId s.table).toNat) ∧
      s.table.nextFieldId.toNat ≤ (a.nextId s.table).toNat := by
    cases a with
    | add name datatype nullable default =>
      have hid := hsound.2.2
      have hnext : (s.table.nextFieldId + 1).toNat = s.table.nextFieldId.toNat + 1 := by
        rw [UInt32.toNat_add]
        show (s.table.nextFieldId.toNat + 1) % 2 ^ 32 = _
        omega
      refine ⟨?_, ?_, ?_⟩
      · rw [Alteration.columns, List.map_append, List.nodup_append]
        refine ⟨hnodup, List.nodup_singleton _, ?_⟩
        intro id hold other hnew heq
        obtain ⟨f, hf, rfl⟩ := List.mem_map.mp hold
        have hfresh := hlt f hf
        obtain rfl : other = s.table.nextFieldId := List.mem_singleton.mp hnew
        rw [heq] at hfresh
        exact Nat.lt_irrefl _ hfresh
      · intro f hf
        show _ < (s.table.nextFieldId + 1).toNat
        rw [hnext]
        rcases List.mem_append.mp hf with hold | hnew
        · exact Nat.lt_succ_of_lt (hlt f hold)
        · rw [List.mem_singleton.mp hnew]
          exact Nat.lt_succ_self _
      · show _ ≤ (s.table.nextFieldId + 1).toNat
        omega
    | drop name =>
      refine ⟨hnodup.sublist (List.Sublist.map _ List.filter_sublist), ?_, Nat.le_refl _⟩
      exact fun f hf => hlt f (List.mem_of_mem_filter hf)
    | rename oldName newName =>
      refine ⟨?_, ?_, Nat.le_refl _⟩
      · have hids : (Alteration.columns s.table (.rename oldName newName)).map (·.id) =
            s.table.fields.map (·.id) := by
          rw [Alteration.columns, List.map_map]
          apply List.map_congr_left
          intro f _
          simp only [Function.comp_apply]
          split <;> rfl
        rw [hids]
        exact hnodup
      · intro f hf
        obtain ⟨g, hg, rfl⟩ := List.mem_map.mp hf
        have hg' := hlt g hg
        split
        · exact hg'
        · exact hg'
  constructor
  · show (s.table.versions ++ [a.columns s.table]).length ≤ 2 ^ 32
    rw [List.length_append]
    exact hsound.1
  · intro fields hf
    rcases List.mem_append.mp hf with hold | hnew
    · exact h.nodup fields hold
    · obtain rfl := List.mem_singleton.mp hnew
      exact hcolumns.1
  · intro fields hf f hmem
    rcases List.mem_append.mp hf with hold | hnew
    · exact Nat.lt_of_lt_of_le (h.id_lt fields hold f hmem) hcolumns.2.2
    · obtain rfl := List.mem_singleton.mp hnew
      exact hcolumns.2.1 f hmem

/-- Every value a column backfills under an alteration is one it backfilled before, or a
default that was checked. -/
theorem backfill_columns {s : State} (hsound : Sound s (.alter a))
    (h : ∀ f ∈ s.table.fields, (∀ g ∈ fields, g.id ≠ f.id) → f.backfill.validate = .ok ()) :
    ∀ f ∈ a.columns s.table, (∀ g ∈ fields, g.id ≠ f.id) → f.backfill.validate = .ok () := by
  intro f hf hnew
  cases a with
  | add name datatype nullable default =>
    rcases List.mem_append.mp hf with hold | hadded
    · exact h f hold hnew
    · obtain rfl := List.mem_singleton.mp hadded
      cases default with
      | none => rfl
      | some v => exact hsound.2.1 v rfl
  | drop name => exact h f (List.mem_of_mem_filter hf) hnew
  | rename oldName newName =>
    obtain ⟨g, hg, rfl⟩ := List.mem_map.mp hf
    by_cases hname : g.name = oldName
    · rw [if_pos hname] at hnew ⊢
      exact h g hg hnew
    · rw [if_neg hname] at hnew ⊢
      exact h g hg hnew

/-- An alteration keeps what stored rows read as. -/
theorem Kept.alter {s : State} {r : Stored} (hn : Numbered s.table) (hsound : Sound s (.alter a))
    (h : Kept s.table r) :
    Kept { s.table.pushVersion (a.columns s.table) with nextFieldId := a.nextId s.table }
      { r with row := a.onRow s.table.fields r.row } := by
  obtain ⟨version, fields, vs, bytes, hdata, hbytes, hfields, hform, hlen, hcount, hvalid, hrow,
    hback⟩ := h.form
  have hcolumns : SqlTable.fields
      { s.table.pushVersion (a.columns s.table) with nextFieldId := a.nextId s.table } =
        a.columns s.table := List.getLast_append_singleton s.table.versions
  have hfresh : ∀ g ∈ fields, g.id ≠ s.table.nextFieldId := by
    intro g hg heq
    have hlt := hn.id_lt fields (List.mem_of_getElem? hfields) g hg
    rw [heq] at hlt
    exact Nat.lt_irrefl _ hlt
  refine ⟨version, fields, vs, bytes, hdata, hbytes, ?_, hform, hlen, hcount, hvalid, ?_, ?_⟩
  · show (s.table.versions ++ [a.columns s.table])[version.toNat]? = some fields
    rw [List.getElem?_append_left (List.getElem?_eq_some_iff.mp hfields).1]
    exact hfields
  · rw [hcolumns, carried_columns vs a hfresh]
    exact hrow.onRow a
  · rw [hcolumns]
    exact backfill_columns hsound hback

/-- A row stored as a form of its values is kept. -/
theorem Kept.of_form {row : List ValueItem} {bytes : List UInt8} (hn : Numbered t)
    (hlen : row.length = t.fields.length) (hsame : SameRow row vs)
    (hform : Form t.fields vs bytes) (hvalid : ∀ v ∈ vs, v.validate = .ok ())
    (hbytes : bytes.length < 2 ^ 64) :
    Kept t ⟨StoredRow.toBytes ⟨t.version, bytes⟩, row⟩ := by
  have hvs : vs.length = t.fields.length := by rw [← hsame.length_eq, hlen]
  have hcount := hn.length_le t.fields_mem
  have hid := t.nextFieldId.toNat_lt
  refine ⟨t.version, t.fields, vs, bytes, rfl, hbytes,
    SqlTable.fieldsAt_version hn.versions_le, hform, hvs, by omega, hvalid, ?_, ?_⟩
  · rw [carried_self (hn.nodup _ t.fields_mem) hvs]
    exact hsame
  · exact fun f hf hnone => absurd rfl (hnone f hf)

/-! ## Every run -/

/-- What holds of a table and its stored rows in every run. -/
structure Inv (s : State) : Prop where
  numbered : Numbered s.table
  kept : ∀ r ∈ s.stored, Kept s.table r

theorem length_le_toBytes (r : StoredRow) : r.values.length ≤ r.toBytes.length := by
  rw [StoredRow.toBytes, Postcard.bytes, List.length_append, List.length_append]
  omega

theorem Inv.step {s : State} {e : Event} (h : Inv s) (hsound : Sound s e) : Inv (s.step e) := by
  cases e with
  | alter a =>
    rw [State.step]
    cases happly : a.apply s.table with
    | error err => exact h
    | ok t =>
      have ht := Alteration.apply_eq happly
      subst ht
      constructor
      · exact h.numbered.alter hsound
      · intro r hr
        obtain ⟨r', hr', rfl⟩ := List.mem_map.mp hr
        exact (h.kept r' hr').alter h.numbered hsound
  | write row =>
    rw [State.step]
    split
    · next hok =>
        obtain ⟨⟨hlen, hnew⟩, hbytes⟩ := hok
        have hvalid := IndexKey.newFromOwned_iff.mp hnew
        have hcount := h.numbered.length_le s.table.fields_mem
        have hid := s.table.nextFieldId.toNat_lt
        obtain ⟨vs, hform, hsame, hvs⟩ := form_rowBytes hlen (by omega) hvalid hsound
        constructor
        · exact h.numbered
        · intro r hr
          rcases List.mem_cons.mp hr with rfl | hold
          · exact Kept.of_form h.numbered hlen hsame hform hvs (by omega)
          · exact h.kept r hold
    · exact h
  | writeFixed row =>
    rw [State.step]
    cases hdata : s.table.encodeFixedRow row with
    | none => exact h
    | some data =>
      dsimp only
      split
      · next hok =>
          obtain ⟨⟨hlen, hnew⟩, hbytes⟩ := hok
          have hvalid := IndexKey.newFromOwned_iff.mp hnew
          have hcount := h.numbered.length_le s.table.fields_mem
          have hid := s.table.nextFieldId.toNat_lt
          rw [SqlTable.encodeFixedRow] at hdata
          cases hl : SqlTable.layout s.table.fields with
          | none => simp [hl] at hdata
          | some l =>
            cases hvalues : l.encode (SqlTable.types s.table.fields) row with
            | none => simp [hl, hvalues] at hdata
            | some values =>
              simp only [hl, hvalues, Option.bind_eq_bind, Option.bind_some,
                Option.pure_def, Option.some.injEq] at hdata
              subst hdata
              have hshort := length_le_toBytes ⟨s.table.version, values⟩
              have htypes : row.length = (SqlTable.types s.table.fields).length := by
                rw [SqlTable.types, List.length_map, hlen]
              obtain ⟨hform, -⟩ := form_fixed hl (by omega) hvalues
              constructor
              · exact h.numbered
              · intro r hr
                rcases List.mem_cons.mp hr with rfl | hold
                · refine Kept.of_form h.numbered hlen
                    (sameRow_map htypes fun c => eq_capped c.1 c.2) hform ?_
                    (by dsimp only at hshort; omega)
                  intro v hv
                  obtain ⟨c, hc, rfl⟩ := List.mem_map.mp hv
                  exact validate_capped c.2 (hvalid c.1 (List.of_mem_zip hc).1)
                · exact h.kept r hold
      · exact h

theorem inv_table {b : TableBuilder} (hcolumns : b.fields.length < 2 ^ 32)
    (partitionedBy : Option UInt32) : Inv ⟨{ b.table with partitionedBy }, []⟩ := by
  have hids : (TableBuilder.numbered b.fields).map (·.id) =
      (List.range b.fields.length).map UInt32.ofNat := by
    apply List.ext_getElem?
    intro i
    simp only [TableBuilder.numbered, List.getElem?_map, List.getElem?_mapIdx]
    by_cases hi : i < b.fields.length
    · rw [List.getElem?_eq_getElem hi, List.getElem?_range hi]
      rfl
    · rw [List.getElem?_eq_none (by omega), List.getElem?_eq_none (by simpa using hi)]
      rfl
  have hnext : (UInt32.ofNat b.fields.length).toNat = b.fields.length := by
    rw [UInt32.toNat_ofNat', Nat.mod_eq_of_lt hcolumns]
  constructor
  · constructor
    · show 1 ≤ 2 ^ 32
      decide
    · intro fields hf
      obtain rfl := List.mem_singleton.mp hf
      rw [hids]
      refine List.Nodup.map_on ?_ List.nodup_range
      intro i hi j hj hij
      have hi' := List.mem_range.mp hi
      have hj' := List.mem_range.mp hj
      have heq := congrArg UInt32.toNat hij
      rwa [UInt32.toNat_ofNat', UInt32.toNat_ofNat', Nat.mod_eq_of_lt (by omega),
        Nat.mod_eq_of_lt (by omega)] at heq
    · intro fields hf f hmem
      obtain rfl := List.mem_singleton.mp hf
      have hid : f.id ∈ (TableBuilder.numbered b.fields).map (·.id) := List.mem_map_of_mem hmem
      rw [hids] at hid
      obtain ⟨i, hi, hfi⟩ := List.mem_map.mp hid
      have hi' := List.mem_range.mp hi
      show f.id.toNat < (UInt32.ofNat b.fields.length).toNat
      rw [hnext, ← hfi, UInt32.toNat_ofNat', Nat.mod_eq_of_lt (by omega)]
      exact hi'
  · exact fun r hr => absurd hr List.not_mem_nil

theorem TableBuilder.build_eq {b : TableBuilder} (h : b.build = .ok t) :
    t = b.table := by
  by_cases hname : 128 < b.name.utf8ByteSize
  · simp [TableBuilder.build, hname, bind, Except.bind, throw, throwThe, MonadExceptOf.throw] at h
  · cases hnames : TableBuilder.checkNames [] b.fields with
    | error e => simp [TableBuilder.build, hname, hnames, bind, Except.bind] at h
    | ok u =>
      cases hindices : b.indices.forM (TableBuilder.checkIndex b.fields) with
      | error e =>
        rw [List.forM_eq_forM] at hindices
        simp [TableBuilder.build, hname, hnames, hindices, bind, Except.bind] at h
      | ok u =>
        rw [List.forM_eq_forM] at hindices
        cases hkeys : TableBuilder.checkForeignKeys b.fields [] b.foreignKeys with
        | error e =>
          simp [TableBuilder.build, hname, hnames, hindices, hkeys, bind, Except.bind] at h
        | ok u =>
          cases hself : TableBuilder.checkSelfKeys b.table b.foreignKeys with
          | error e =>
            simp [TableBuilder.build, hname, hnames, hindices, hkeys, hself, bind,
              Except.bind] at h
          | ok u =>
            simp [TableBuilder.build, hname, hnames, hindices, hkeys, hself, bind,
              Except.bind, pure, Except.pure] at h
            exact h.symm

/-- In every run whose added defaults are within their capacities and whose rows can be said in
their forms, each stored row reads back as what it stands for. -/
theorem stored_rows_read_back {b : TableBuilder} {t : SqlTable} (hbuild : b.build = .ok t)
    (hcolumns : b.fields.length < 2 ^ 32) (partitionedBy : Option UInt32) {s : State}
    (h : Reachable State.step Sound ⟨{ t with partitionedBy }, []⟩ s) {r : Stored}
    (hr : r ∈ s.stored) (wanted : Option (List Bool)) :
    ∃ values, s.table.decodeRow r.data wanted = .ok values ∧ ReadsAs wanted values r.row := by
  rw [TableBuilder.build_eq hbuild] at h
  have hinv : Inv s := h.invariant (inv_table hcolumns partitionedBy) fun _ _ hs hok => hs.step hok
  exact (hinv.kept r hr).reads hinv.numbered wanted

/-- `CREATE TABLE t (a INTEGER)`. -/
def oneColumn : TableBuilder where
  name := "t"
  fields := [⟨0, "a", .integer, true, none⟩]
  indices := []
  foreignKeys := []

/-- That table with the row `7` and then a column `c VARCHAR(2)` with a default. -/
def widened (default : String) : List Event :=
  [.write [.integer 7], .alter (.add "c" (.str 2) true (some (.str default 2)))]

theorem stored_rows_read_back_widened :
    let s := run State.step ⟨oneColumn.table, []⟩ (widened "ab")
    ∃ r ∈ s.stored, r.row = [.integer 7, .str "ab" 2] ∧
      ∃ values, s.table.decodeRow r.data none = .ok values ∧ ReadsAs none values r.row := by
  have hbuild : oneColumn.build = .ok oneColumn.table := by decide +kernel
  have htyped : OfTypes (SqlTable.types oneColumn.table.fields) [.integer 7] := by
    intro c hc
    obtain rfl := List.mem_singleton.mp hc
    rfl
  have hwrite : Reachable State.step Sound ⟨{ oneColumn.table with partitionedBy := none }, []⟩
      (State.step ⟨oneColumn.table, []⟩ (.write [.integer 7])) :=
    .step _ .init ⟨fun _ => by decide +kernel, fun h => absurd htyped h⟩
  have hsound : Sound (State.step ⟨oneColumn.table, []⟩ (.write [.integer 7]))
      (.alter (.add "c" (.str 2) true (some (.str "ab" 2)))) := by
    refine ⟨by decide +kernel, ?_, by decide +kernel⟩
    intro v hv
    obtain rfl := Option.some.inj hv
    decide +kernel
  have hadd := hwrite.step _ hsound
  refine ⟨⟨oneColumn.table.encodeRow [.integer 7], [.integer 7, .str "ab" 2]⟩, ?_, rfl, ?_⟩
  · decide +kernel
  · exact stored_rows_read_back hbuild (by decide) none hadd (by decide +kernel) none

/-- A row is unreadable once a column it lacks has a default over its capacity. -/
theorem long_default_not_read :
    let s := run State.step ⟨oneColumn.table, []⟩ (widened "abc")
    oneColumn.build = .ok oneColumn.table ∧
      ∃ r ∈ s.stored, r.row = [.integer 7, .str "abc" 2] ∧ s.table.decodeRow r.data none =
        .error (.userError "value too large: 3 byte(s), maximum allowed is 2 byte(s)") := by
  refine ⟨by decide +kernel,
    ⟨oneColumn.table.encodeRow [.integer 7], [.integer 7, .str "abc" 2]⟩, ?_, rfl, ?_⟩
  · decide +kernel
  · decide +kernel

end SquealDb.Table
