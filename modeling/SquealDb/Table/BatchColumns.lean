import SquealDb.Table.Batch

/-!
# What a column of a batch shows

A column being filled stands for the values it took since it was cleared; once checked, `get`
gives them back one by one.
-/

namespace SquealDb.Table

open Codec Codec.KeyCode Lib Sql

/-! ## Text put together -/

@[simp] theorem asBytes_append (s t : String) : asBytes (s ++ t) = asBytes s ++ asBytes t := by
  simp [asBytes, String.toByteArray_append]

theorem asBytes_of_fromUtf8 {bytes : List UInt8} {s : String} (h : fromUtf8 bytes = some s) :
    asBytes s = bytes := by
  rw [fromUtf8, String.fromUTF8?] at h
  split at h
  · rw [← Option.some.inj h]
    rfl
  · cases h

/-- Strings one behind the other are a string. -/
theorem exists_asBytes_flatten (segments : List String) :
    ∃ s, asBytes s = (segments.map asBytes).flatten := by
  induction segments with
  | nil => exact ⟨"", rfl⟩
  | cons t segments ih =>
    obtain ⟨s, hs⟩ := ih
    exact ⟨t ++ s, by rw [asBytes_append, hs]; rfl⟩

/-- A string's first byte starts a character. -/
theorem head_asBytes {s : String} {b : UInt8} {rest : List UInt8} (h : asBytes s = b :: rest) :
    b < 0x80 ∨ 0xC0 ≤ b := by
  have hlen : 0 < s.toByteArray.size := by
    have hsize : s.toByteArray.size = (asBytes s).length := rfl
    rw [hsize, h]
    exact Nat.succ_pos _
  have hfirst := String.isUTF8FirstByte_getUTF8Byte_zero (b := s) (h := hlen)
  have hb : s.getUTF8Byte 0 hlen = b := by
    show (asBytes s).get ⟨0, hlen⟩ = b
    simp [h]
  have hall : ∀ n : Fin 256, (UInt8.ofFin n).IsUTF8FirstByte →
      UInt8.ofFin n < 0x80 ∨ 0xC0 ≤ UInt8.ofFin n := by decide +kernel
  rw [hb] at hfirst
  exact hall b.toFin hfirst

theorem isCharBoundary_reach {segments : List String} {text : String}
    (h : asBytes text = (segments.map asBytes).flatten) (i : Nat) :
    isCharBoundary text (reach (segments.map asBytes) i) = true := by
  obtain ⟨later, hlater⟩ := exists_asBytes_flatten (segments.drop i)
  have hsplit : asBytes text = ((segments.map asBytes).take i).flatten ++ asBytes later := by
    rw [h, hlater, List.map_drop, ← List.flatten_append, List.take_append_drop]
  rw [isCharBoundary, Bool.or_eq_true]
  right
  have hat : (asBytes text)[reach (segments.map asBytes) i]? = (asBytes later)[0]? := by
    rw [hsplit, reach, List.getElem?_append_right (Nat.le_refl _), Nat.sub_self]
  rw [hat]
  cases hbytes : asBytes later with
  | nil =>
    rw [hbytes, List.append_nil] at hsplit
    show (_ == _) = true
    rw [hsplit, reach]
    exact beq_self_eq_true _
  | cons b rest =>
    show (decide (b < 0x80) || decide (0xC0 ≤ b)) = true
    simpa using head_asBytes hbytes

/-! ## Segments behind one another -/

/-- Where each of some segments ends. -/
def stops (segments : List (List UInt8)) : List UInt32 := (Lib.ends 0 segments).map UInt32.ofNat

theorem stops_append (segments : List (List UInt8)) (segment : List UInt8) :
    stops (segments ++ [segment]) =
      stops segments ++ [UInt32.ofNat (segments.flatten ++ segment).length] := by
  rw [stops, ends_append, List.map_append, stops, List.length_append]
  simp [Lib.ends]

variable {segments : List (List UInt8)} {i : Nat} {null : List Bool} {cells : List ValueItem}

theorem getElem?_stops (h : i < segments.length) (hfit : segments.flatten.length < 2 ^ 32) :
    (stops segments)[i]?.map (·.toNat) = some (reach segments (i + 1)) := by
  have hle := reach_le segments (i + 1)
  rw [stops, List.getElem?_map, getElem?_ends h, Option.map_some, Option.map_some, Nat.zero_add,
    UInt32.toNat_ofNat', Nat.mod_eq_of_lt (by omega)]

theorem span_stops {segment : List UInt8} (h : segments[i]? = some segment)
    (hfit : segments.flatten.length < 2 ^ 32) :
    span (stops segments) i = some (reach segments i, reach segments (i + 1)) := by
  have hlt := (List.getElem?_eq_some_iff.mp h).1
  have hstop := getElem?_stops hlt hfit
  obtain ⟨stop, hstop', hval⟩ := Option.map_eq_some_iff.mp hstop
  rw [span, hstop']
  cases i with
  | zero =>
    show some (0, stop.toNat) = _
    rw [hval, reach_zero]
  | succ i =>
    have hstart := getElem?_stops (Nat.lt_of_succ_lt hlt) hfit
    rw [if_neg (Nat.succ_ne_zero i), Nat.add_sub_cancel, hstart]
    show some (_, stop.toNat) = _
    rw [hval]

theorem getRange_reach {segment : List UInt8} (h : segments[i]? = some segment) :
    getRange segments.flatten (reach segments i) (reach segments (i + 1)) = some segment := by
  have hle := reach_le segments (i + 1)
  have hnext := reach_succ h
  rw [getRange, if_pos ⟨by omega, hle⟩, hnext, Nat.add_sub_cancel_left, drop_take_reach h]

/-! ## The values a column shows -/

/-- What cells show: `NULL` where the flag is set. -/
def shown (null : List Bool) (cells : List ValueItem) : List ValueItem :=
  List.zipWith (fun isNull v => if isNull then .null else v) null cells

theorem shown_append (h : null.length = cells.length) (isNull : Bool) (v : ValueItem) :
    shown (null ++ [isNull]) (cells ++ [v]) =
      shown null cells ++ [if isNull then .null else v] := by
  rw [shown, List.zipWith_append h]
  rfl

theorem length_shown (h : null.length = cells.length) :
    (shown null cells).length = cells.length := by
  rw [shown, List.length_zipWith, h, Nat.min_self]

theorem shown_shown (null : List Bool) (cells : List ValueItem) :
    shown null (shown null cells) = shown null cells := by
  induction null generalizing cells with
  | nil => rfl
  | cons isNull null ih =>
    cases cells with
    | nil => rfl
    | cons v cells =>
      show _ :: shown null (shown null cells) = _ :: shown null cells
      rw [ih]
      cases isNull <;> rfl

theorem getElem?_shown {v : ValueItem} (h : (shown null cells)[i]? = some v) :
    ∃ isNull cell, null[i]? = some isNull ∧ cells[i]? = some cell ∧
      v = if isNull then .null else cell := by
  rw [shown, List.getElem?_zipWith] at h
  cases hn : null[i]? with
  | none => simp [hn] at h
  | some isNull =>
    cases hc : cells[i]? with
    | none => simp [hn, hc] at h
    | some cell =>
      rw [hn, hc] at h
      exact ⟨isNull, cell, rfl, rfl, (Option.some.inj h).symm⟩

/-- The cells that a column's data holds, its text checked or being filled. -/
def ColumnData.Cells (checked : Bool) (cells : List ValueItem) : ColumnData → Prop
  | .absent => False
  | .integer v => cells = v.map .integer
  | .datetime v => cells = v.map .datetime
  | .double v => cells = v.map .double
  | .boolean v => cells = v.map .boolean
  | .str ends filling text capacity => ∃ segments : List String,
      cells = segments.map (fun s => .str s capacity) ∧ ends = stops (segments.map asBytes) ∧
      (if checked then asBytes text else filling) = (segments.map asBytes).flatten ∧
      (segments.map asBytes).flatten.length < 2 ^ 32
  | .blob ends bytes capacity => ∃ segments : List (List UInt8),
      cells = segments.map (fun b => .blob b capacity) ∧ ends = stops segments ∧
      bytes = segments.flatten ∧ segments.flatten.length < 2 ^ 32
  | .values v => cells = v

/-- How many bytes a value adds to a buffer. -/
def contentLength : ValueItem → Nat
  | .str s _ => (asBytes s).length
  | .blob b _ => b.length
  | _ => 0

/-- How many bytes the column's buffer holds. -/
def ColumnData.buffered : ColumnData → Nat
  | .str _ filling _ _ => filling.length
  | .blob _ bytes _ => bytes.length
  | _ => 0

namespace Column

/-- The column stands for the values `vs`. -/
def Shows (checked : Bool) (c : Column) (vs : List ValueItem) : Prop :=
  ∃ cells, c.data.Cells checked cells ∧ c.null.length = cells.length ∧ vs = shown c.null cells

variable {next : ColumnData} {cells vs : List ValueItem} {v : ValueItem} {c : Column} {i : Nat}
  {t : DataType}

theorem taken_cells {data : ColumnData} (h : data.Cells false cells)
    (htaken : taken data v = some next) (hfit : data.buffered + contentLength v < 2 ^ 32) :
    next.Cells false (cells ++ [v]) := by
  unfold taken at htaken
  split at htaken
  · obtain rfl := Option.some.inj htaken
    show _ = List.map _ _
    rw [List.map_append, show cells = _ from h]
    rfl
  · obtain rfl := Option.some.inj htaken
    show _ = List.map _ _
    rw [List.map_append, show cells = _ from h]
    rfl
  · obtain rfl := Option.some.inj htaken
    show _ = List.map _ _
    rw [List.map_append, show cells = _ from h]
    rfl
  · obtain rfl := Option.some.inj htaken
    show _ = List.map _ _
    rw [List.map_append, show cells = _ from h]
    rfl
  · next ends filling text capacity s cap =>
      split at htaken
      · next hcap =>
          obtain rfl := Option.some.inj htaken
          obtain ⟨segments, hcells, hends, hfilling, -⟩ := h
          have hflat : filling = (segments.map asBytes).flatten := hfilling
          have hlen : filling.length + (asBytes s).length < 2 ^ 32 := hfit
          refine ⟨segments ++ [s], ?_, ?_, ?_, ?_⟩
          · rw [hcells, List.map_append, hcap]
            rfl
          · rw [List.map_append, hends, hflat]
            exact (stops_append _ _).symm
          · rw [List.map_append, List.flatten_append, ← hflat]
            simp
          · rw [List.map_append, List.flatten_append, ← hflat, List.length_append]
            simpa using hlen
      · exact nomatch htaken
  · next ends bytes capacity b cap =>
      split at htaken
      · next hcap =>
          obtain rfl := Option.some.inj htaken
          obtain ⟨segments, hcells, hends, hflat, -⟩ := h
          have hlen : bytes.length + b.length < 2 ^ 32 := hfit
          refine ⟨segments ++ [b], ?_, ?_, ?_, ?_⟩
          · rw [hcells, List.map_append, hcap]
            rfl
          · rw [hends, hflat]
            exact (stops_append _ _).symm
          · rw [List.flatten_append, ← hflat]
            simp
          · rw [List.flatten_append, ← hflat, List.length_append]
            simpa using hlen
      · exact nomatch htaken
  · obtain rfl := Option.some.inj htaken
    show _ = _
    rw [show cells = _ from h]
  · exact nomatch htaken

theorem pushNull_cells (h : c.data.Cells false cells) (hfit : c.data.buffered < 2 ^ 32) :
    ∃ cell, c.pushNull.data.Cells false (cells ++ [cell]) := by
  unfold pushNull
  cases hdata : c.data with
  | absent => simp [hdata, ColumnData.Cells] at h
  | integer v =>
    rw [hdata] at h
    exact ⟨.integer 0, by show _ = List.map _ _; rw [List.map_append, show cells = _ from h]; rfl⟩
  | datetime v =>
    rw [hdata] at h
    exact ⟨.datetime 0, by show _ = List.map _ _; rw [List.map_append, show cells = _ from h]; rfl⟩
  | double v =>
    rw [hdata] at h
    exact ⟨.double 0, by show _ = List.map _ _; rw [List.map_append, show cells = _ from h]; rfl⟩
  | boolean v =>
    rw [hdata] at h
    exact ⟨.boolean false,
      by show _ = List.map _ _; rw [List.map_append, show cells = _ from h]; rfl⟩
  | str ends filling text capacity =>
    rw [hdata] at h hfit
    have hempty : asBytes "" = [] := rfl
    have htaken : taken (.str ends filling text capacity) (.str "" capacity) = some _ :=
      if_pos rfl
    simp only [hempty, List.append_nil] at htaken
    exact ⟨.str "" capacity, taken_cells h htaken hfit⟩
  | blob ends bytes capacity =>
    rw [hdata] at h hfit
    have htaken : taken (.blob ends bytes capacity) (.blob [] capacity) = some _ := if_pos rfl
    simp only [List.append_nil] at htaken
    exact ⟨.blob [] capacity, taken_cells h htaken hfit⟩
  | values v =>
    rw [hdata] at h
    exact ⟨.null, by show _ = _; rw [show cells = _ from h]⟩

/-- A cell that is not `NULL`, once the text is checked. -/
theorem get_cell {cell : ValueItem} (h : c.data.Cells true cells) (hcell : cells[i]? = some cell)
    (hnull : c.isNull i = false) :
    c.get i = some cell := by
  unfold get
  rw [if_neg (by rw [hnull]; exact Bool.false_ne_true)]
  cases hdata : c.data with
  | absent => simp [hdata, ColumnData.Cells] at h
  | integer v => rw [hdata, ColumnData.Cells] at h; rw [h, List.getElem?_map] at hcell; exact hcell
  | datetime v => rw [hdata, ColumnData.Cells] at h; rw [h, List.getElem?_map] at hcell; exact hcell
  | double v => rw [hdata, ColumnData.Cells] at h; rw [h, List.getElem?_map] at hcell; exact hcell
  | boolean v => rw [hdata, ColumnData.Cells] at h; rw [h, List.getElem?_map] at hcell; exact hcell
  | str ends filling text capacity =>
    rw [hdata] at h
    obtain ⟨segments, rfl, rfl, htext, hfit⟩ := h
    have htext' : asBytes text = (segments.map asBytes).flatten := htext
    rw [List.getElem?_map, Option.map_eq_some_iff] at hcell
    obtain ⟨s, hs, rfl⟩ := hcell
    have hsegment : (segments.map asBytes)[i]? = some (asBytes s) := by
      rw [List.getElem?_map, hs, Option.map_some]
    dsimp only
    rw [span_stops hsegment hfit, Option.bind_eq_bind, Option.bind_some]
    dsimp only
    rw [slice, isCharBoundary_reach htext', isCharBoundary_reach htext', htext',
      getRange_reach hsegment]
    show ((fromUtf8 (asBytes s)).bind _) = _
    rw [fromUtf8_asBytes]
    rfl
  | blob ends bytes capacity =>
    rw [hdata] at h
    obtain ⟨segments, rfl, rfl, rfl, hfit⟩ := h
    rw [List.getElem?_map, Option.map_eq_some_iff] at hcell
    obtain ⟨b, hb, rfl⟩ := hcell
    dsimp only
    rw [span_stops hb hfit, Option.bind_eq_bind, Option.bind_some]
    dsimp only
    rw [getRange_reach hb]
    rfl
  | values v => rw [hdata, ColumnData.Cells] at h; rw [h] at hcell; exact hcell

/-- Only a column of strings has something to check. -/
theorem cells_checked {data : ColumnData} (h : data.Cells false cells)
    (hother : ∀ ends filling text capacity, data ≠ .str ends filling text capacity) :
    data.Cells true cells := by
  cases data with
  | str ends filling text capacity => exact absurd rfl (hother ends filling text capacity)
  | absent => exact h
  | integer v => exact h
  | datetime v => exact h
  | double v => exact h
  | boolean v => exact h
  | blob ends bytes capacity => exact h
  | values v => exact h

/-- A cell that is not `NULL`, while the column is being filled. -/
theorem unfinished_cell {cell : ValueItem} (h : c.data.Cells false cells)
    (hcell : cells[i]? = some cell) (hnull : c.isNull i = false) :
    c.unfinished i = some cell := by
  unfold unfinished
  rw [if_neg (by rw [hnull]; exact Bool.false_ne_true)]
  split
  · next ends filling text capacity hdata =>
      rw [hdata] at h
      obtain ⟨segments, rfl, rfl, hfilling, hfit⟩ := h
      have hflat : filling = (segments.map asBytes).flatten := hfilling
      rw [List.getElem?_map, Option.map_eq_some_iff] at hcell
      obtain ⟨s, hs, rfl⟩ := hcell
      have hsegment : (segments.map asBytes)[i]? = some (asBytes s) := by
        rw [List.getElem?_map, hs, Option.map_some]
      rw [span_stops hsegment hfit, Option.bind_eq_bind, Option.bind_some]
      dsimp only
      rw [hflat, getRange_reach hsegment]
      show some (ValueItem.str (fromUtf8Lossy (asBytes s)) capacity) = _
      rw [fromUtf8Lossy, fromUtf8_asBytes]
  · next hother => exact get_cell (cells_checked h hother) hcell hnull

theorem isNull_of_getElem? {isNull : Bool} (h : c.null[i]? = some isNull) :
    c.isNull i = isNull := by
  rw [Column.isNull, List.getD_eq_getElem?_getD, h, Option.getD_some]

/-- A checked column gives the values it took. -/
theorem Shows.get (h : c.Shows true vs) (hv : vs[i]? = some v) : c.get i = some v := by
  obtain ⟨cells, hcells, hlen, rfl⟩ := h
  obtain ⟨isNull, cell, hflag, hcell, rfl⟩ := getElem?_shown hv
  have hnull := isNull_of_getElem? hflag
  cases isNull with
  | true =>
    unfold Column.get
    rw [hnull]
    rfl
  | false => exact get_cell hcells hcell hnull

theorem Shows.unfinished (h : c.Shows false vs) (hv : vs[i]? = some v) :
    c.unfinished i = some v := by
  obtain ⟨cells, hcells, hlen, rfl⟩ := h
  obtain ⟨isNull, cell, hflag, hcell, rfl⟩ := getElem?_shown hv
  have hnull := isNull_of_getElem? hflag
  cases isNull with
  | true =>
    unfold Column.unfinished
    rw [hnull]
    rfl
  | false => exact unfinished_cell hcells hcell hnull

private theorem mapM_some {α β : Type} {f : α → Option β} {g : α → β} {l : List α}
    (h : ∀ a ∈ l, f a = some (g a)) : l.mapM f = some (l.map g) := by
  induction l with
  | nil => rfl
  | cons a l ih =>
    rw [List.mapM_cons, h a List.mem_cons_self, ih fun b hb => h b (List.mem_cons_of_mem _ hb)]
    rfl

theorem Shows.length {checked : Bool} (h : c.Shows checked vs) :
    c.null.length = vs.length := by
  obtain ⟨cells, -, hlen, rfl⟩ := h
  rw [length_shown hlen, hlen]

/-- The values so far, read one by one. -/
theorem Shows.mapM_unfinished (h : c.Shows false vs) :
    (List.range c.null.length).mapM c.unfinished = some vs := by
  have hmap : (List.range c.null.length).map (fun i => vs.getD i .null) = vs := by
    rw [h.length]
    apply List.ext_getElem (by rw [List.length_map, List.length_range])
    intro i hi hlt
    rw [List.getElem_map, List.getElem_range, List.getD_eq_getElem?_getD,
      List.getElem?_eq_getElem hlt, Option.getD_some]
  have hread : (List.range c.null.length).mapM c.unfinished = some _ :=
    mapM_some (g := fun i => vs.getD i .null) (by
      intro i hi
      rw [List.mem_range, h.length] at hi
      rw [List.getD_eq_getElem?_getD, List.getElem?_eq_getElem hi]
      exact h.unfinished (List.getElem?_eq_getElem hi))
  rw [hread, hmap]

/-! ## Taking values -/

theorem Shows.pushNull (h : c.Shows false vs) (hfit : c.data.buffered < 2 ^ 32) :
    c.pushNull.Shows false (vs ++ [.null]) := by
  obtain ⟨cells, hcells, hlen, rfl⟩ := h
  obtain ⟨cell, hcell⟩ := pushNull_cells hcells hfit
  refine ⟨cells ++ [cell], hcell, ?_, ?_⟩
  · show (c.null ++ [true]).length = _
    rw [List.length_append, List.length_append, hlen]
    rfl
  · show _ = shown (c.null ++ [true]) _
    rw [shown_append hlen]
    rfl

/-- One more value of the column's type. -/
theorem Shows.pushed (h : c.Shows false vs) (htaken : taken c.data v = some next)
    (hfit : c.data.buffered + contentLength v < 2 ^ 32) :
    (c.pushed next).Shows false (vs ++ [v]) := by
  obtain ⟨cells, hcells, hlen, rfl⟩ := h
  refine ⟨cells ++ [v], taken_cells hcells htaken hfit, ?_, ?_⟩
  · show (c.null ++ [false]).length = _
    rw [List.length_append, List.length_append, hlen]
    rfl
  · show _ = shown (c.null ++ [false]) _
    rw [shown_append hlen]
    rfl

theorem Shows.not_absent {checked : Bool} (h : c.Shows checked vs) : c.isAbsent = false := by
  obtain ⟨cells, hcells, -⟩ := h
  unfold isAbsent
  split
  · next hdata => rw [hdata] at hcells; exact hcells.elim
  · rfl

/-- A value of whatever type. -/
theorem Shows.push (h : c.Shows false vs) (hfit : c.data.buffered + contentLength v < 2 ^ 32) :
    ∃ next, c.push v = some next ∧ next.Shows false (vs ++ [v]) := by
  unfold Column.push
  by_cases hnull : v = .null
  · rw [if_pos hnull, hnull]
    exact ⟨_, rfl, h.pushNull (by omega)⟩
  · rw [if_neg hnull, if_neg (by rw [h.not_absent]; exact Bool.false_ne_true)]
    cases htaken : taken c.data v with
    | some next => exact ⟨_, rfl, h.pushed htaken hfit⟩
    | none =>
      -- the column's values one by one from here on
      have hlen := h.length
      refine ⟨c.pushed (.values (vs ++ [v])), ?_, vs ++ [v], rfl, ?_, ?_⟩
      · show ((List.range c.null.length).mapM c.unfinished >>= _) = _
        rw [h.mapM_unfinished]
        rfl
      · show (c.null ++ [false]).length = _
        rw [List.length_append, List.length_append, hlen]
        rfl
      · show _ = shown (c.null ++ [false]) _
        rw [shown_append hlen]
        obtain ⟨cells, -, -, rfl⟩ := h
        rw [shown_shown]
        rfl

/-! ## A column of a type -/

/-- The column is for values of type `t`: by its data, or holding values one by one. -/
def Of (t : DataType) (c : Column) : Prop :=
  match t, c.data with
  | .integer, .integer _ => True
  | .datetime, .datetime _ => True
  | .double, .double _ => True
  | .boolean, .boolean _ => True
  | .str n, .str _ _ _ capacity => capacity = n
  | .blob n, .blob _ _ capacity => capacity = n
  | _, .values _ => True
  | _, _ => False

/-- The column holds its values one by one. -/
def ofValues (c : Column) : Bool :=
  match c.data with
  | .values _ => true
  | _ => false

theorem of_values (t : DataType) (v : List ValueItem) (null : List Bool) (nulls : Nat) :
    Of t ⟨.values v, null, nulls⟩ := by
  cases t <;> trivial

theorem new_shows (t : DataType) : (new t).Shows false [] ∧ Of t (new t) := by
  refine ⟨⟨[], ?_, rfl, rfl⟩, ?_⟩
  · cases t with
    | str n => exact ⟨[], rfl, rfl, rfl, by decide⟩
    | blob n => exact ⟨[], rfl, rfl, rfl, by decide⟩
    | integer => rfl
    | double => rfl
    | datetime => rfl
    | boolean => rfl
    | null => rfl
    | unsupported => rfl
  · cases t <;> trivial

theorem clear_of (h : c.Of t) : Of t c.clear := by
  obtain ⟨data, null, nulls⟩ := c
  cases data <;> cases t <;> exact h

theorem clear_shows (h : c.Of t) : c.clear.Shows false [] := by
  obtain ⟨data, null, nulls⟩ := c
  cases data with
  | absent => cases t <;> exact h.elim
  | str ends filling text capacity => exact ⟨[], ⟨[], rfl, rfl, rfl, by decide⟩, rfl, rfl⟩
  | blob ends bytes capacity => exact ⟨[], ⟨[], rfl, rfl, rfl, by decide⟩, rfl, rfl⟩
  | integer v => exact ⟨[], rfl, rfl, rfl⟩
  | datetime v => exact ⟨[], rfl, rfl, rfl⟩
  | double v => exact ⟨[], rfl, rfl, rfl⟩
  | boolean v => exact ⟨[], rfl, rfl, rfl⟩
  | values v => exact ⟨[], rfl, rfl, rfl⟩

theorem pushNull_of (h : c.Of t) : Of t c.pushNull := by
  obtain ⟨data, null, nulls⟩ := c
  cases data <;> cases t <;> exact h

theorem pushed_of (h : c.Of t) (htaken : taken c.data v = some next) : Of t (c.pushed next) := by
  obtain ⟨data, null, nulls⟩ := c
  unfold taken at htaken
  dsimp only at htaken
  split at htaken
  · obtain rfl := Option.some.inj htaken
    cases t <;> exact h
  · obtain rfl := Option.some.inj htaken
    cases t <;> exact h
  · obtain rfl := Option.some.inj htaken
    cases t <;> exact h
  · obtain rfl := Option.some.inj htaken
    cases t <;> exact h
  · split at htaken
    · obtain rfl := Option.some.inj htaken
      cases t <;> exact h
    · exact nomatch htaken
  · split at htaken
    · obtain rfl := Option.some.inj htaken
      cases t <;> exact h
    · exact nomatch htaken
  · obtain rfl := Option.some.inj htaken
    exact of_values _ _ _ _
  · exact nomatch htaken

theorem push_of {next : Column} (h : c.Of t) (hpush : c.push v = some next) : Of t next := by
  unfold Column.push at hpush
  split at hpush
  · obtain rfl := Option.some.inj hpush
    exact pushNull_of h
  · split at hpush
    · obtain rfl := Option.some.inj hpush
      exact h
    · split at hpush
      · next htaken =>
          obtain rfl := Option.some.inj hpush
          exact pushed_of h htaken
      · obtain ⟨values, -, hnext⟩ := Option.bind_eq_some_iff.mp hpush
        obtain rfl := Option.some.inj hnext
        exact of_values _ _ _ _

/-- A packed row's bytes, taken as the value they read as. -/
theorem pushPacked_taken {bytes : List UInt8} (h : c.Of t) (hvalues : c.ofValues = false)
    (hread : Packed.readAs t bytes = some v) :
    ∃ next, taken c.data v = some next ∧ c.pushPacked bytes = .ok (c.pushed next) := by
  obtain ⟨data, null, nulls⟩ := c
  cases data with
  | values vs => cases hvalues
  | absent => cases t <;> exact h.elim
  | integer vs =>
    cases t <;> first | exact h.elim | skip
    obtain ⟨z, hz, rfl⟩ := Option.map_eq_some_iff.mp hread
    exact ⟨_, rfl, by simp only [pushPacked, hz]⟩
  | datetime vs =>
    cases t <;> first | exact h.elim | skip
    obtain ⟨d, hd, rfl⟩ := Option.map_eq_some_iff.mp hread
    exact ⟨_, rfl, by simp only [pushPacked, hd]⟩
  | double vs =>
    cases t <;> first | exact h.elim | skip
    rw [Packed.readAs] at hread
    split at hread
    · next hlen =>
        obtain rfl := Option.some.inj hread
        exact ⟨_, rfl, by simp only [pushPacked, hlen, if_true]⟩
    · cases hread
  | boolean vs =>
    cases t <;> first | exact h.elim | skip
    obtain rfl := Option.some.inj hread
    exact ⟨_, rfl, rfl⟩
  | str ends filling text capacity =>
    cases t <;> first | exact h.elim | skip
    next n =>
      obtain ⟨s, hs, rfl⟩ := Option.map_eq_some_iff.mp hread
      obtain rfl : capacity = n := h
      exact ⟨_, if_pos rfl, by rw [asBytes_of_fromUtf8 hs]; rfl⟩
  | blob ends held capacity =>
    cases t <;> first | exact h.elim | skip
    next n =>
      obtain rfl : capacity = n := h
      obtain rfl := Option.some.inj hread
      exact ⟨_, if_pos rfl, rfl⟩

/-- What was taken is text, each value ending on a character's boundary. -/
theorem Shows.finish (h : c.Shows false vs) (ht : c.Of t) :
    ∃ next, c.finish = .ok next ∧ next.Shows true vs ∧ Of t next := by
  obtain ⟨cells, hcells, hlen, rfl⟩ := h
  unfold Column.finish
  split
  · next ends filling text capacity hdata =>
      rw [hdata] at hcells
      obtain ⟨segments, rfl, rfl, hfilling, hfit⟩ := hcells
      have hflat : filling = (segments.map asBytes).flatten := hfilling
      obtain ⟨joined, hjoined⟩ := exists_asBytes_flatten segments
      have hall : ((stops (segments.map asBytes)).all
          fun stop => isCharBoundary joined stop.toNat) = true := by
        rw [List.all_eq_true]
        intro stop hstop
        obtain ⟨i, hi⟩ := List.mem_iff_getElem?.mp hstop
        have hlt := (List.getElem?_eq_some_iff.mp hi).1
        rw [stops, List.length_map, length_ends] at hlt
        have hval := getElem?_stops hlt hfit
        rw [hi, Option.map_some] at hval
        rw [Option.some.inj hval]
        exact isCharBoundary_reach hjoined _
      rw [hflat, ← hjoined, fromUtf8_asBytes]
      dsimp only
      rw [if_pos hall]
      refine ⟨_, rfl, ⟨_, ⟨segments, rfl, rfl, hjoined, hfit⟩, hlen, rfl⟩, ?_⟩
      unfold Of at ht ⊢
      rw [hdata] at ht
      cases t <;> exact ht
  · next hother => exact ⟨c, rfl, ⟨cells, cells_checked hcells hother, hlen, rfl⟩, ht⟩

end Column

end SquealDb.Table
