import SquealDb.Table.Rows

/-!
# Reading back what was stored

A row's stored values in each of the three forms, told apart by their first bytes, and what
`decode_row` makes of them: under the version they were written under the values themselves,
those not wanted `NULL`; under a later one the values carried over.
-/

namespace SquealDb.Table

open Codec Codec.KeyCode Lib Sql

/-- The values from position `pos` on, those to skip `NULL`. -/
def masked (skip : Nat → Bool) : Nat → List ValueItem → List ValueItem
  | _, [] => []
  | pos, v :: vs => (if skip pos then .null else v) :: masked skip (pos + 1) vs

@[simp] theorem length_masked (skip : Nat → Bool) (pos : Nat) (vs : List ValueItem) :
    (masked skip pos vs).length = vs.length := by
  induction vs generalizing pos with
  | nil => rfl
  | cons v vs ih => rw [masked, List.length_cons, List.length_cons, ih]

theorem masked_false (pos : Nat) (vs : List ValueItem) : masked (fun _ => false) pos vs = vs := by
  induction vs generalizing pos with
  | nil => rfl
  | cons v vs ih => rw [masked, ih, if_neg Bool.false_ne_true]

theorem getElem?_masked (skip : Nat → Bool) (pos i : Nat) (vs : List ValueItem) :
    (masked skip pos vs)[i]? = vs[i]?.map fun v => if skip (pos + i) then .null else v := by
  induction vs generalizing pos i with
  | nil => rfl
  | cons v vs ih =>
    cases i with
    | zero => rfl
    | succ i =>
      rw [masked, List.getElem?_cons_succ, List.getElem?_cons_succ, ih,
        Nat.add_right_comm, Nat.add_assoc]

variable {vs : List ValueItem} {p : Packed} {pos n : Nat}

/-- A row's values pass their check. -/
theorem newRow_ok (h : ∀ v ∈ vs, v.validate = .ok ()) :
    newRow vs = .ok vs := by
  rw [newRow, IndexKey.newFromOwned_iff.mpr h]
  rfl

theorem newRow_masked (skip : Nat → Bool) (pos : Nat) (h : ∀ v ∈ vs, v.validate = .ok ()) :
    newRow (masked skip pos vs) = .ok (masked skip pos vs) := by
  apply newRow_ok
  intro v hv
  obtain ⟨i, hi⟩ := List.mem_iff_getElem?.mp hv
  rw [getElem?_masked, Option.map_eq_some_iff] at hi
  obtain ⟨w, hw, rfl⟩ := hi
  split
  · rfl
  · exact h w (List.mem_of_getElem? hw)

/-! ## Packed rows -/

/-- What is kept of where the column before `pos` ends is where it ends. -/
def EndKept (p : Packed) (pos : Nat) (lastEnd : Option Nat) : Prop :=
  ∀ stop, lastEnd = some stop → ∃ before, pos = before + 1 ∧ stop = p.endOf before

theorem startAt_kept {lastEnd : Option Nat} (h : EndKept p pos lastEnd) :
    p.startAt pos lastEnd = p.startOf pos := by
  cases pos with
  | zero => rfl
  | succ pos =>
    cases lastEnd with
    | none => rfl
    | some stop =>
      obtain ⟨before, hpos, rfl⟩ := h stop rfl
      obtain rfl := Nat.succ.inj hpos
      rfl

/-- The columns of a packed row one by one, those to skip left `NULL`. -/
theorem packedValues_eq (skip : Nat → Bool) {lastEnd : Option Nat} {fields : List Field}
    (hend : EndKept p pos lastEnd) (hlen : fields.length = vs.length)
    (h : ∀ i f v, fields[i]? = some f → vs[i]? = some v →
      p.value (pos + i) (p.startOf (pos + i)) (p.endOf (pos + i)) f.datatype = some v) :
    packedValues p skip pos lastEnd fields = .ok (masked skip pos vs) := by
  induction fields generalizing pos lastEnd vs with
  | nil =>
    obtain rfl := List.length_eq_zero_iff.mp hlen.symm
    rfl
  | cons f fields ih =>
    cases vs with
    | nil => exact nomatch hlen
    | cons v vs =>
      have hrest : ∀ i g w, fields[i]? = some g → vs[i]? = some w →
          p.value (pos + 1 + i) (p.startOf (pos + 1 + i)) (p.endOf (pos + 1 + i)) g.datatype =
            some w := by
        intro i g w hg hw
        have hnext := h (i + 1) g w hg hw
        rwa [show pos + (i + 1) = pos + 1 + i by omega] at hnext
      have hlen' : fields.length = vs.length := Nat.succ.inj hlen
      rw [packedValues, masked]
      by_cases hskip : skip pos = true
      · rw [if_pos hskip, if_pos hskip, ih (fun _ hstop => absurd hstop (by simp)) hlen' hrest]
        rfl
      · have hhead := h 0 f v rfl rfl
        rw [Nat.add_zero] at hhead
        rw [if_neg hskip, if_neg hskip, startAt_kept hend]
        dsimp only
        rw [hhead]
        dsimp only
        rw [ih (fun stop hstop => ⟨pos, rfl, (Option.some.inj hstop).symm⟩) hlen' hrest]
        rfl

/-- All the columns of a packed row, those to skip left `NULL`. -/
theorem packedValues_all (skip : Nat → Bool) {fields : List Field}
    (hlen : fields.length = vs.length) (h : ∀ i f v, fields[i]? = some f → vs[i]? = some v →
      p.value i (p.startOf i) (p.endOf i) f.datatype = some v) :
    packedValues p skip 0 none fields = .ok (masked skip 0 vs) := by
  apply packedValues_eq skip (fun _ hstop => absurd hstop (by simp)) hlen
  intro i f v hf hv
  rw [Nat.zero_add]
  exact h i f v hf hv

/-! ## Fixed-width rows -/

theorem fixedValues_eq {l : RowLayout} {row : List UInt8} (skip : Nat → Bool)
    (h : ∀ i v, vs[i]? = some v → ∃ n, ValueItem.decode (l.column row (pos + i)) = .ok (v, n)) :
    fixedValues l row skip pos vs.length = .ok (masked skip pos vs) := by
  induction vs generalizing pos with
  | nil => rfl
  | cons v vs ih =>
    have hrest : ∀ i w, vs[i]? = some w →
        ∃ n, ValueItem.decode (l.column row (pos + 1 + i)) = .ok (w, n) := by
      intro i w hw
      have hnext := h (i + 1) w hw
      rwa [show pos + (i + 1) = pos + 1 + i by omega] at hnext
    rw [List.length_cons, fixedValues, masked, ih hrest]
    by_cases hskip : skip pos = true
    · rw [if_pos hskip, if_pos hskip]
      rfl
    · obtain ⟨n, hhead⟩ := h 0 v rfl
      rw [Nat.add_zero] at hhead
      rw [if_neg hskip, if_neg hskip, hhead]
      rfl

/-! ## Tagged rows -/

theorem taggedValues_eq (skip : Nat → Bool) {refs : ValueRefs} (h : refs.Before vs)
    (hshort : ∀ v ∈ vs, v.Short) :
    taggedValues skip pos vs.length refs = .ok (masked skip pos vs) := by
  induction vs generalizing pos refs with
  | nil => rfl
  | cons v vs ih =>
    have hv := hshort v List.mem_cons_self
    have hvs : ∀ w ∈ vs, w.Short := fun w hw => hshort w (List.mem_cons_of_mem v hw)
    rw [List.length_cons, taggedValues, masked]
    by_cases hskip : skip pos = true
    · obtain ⟨refs', hstep, hbefore⟩ := ValueRefs.skipValue_before h hv
      simp only [if_pos hskip, hstep, Option.map_some, Except.map, ih hbefore hvs]
    · obtain ⟨refs', hstep, hbefore⟩ := ValueRefs.next_before h hv
      simp only [if_neg hskip, hstep, ih hbefore hvs]
      rfl

/-! ## The forms are told apart -/

theorem ne_complement (b : UInt8) : b ≠ ~~~b := by
  intro h
  have hzero : b = 0 := by
    have hand : b &&& b = b &&& ~~~b := congrArg (b &&& ·) h
    rwa [UInt8.and_self, UInt8.and_not_self] at hand
  rw [hzero] at h
  exact absurd h (by decide)

/-- What starts with its column count is not packed. -/
theorem parse_counted {count : Nat} (h : count % 256 = n % 256) (rest : List UInt8) :
    Packed.parse (leBytes 8 count ++ rest) n = none := by
  have hbyte : UInt8.ofNat (count % 256) = UInt8.ofNat n := by
    rw [h]
    exact UInt8.toNat_inj.mp (by simp)
  have hmarker : UInt8.ofNat (count % 256) ≠ packedMarker n := by
    rw [hbyte, packedMarker]
    exact ne_complement _
  unfold Packed.parse
  by_cases hzero : n = 0
  · rw [if_pos hzero]
  · rw [if_neg hzero]
    exact if_pos hmarker

theorem fixedCount_append (count : Nat) (rest : List UInt8) :
    RowLayout.fixedCount (leBytes 8 count ++ rest) =
      if UInt64.ofNat (count % 256 ^ 8) &&& fixedRow ≠ 0 then
        some (UInt64.ofNat (count % 256 ^ 8) &&& ~~~fixedRow) else none := by
  have hword : word 8 (leBytes 8 count ++ rest) 0 = some (count % 256 ^ 8) :=
    word_append [] rest 8 count
  rw [RowLayout.fixedCount, hword]
  rfl

theorem toNat_fixedRow : fixedRow.toNat = 2 ^ 63 := by decide

/-- A count below `2 ^ 63` has its highest bit clear. -/
theorem and_fixedRow (h : n < 2 ^ 63) : UInt64.ofNat n &&& fixedRow = 0 := by
  apply UInt64.toNat_inj.mp
  rw [UInt64.toNat_and, UInt64.toNat_ofNat', toNat_fixedRow, Nat.mod_eq_of_lt (by omega)]
  apply Nat.eq_of_testBit_eq
  intro i
  rw [Nat.testBit_and, Nat.testBit_two_pow]
  by_cases hi : 63 = i
  · rw [← hi, Nat.testBit_lt_two_pow h]
    simp
  · simp [hi]

theorem or_and_fixedRow (count : UInt64) : (count ||| fixedRow) &&& fixedRow ≠ 0 := by
  intro hzero
  have hbits : fixedRow = (count ||| fixedRow) &&& fixedRow := by
    apply UInt64.toBitVec_inj.mp
    apply BitVec.eq_of_getElem_eq
    intro i hi
    rw [UInt64.toBitVec_and, UInt64.toBitVec_or, BitVec.getElem_and, BitVec.getElem_or]
    cases fixedRow.toBitVec[i] <;> simp
  rw [hzero] at hbits
  exact absurd hbits (by decide)

theorem or_and_not_fixedRow {count : UInt64} (h : count &&& fixedRow = 0) :
    (count ||| fixedRow) &&& ~~~fixedRow = count := by
  apply UInt64.toBitVec_inj.mp
  apply BitVec.eq_of_getElem_eq
  intro i hi
  have hclear : (count &&& fixedRow).toBitVec[i] = false := by
    rw [h]
    simp
  rw [UInt64.toBitVec_and, BitVec.getElem_and] at hclear
  rw [UInt64.toBitVec_and, UInt64.toBitVec_or, UInt64.toBitVec_not, BitVec.getElem_and,
    BitVec.getElem_or, BitVec.getElem_not]
  revert hclear
  cases count.toBitVec[i] <;> cases fixedRow.toBitVec[i] <;> simp

/-- A row with each value tagged has no highest bit set in its count. -/
theorem fixedCount_tagged (h : n < 2 ^ 63) (rest : List UInt8) :
    RowLayout.fixedCount (leBytes 8 n ++ rest) = none := by
  rw [fixedCount_append, Nat.mod_eq_of_lt (by omega), and_fixedRow h, if_neg (not_not.mpr rfl)]

/-- A fixed-width row's count, its highest bit taken off. -/
theorem fixedCount_fixed (h : n < 2 ^ 63) (rest : List UInt8) :
    RowLayout.fixedCount (leBytes 8 (UInt64.ofNat n ||| fixedRow).toNat ++ rest) =
      some (UInt64.ofNat n) := by
  have hlt := (UInt64.ofNat n ||| fixedRow).toNat_lt
  rw [fixedCount_append, Nat.mod_eq_of_lt (by omega), UInt64.ofNat_toNat,
    if_pos (or_and_fixedRow _), or_and_not_fixedRow (and_fixedRow h)]

/-- Setting the highest bit leaves the lowest byte. -/
theorem or_fixedRow_mod (h : n < 2 ^ 63) :
    (UInt64.ofNat n ||| fixedRow).toNat % 256 = n % 256 := by
  have hmod := Nat.or_mod_two_pow (a := n) (b := 2 ^ 63) (n := 8)
  rw [UInt64.toNat_or, UInt64.toNat_ofNat', toNat_fixedRow, Nat.mod_eq_of_lt (a := n) (by omega)]
  show (n ||| 2 ^ 63) % 2 ^ 8 = n % 2 ^ 8
  rw [hmod]
  simp

/-! ## What a fixed-width row holds -/

namespace RowLayout

theorem offsetsFrom_eq {start : Nat} {types : List DataType} {offsets : List Nat}
    (h : offsetsFrom start types = some offsets) :
    offsets.length = types.length + 1 ∧ offsets.getD 0 0 = start ∧
      ∀ i t, types[i]? = some t → ∃ width, columnWidth t = some width ∧
        offsets.getD (i + 1) 0 = offsets.getD i 0 + width := by
  induction types generalizing start offsets with
  | nil =>
    obtain rfl := Option.some.inj h
    exact ⟨rfl, rfl, fun i t ht => nomatch ht⟩
  | cons t types ih =>
    rw [offsetsFrom] at h
    cases hwidth : columnWidth t with
    | none => simp [hwidth] at h
    | some width =>
      cases hrest : offsetsFrom (start + width) types with
      | none => simp [hwidth, hrest] at h
      | some rest =>
        simp only [hwidth, hrest, Option.bind_eq_bind, Option.bind_some, Option.pure_def,
          Option.some.injEq] at h
        subst h
        obtain ⟨hlen, hstart, hnext⟩ := ih hrest
        refine ⟨by rw [List.length_cons, hlen, List.length_cons], rfl, ?_⟩
        intro i u hu
        cases i with
        | zero =>
          obtain rfl := Option.some.inj hu
          exact ⟨width, hwidth, hstart⟩
        | succ i => exact hnext i u hu

/-- A column's bytes in a fixed-width row: the value's, padded to the column's width. -/
def Holds (c : ValueItem × DataType) (segment : List UInt8) : Prop :=
  columnWidth c.2 = some segment.length ∧
    ∃ n, segment = (capped c.1 c.2).write ++ List.replicate n 0

theorem fill_holds {l : RowLayout} {pos : Nat} {columns : List (ValueItem × DataType)}
    {out final : List UInt8} (h : l.fill pos columns out = some final)
    (hstart : l.offset pos = out.length)
    (hwidths : ∀ i c, columns[i]? = some c → ∃ width, columnWidth c.2 = some width ∧
      l.offset (pos + i + 1) = l.offset (pos + i) + width) :
    ∃ segments, List.Forall₂ Holds columns segments ∧ final = out ++ segments.flatten := by
  induction columns generalizing pos out with
  | nil => exact ⟨[], .nil, by rw [← Option.some.inj h]; simp⟩
  | cons c columns ih =>
    obtain ⟨v, t⟩ := c
    rw [fill] at h
    split at h
    · exact nomatch h
    · next hfits =>
        obtain ⟨width, hwidth, hstop⟩ : ∃ width, columnWidth t = some width ∧
            l.offset (pos + 1) = l.offset pos + width := hwidths 0 (v, t) rfl
        let padding := List.replicate (l.offset (pos + 1) - (out ++ (capped v t).write).length)
          (0 : UInt8)
        have hlen : ((capped v t).write ++ padding).length = width := by
          simp only [padding, List.length_append, List.length_replicate] at hfits ⊢
          omega
        have hfill : l.fill (pos + 1) columns (out ++ ((capped v t).write ++ padding)) =
            some final := by
          rw [← List.append_assoc]
          exact h
        have hnext : l.offset (pos + 1) = (out ++ ((capped v t).write ++ padding)).length := by
          rw [List.length_append, hlen, hstop, hstart]
        obtain ⟨segments, hall, hfinal⟩ := ih hfill hnext (by
          intro i c hc
          have hlater := hwidths (i + 1) c hc
          rwa [show pos + (i + 1) = pos + 1 + i by omega] at hlater)
        refine ⟨((capped v t).write ++ padding) :: segments, .cons ⟨?_, _, rfl⟩ hall, ?_⟩
        · rw [hlen]
          exact hwidth
        · rw [hfinal, List.flatten_cons, List.append_assoc out]

theorem columnWidth_le {t : DataType} {width : Nat} (h : columnWidth t = some width) :
    width < 9 + 2 ^ 32 := by
  cases t with
  | str n =>
    have hlt := n.toNat_lt
    obtain rfl := Option.some.inj h
    omega
  | blob n =>
    have hlt := n.toNat_lt
    obtain rfl := Option.some.inj h
    omega
  | null => exact nomatch h
  | unsupported => exact nomatch h
  | integer => obtain rfl := Option.some.inj h; decide
  | double => obtain rfl := Option.some.inj h; decide
  | datetime => obtain rfl := Option.some.inj h; decide
  | boolean => obtain rfl := Option.some.inj h; decide

/-- A value's bytes are at least as many as its content's and nine. -/
theorem short_of_length {v : ValueItem} (h : v.write.length < 9 + 2 ^ 32) : v.Short := by
  cases v with
  | str s cap =>
    rw [ValueItem.write, List.length_cons, length_writeSized] at h
    show (asBytes s).length < 2 ^ 32
    omega
  | blob b cap =>
    rw [ValueItem.write, List.length_cons, length_writeSized] at h
    show b.length < 2 ^ 32
    omega
  | null => exact trivial
  | integer i => exact trivial
  | double bits => exact trivial
  | datetime t => exact trivial
  | boolean b => exact trivial

/-- A column's bytes are read as the value written there. -/
theorem Holds.decode {c : ValueItem × DataType} {segment : List UInt8} (h : Holds c segment) :
    ∃ n, ValueItem.decode segment = .ok (capped c.1 c.2, n) := by
  obtain ⟨hwidth, n, rfl⟩ := h
  have hlt := columnWidth_le hwidth
  rw [List.length_append] at hlt
  exact ⟨_, ValueItem.decode_write (short_of_length (by omega)) _⟩

/-- A fixed-width row is its count and its columns' bytes, each where the layout says. -/
theorem encode_holds {types : List DataType} {values : List ValueItem} {l : RowLayout}
    {out : List UInt8} (hl : RowLayout.of types = some l)
    (h : l.encode types values = some out) :
    values.length = types.length ∧ l.columns = types.length ∧ out.length = l.len ∧
      ∃ segments, List.Forall₂ Holds (values.zip types) segments ∧
        out = leBytes 8 (UInt64.ofNat values.length ||| fixedRow).toNat ++ segments.flatten ∧
        ∀ pos segment, segments[pos]? = some segment → l.column out pos = segment := by
  obtain ⟨offsets, hoffsets, rfl⟩ := Option.map_eq_some_iff.mp hl
  obtain ⟨hlen, hstart, hnext⟩ := offsetsFrom_eq hoffsets
  have hcolumns : columns ⟨offsets⟩ = types.length := by
    show offsets.length - 1 = types.length
    omega
  rw [encode] at h
  split at h
  · exact nomatch h
  · next hcount =>
      have hvalues : values.length = types.length := by
        rw [← hcolumns]
        exact not_not.mp hcount
      have hzip : (values.zip types).length = types.length := by
        rw [List.length_zip, hvalues, Nat.min_self]
      have htype : ∀ (i : Nat) (c : ValueItem × DataType), (values.zip types)[i]? = some c →
        types[i]? = some c.2 := by
        intro i c hc
        obtain ⟨hv, ht⟩ := List.getElem?_zip_eq_some.mp hc
        exact ht
      obtain ⟨segments, hall, hout⟩ := fill_holds h
        (by rw [length_leBytes]; exact hstart) (by
        intro i c hc
        rw [Nat.zero_add]
        exact hnext i c.2 (htype i c hc))
      have hsegments : segments.length = types.length := by rw [← hall.length_eq, hzip]
      have hreach : ∀ i ≤ types.length, offset ⟨offsets⟩ i = 8 + reach segments i := by
        intro i hi
        induction i with
        | zero => exact hstart
        | succ i ih =>
          have hlt : i < (values.zip types).length := by omega
          have hlt' : i < segments.length := by omega
          have hseg : segments[i]? = some segments[i] := List.getElem?_eq_getElem hlt'
          have hholds := (List.forall₂_iff_get.mp hall).2 i hlt hlt'
          obtain ⟨width, hwidth, hoff⟩ :=
            hnext i _ (htype i _ (List.getElem?_eq_getElem hlt))
          have heq : some width = some segments[i].length := by
            rw [← hwidth]
            exact hholds.1
          show offsets.getD (i + 1) 0 = _
          rw [hoff, reach_succ hseg, Option.some.inj heq]
          have hprev : offsets.getD i 0 = 8 + reach segments i := ih (by omega)
          omega
      refine ⟨hvalues, hcolumns, ?_, segments, hall, hout, ?_⟩
      · rw [hout, List.length_append, length_leBytes, len, hcolumns,
          hreach _ (Nat.le_refl _), ← hsegments, reach_length]
      · intro pos segment hseg
        obtain ⟨hpos, -⟩ := List.getElem?_eq_some_iff.mp hseg
        have hdrop : out.drop (8 + reach segments pos) =
          segments.flatten.drop (reach segments pos) := by
          rw [hout, ← List.drop_drop, List.drop_left' (length_leBytes 8 _)]
        rw [column, hreach pos (by omega), hreach (pos + 1) (by omega), hdrop, reach_succ hseg,
          show 8 + (reach segments pos + segment.length) - (8 + reach segments pos) =
            segment.length by omega, drop_take_reach hseg]

end RowLayout

/-! ## Stored rows read back -/

/-- The bytes of a row stored under the layout `fields`, in one of the three forms, and the
values they read back as. -/
inductive Form (fields : SchemaVersion) (vs : List ValueItem) (bytes : List UInt8) : Prop
  | packed (p : Packed) (parse_eq : Packed.parse bytes fields.length = some p)
      (value_eq : ∀ i f v, fields[i]? = some f → vs[i]? = some v →
        p.value i (p.startOf i) (p.endOf i) f.datatype = some v)
  | fixed (l : RowLayout) (n : UInt64) (parse_eq : Packed.parse bytes fields.length = none)
      (count_eq : RowLayout.fixedCount bytes = some n) (layout_eq : SqlTable.layout fields = some l)
      (columns_eq : l.columns = n.toNat) (columns_len : l.columns = fields.length)
      (len_eq : l.len = bytes.length)
      (decode_eq : ∀ i v, vs[i]? = some v → ∃ n, ValueItem.decode (l.column bytes i) = .ok (v, n))
  | tagged (parse_eq : Packed.parse bytes fields.length = none)
      (count_eq : RowLayout.fixedCount bytes = none) (bytes_eq : bytes = IndexKey.toBytes vs)
      (short : ∀ v ∈ vs, v.Short)

/-- A row in any of the forms: under the version it was written under the values, those not
wanted `NULL`; under a later one the values carried over. -/
theorem decodeStoredRow_form {t : SqlTable} {version : UInt32} {fields : SchemaVersion}
    {bytes : List UInt8} (h : Form fields vs bytes) (hfields : t.fieldsAt version = some fields)
    (hcurrent : version = t.version → t.fields = fields) (hlen : vs.length = fields.length)
    (hcount : vs.length < 2 ^ 64) (hvalid : ∀ v ∈ vs, v.validate = .ok ())
    (wanted : Option (List Bool)) :
    t.decodeStoredRow ⟨version, bytes⟩ wanted =
      if version = t.version then .ok (masked (unwanted wanted) 0 vs)
      else t.reproject version vs := by
  have hskip : ∀ current : Bool, (current = true ↔ version = t.version) →
      (do
        let values ← newRow (masked (fun pos => current && unwanted wanted pos) 0 vs)
        if current then return values else t.reproject version values :
          Except TableError IndexKey) =
        if version = t.version then .ok (masked (unwanted wanted) 0 vs)
        else t.reproject version vs := by
    intro current hcur
    cases current with
    | true =>
      rw [if_pos (hcur.mp rfl)]
      simp only [Bool.true_and, newRow_masked _ 0 hvalid]
      rfl
    | false =>
      rw [if_neg fun heq => Bool.false_ne_true (hcur.mpr heq)]
      simp only [Bool.false_and, masked_false, newRow_ok hvalid]
      rfl
  have hbeq : (version == t.version) = true ↔ version = t.version := beq_iff_eq
  cases h with
  | packed p parse_eq value_eq =>
    have hvalues := packedValues_all
      (fun pos => (version == t.version) && unwanted wanted pos) hlen.symm value_eq
    simp only [SqlTable.decodeStoredRow, hfields, Option.bind_some, parse_eq,
      SqlTable.decodePackedRow]
    show (packedValues p (fun pos => (version == t.version) && unwanted wanted pos) 0 none
      fields >>= _) = _
    rw [hvalues]
    exact hskip _ hbeq
  | fixed l n parse_eq count_eq layout_eq columns_eq columns_len len_eq decode_eq =>
    have hvalues : fixedValues l bytes
        (fun pos => (version == t.version) && unwanted wanted pos) 0 vs.length = .ok _ :=
      fixedValues_eq _ (by
        intro i v hv
        rw [Nat.zero_add]
        exact decode_eq i v hv)
    have hfilter : ((t.fieldsAt version).bind SqlTable.layout).filter
        (fun l => l.columns == n.toNat && l.len == bytes.length) = some l := by
      rw [hfields, Option.bind_some, layout_eq, Option.filter_some, if_pos]
      rw [columns_eq, len_eq, beq_self_eq_true, beq_self_eq_true]
      rfl
    simp only [SqlTable.decodeStoredRow, hfields, Option.bind_some, parse_eq, count_eq,
      SqlTable.decodeFixedRow]
    rw [hfields] at hfilter
    simp only [Option.bind_some] at hfilter
    rw [hfilter]
    show (fixedValues l bytes (fun pos => (version == t.version) && unwanted wanted pos) 0
      l.columns >>= _) = _
    rw [columns_len, ← hlen, hvalues]
    exact hskip _ hbeq
  | tagged parse_eq count_eq bytes_eq short =>
    subst bytes_eq
    simp only [SqlTable.decodeStoredRow, hfields, Option.bind_some, parse_eq, count_eq,
      SqlTable.decodeTaggedRow]
    by_cases hver : version = t.version
    · obtain ⟨refs, hrefs, hbefore⟩ := IndexKey.refs_toBytes hcount
      have hfs := hcurrent hver
      have hvalues : taggedValues (unwanted wanted) 0 vs.length refs = .ok _ :=
        taggedValues_eq (unwanted wanted) hbefore short
      rw [if_neg (not_not.mpr hver), if_pos hver, hrefs]
      show (if refs.left ≠ t.fields.length then _ else _) = _
      rw [hbefore.left_eq, hfs, hlen, if_neg (not_not.mpr rfl), ← hlen]
      show (taggedValues (unwanted wanted) 0 vs.length refs >>= _) = _
      rw [hvalues]
      exact newRow_masked _ 0 hvalid
    · rw [if_pos hver, if_neg hver, IndexKey.fromBytes_toBytes hcount short
        (IndexKey.newFromOwned_iff.mpr hvalid)]
      rfl

end SquealDb.Table
