import Mathlib.Data.List.Forall2
import SquealDb.Codec.TupleDecode
import SquealDb.Codec.ValueBytes
import SquealDb.Lib.Segments
import SquealDb.Sql.DataType

/-!
# Packed rows

`Packed` of `table.rs`: each value in as few bytes as it needs, and where each column
ends.

The list of ends leaves out the last column's, which is where the data ends; each end is
written in one, two or four bytes.  Four bytes say where a column ends only below `2 ^ 32`.
-/

namespace SquealDb.Table

open Codec Codec.KeyCode Lib Sql

/-! ## Numbers in as few bytes as they need -/

/-- `push_trimmed`: what it appends. -/
def pushTrimmed (v : UInt64) : List UInt8 := (leBytes 8 v.toNat).take (significant v)

def trimmed (bytes : List UInt8) : Option UInt64 :=
  if bytes.length ≤ 8 then some (UInt64.ofNat (ofLe bytes)) else none

/-- An integer's bits with its sign lowest, as `encode` writes it. -/
def zigzag (i : Int64) : UInt64 := ((i <<< 1) ^^^ (i >>> 63)).toUInt64

/-- The integer those bits are of. -/
def unzigzag (z : UInt64) : Int64 := (z >>> 1).toInt64 ^^^ -(z &&& 1).toInt64

theorem take_leBytes {k n : Nat} (h : k ≤ n) (v : Nat) : (leBytes n v).take k = leBytes k v := by
  induction n generalizing k v with
  | zero =>
    rw [Nat.le_zero.mp h]
    rfl
  | succ n ih =>
    cases k with
    | zero => rfl
    | succ k => rw [leBytes, List.take_succ_cons, ih (Nat.le_of_succ_le_succ h), leBytes]

theorem pushTrimmed_eq (v : UInt64) : pushTrimmed v = leBytes (significant v) v.toNat :=
  take_leBytes (significant_le v) v.toNat

theorem length_pushTrimmed (v : UInt64) : (pushTrimmed v).length ≤ 8 := by
  rw [pushTrimmed_eq, length_leBytes]
  exact significant_le v

theorem trimmed_pushTrimmed (v : UInt64) : trimmed (pushTrimmed v) = some v := by
  rw [trimmed, if_pos (length_pushTrimmed v), pushTrimmed_eq, ofLe_leBytes,
    Nat.mod_eq_of_lt (lt_significant v), UInt64.ofNat_toNat]

private theorem sshiftRight_63 (x : BitVec 64) :
    x.sshiftRight 63 = if x.msb then BitVec.allOnes 64 else 0#64 := by
  ext j hj
  rw [BitVec.getElem_sshiftRight]
  split
  · next h =>
      have hj0 : j = 0 := by omega
      subst hj0
      cases hm : x.msb <;>
        simp [-BitVec.reduceAllOnes, BitVec.msb_eq_getLsbD_last] at hm ⊢ <;> exact hm
  · cases hm : x.msb <;> simp [-BitVec.reduceAllOnes]

/-- Bits with the sign moved lowest, moved back. -/
private theorem zigzag_bits (x : BitVec 64) :
    (((x <<< 1) ^^^ (x.sshiftRight 63)) >>> 1) ^^^
      -(((x <<< 1) ^^^ (x.sshiftRight 63)) &&& 1#64) = x := by
  rw [sshiftRight_63]
  cases hm : x.msb with
  | false =>
    have hlow : ((x <<< 1) ^^^ 0#64) &&& 1#64 = 0#64 := by
      ext j hj
      simp [-BitVec.reduceAllOnes]
      omega
    simp only [Bool.false_eq_true, if_false, hlow]
    ext j hj
    by_cases h63 : j = 63
    · subst h63
      simp [-BitVec.reduceAllOnes, BitVec.msb_eq_getLsbD_last] at hm ⊢
      exact hm
    · simp [-BitVec.reduceAllOnes, show j + 1 < 64 by omega, Nat.add_comm 1 j]
  | true =>
    have hlow : ((x <<< 1) ^^^ BitVec.allOnes 64) &&& 1#64 = 1#64 := by
      ext j hj
      simp [-BitVec.reduceAllOnes]
      omega
    have hneg : -1#64 = BitVec.allOnes 64 := by decide
    simp only [if_true, hlow, hneg]
    ext j hj
    by_cases h63 : j = 63
    · subst h63
      simp [-BitVec.reduceAllOnes, BitVec.msb_eq_getLsbD_last] at hm ⊢
      exact hm
    · simp [-BitVec.reduceAllOnes, show j + 1 < 64 by omega, Nat.add_comm 1 j]

theorem unzigzag_zigzag (i : Int64) : unzigzag (zigzag i) = i := by
  apply Int64.toBitVec_inj.mp
  have hbits := zigzag_bits i.toBitVec
  rw [unzigzag, zigzag, Int64.toBitVec_xor, Int64.toBitVec_neg]
  simp only [UInt64.toBitVec_toInt64, UInt64.toBitVec_shiftRight, UInt64.toBitVec_and,
    Int64.toBitVec_toUInt64, Int64.toBitVec_xor, Int64.toBitVec_shiftLeft,
    Int64.toBitVec_shiftRight]
  exact hbits

/-! ## The format -/

def packedWidthMask : UInt8 := 0b11

def packedNulls : UInt8 := 0b100

def packedMarker (columns : Nat) : UInt8 := ~~~(UInt8.ofNat columns)

/-- The bytes `encode` gives a value in a column of that type; none if it is not of it. -/
def packedBytes : ValueItem → DataType → Option (List UInt8)
  | .null, _ => some []
  | .integer i, .integer => some (pushTrimmed (zigzag i))
  | .datetime d, .datetime => some (pushTrimmed d)
  | .double bits, .double => some (leBytes 8 bits.toNat)
  | .boolean b, .boolean => some [if b then 1 else 0]
  | .str s _, .str n => if (asBytes s).length ≤ n.toNat then some (asBytes s) else none
  | .blob b _, .blob n => if b.length ≤ n.toNat then some b else none
  | _, _ => none

/-- What the loop of `encode` fills. -/
structure Packing where
  data : List UInt8
  ends : List Nat
  nulls : List UInt8
  anyNull : Bool
  deriving DecidableEq, Repr

namespace Packing

/-- One turn of the loop of `encode`. -/
def push (p : Packing) (pos : Nat) (value : ValueItem) (datatype : DataType) : Option Packing := do
  let bytes ← packedBytes value datatype
  let data := p.data ++ bytes
  return {
    data
    ends := p.ends ++ [data.length]
    nulls := if value = .null then setBit p.nulls pos else p.nulls
    anyNull := p.anyNull || decide (value = .null) }

/-- The loop of `encode`, from column `pos` on. -/
def fill : Nat → List (ValueItem × DataType) → Packing → Option Packing
  | _, [], p => some p
  | pos, (value, datatype) :: rest, p => do fill (pos + 1) rest (← p.push pos value datatype)

end Packing

/-- How wide the ends are, and the header's code for it. -/
def endWidth (length : Nat) : Nat × UInt8 :=
  if length ≤ 0xFF then (1, 0) else if length ≤ 0xFFFF then (2, 1) else (4, 2)

structure Packed where
  nulls : Option (List UInt8)
  ends : List UInt8
  width : Nat
  data : List UInt8
  columns : Nat
  deriving DecidableEq, Repr

namespace Packed

def encode (types : List DataType) (values : List ValueItem) : Option (List UInt8) := do
  let columns := types.length
  if values.length ≠ columns ∨ columns = 0 then none
  else do
    let p ← Packing.fill 0 (values.zip types) ⟨[], [], List.replicate ((columns + 7) / 8) 0, false⟩
    let (width, code) := endWidth p.data.length
    let header := code ||| (if p.anyNull then packedNulls else 0)
    return packedMarker columns :: header ::
      ((if p.anyNull then p.nulls else []) ++
        ((p.ends.dropLast.flatMap fun stop => (leBytes 4 stop).take width) ++ p.data))

def splitAtChecked (bytes : List UInt8) (n : Nat) : Option (List UInt8 × List UInt8) :=
  if n ≤ bytes.length then some (bytes.take n, bytes.drop n) else none

/-- How wide the ends are, by the header. -/
def widthOf (header : UInt8) : Option Nat :=
  match header &&& packedWidthMask with
  | 0 => some 1
  | 1 => some 2
  | 2 => some 4
  | _ => none

/-- The bitmap of `NULL`s, if the header says there is one, and what follows it. -/
def nullsOf (header : UInt8) (rest : List UInt8) (columns : Nat) :
    Option (Option (List UInt8) × List UInt8) :=
  if header &&& packedNulls ≠ 0 then
    (splitAtChecked rest ((columns + 7) / 8)).map fun (nulls, rest) => (some nulls, rest)
  else some (none, rest)

/-- What `parse` and `read_one` make of a row behind its marker. -/
def body (header : UInt8) (rest : List UInt8) (columns : Nat) : Option Packed := do
  let width ← widthOf header
  let (nulls, rest) ← nullsOf header rest columns
  let (ends, data) ← splitAtChecked rest ((columns - 1) * width)
  return ⟨nulls, ends, width, data, columns⟩

def parse (row : List UInt8) (columns : Nat) : Option Packed :=
  if columns = 0 then none
  else
    match row with
    | marker :: header :: rest =>
      if marker ≠ packedMarker columns then none else body header rest columns
    | _ => none

/-- `end`. -/
def endOf (p : Packed) (pos : Nat) : Nat :=
  if pos + 1 = p.columns then p.data.length else ofLe ((p.ends.drop (p.width * pos)).take p.width)

/-- Where column `pos` starts: where the one before it ends. -/
def startOf (p : Packed) (pos : Nat) : Nat := if pos = 0 then 0 else p.endOf (pos - 1)

def isNull (p : Packed) (pos : Nat) : Bool := p.nulls.any fun nulls => bit nulls pos

/-- A column's bytes, read as the value of that type. -/
def readAs (datatype : DataType) (bytes : List UInt8) : Option ValueItem :=
  match datatype with
  | .integer => (trimmed bytes).map fun z => .integer (unzigzag z)
  | .datetime => (trimmed bytes).map .datetime
  | .double => if bytes.length = 8 then some (.double (UInt64.ofNat (ofLe bytes))) else none
  | .boolean => some (.boolean (bytes.head?.any (· != 0)))
  | .str n => (fromUtf8 bytes).map fun s => .str s n
  | .blob n => some (.blob bytes n)
  | .null | .unsupported => some .null

def value (p : Packed) (pos start stop : Nat) (datatype : DataType) : Option ValueItem :=
  if p.isNull pos then some .null else (getRange p.data start stop).bind (readAs datatype)

/-- `read_one`: nothing if the row is not packed, no value if it is damaged. -/
def readOne (row : List UInt8) (columns pos : Nat) (datatype : DataType) :
    Option (Option ValueItem) :=
  match row with
  | marker :: header :: rest =>
    if marker = packedMarker columns then
      some ((body header rest columns).bind fun p =>
        p.value pos (p.startOf pos) (p.endOf pos) datatype)
    else none
  | _ => none

end Packed

/-! ## What was packed reads back -/

/-- The value with a string's or blob's capacity that of its column. -/
def recap : DataType → ValueItem → ValueItem
  | .str n, .str s _ => .str s n
  | .blob n, .blob b _ => .blob b n
  | _, v => v

/-- A column's value reads back from its bytes. -/
theorem readAs_packedBytes {v : ValueItem} {t : DataType} {bytes : List UInt8}
    (h : packedBytes v t = some bytes) (hv : v ≠ .null) :
    Packed.readAs t bytes = some (recap t v) := by
  cases v with
  | null => exact absurd rfl hv
  | integer i =>
    cases t <;> simp only [packedBytes, reduceCtorEq] at h
    rw [← Option.some.inj h, Packed.readAs, trimmed_pushTrimmed, Option.map_some,
      unzigzag_zigzag]
    rfl
  | double bits =>
    cases t <;> simp only [packedBytes, reduceCtorEq] at h
    have hlt := bits.toNat_lt
    rw [← Option.some.inj h, Packed.readAs, if_pos (length_leBytes 8 _), ofLe_leBytes,
      Nat.mod_eq_of_lt (by omega), UInt64.ofNat_toNat]
    rfl
  | datetime d =>
    cases t <;> simp only [packedBytes, reduceCtorEq] at h
    rw [← Option.some.inj h, Packed.readAs, trimmed_pushTrimmed]
    rfl
  | str s cap =>
    cases t <;> simp only [packedBytes, reduceCtorEq] at h
    split at h
    · rw [← Option.some.inj h, Packed.readAs, fromUtf8_asBytes]
      rfl
    · exact nomatch h
  | blob b cap =>
    cases t <;> simp only [packedBytes, reduceCtorEq] at h
    split at h
    · rw [← Option.some.inj h]
      rfl
    · exact nomatch h
  | boolean b =>
    cases t <;> simp only [packedBytes, reduceCtorEq] at h
    rw [← Option.some.inj h]
    cases b <;> rfl

/-- What filling with `columns` from column `pos` on makes of `p`: their bytes behind its
own, where each ends, and a bit for each `NULL`. -/
structure Packing.Filled (pos : Nat) (columns : List (ValueItem × DataType)) (p q : Packing)
    (parts : List (List UInt8)) : Prop where
  parts_eq : List.Forall₂ (fun c bytes => packedBytes c.1 c.2 = some bytes) columns parts
  data_eq : q.data = p.data ++ parts.flatten
  ends_eq : q.ends = p.ends ++ Lib.ends p.data.length parts
  nulls_length : q.nulls.length = p.nulls.length
  nulls_eq : pos + columns.length ≤ 8 * p.nulls.length → ∀ j, bit q.nulls j =
    (bit p.nulls j || decide (pos ≤ j ∧ (columns[j - pos]?.map (·.1)) = some .null))
  anyNull_eq : q.anyNull = (p.anyNull || columns.any fun c => decide (c.1 = .null))

theorem Packing.fill_filled {pos : Nat} {columns : List (ValueItem × DataType)} {p q : Packing}
    (h : Packing.fill pos columns p = some q) : ∃ parts, Packing.Filled pos columns p q parts := by
  induction columns generalizing pos p with
  | nil =>
    obtain rfl := Option.some.inj h
    exact ⟨[], .nil, (List.append_nil _).symm, (List.append_nil _).symm, rfl,
      fun _ j => by simp, by simp⟩
  | cons c columns ih =>
    obtain ⟨v, t⟩ := c
    cases hbytes : packedBytes v t with
    | none => simp [Packing.fill, Packing.push, hbytes] at h
    | some bytes =>
      simp only [Packing.fill, Packing.push, hbytes, Option.bind_eq_bind, Option.bind_some,
        Option.pure_def] at h
      obtain ⟨parts, hf⟩ := ih h
      refine ⟨bytes :: parts, .cons hbytes hf.parts_eq, ?_, ?_, ?_, ?_, ?_⟩
      · rw [hf.data_eq, List.append_assoc, List.flatten_cons]
      · rw [hf.ends_eq, List.append_assoc, List.length_append]
        rfl
      · rw [hf.nulls_length]
        dsimp only
        split
        · exact length_setBit _ _
        · rfl
      · intro hfits j
        rw [List.length_cons] at hfits
        have hset : bit (if v = .null then setBit p.nulls pos else p.nulls) j =
            (decide (pos = j ∧ v = .null) || bit p.nulls j) := by
          by_cases hv : v = .null
          · rw [if_pos hv, bit_setBit (by omega)]
            simp [hv]
          · rw [if_neg hv]
            simp [hv]
        have hlength : (if v = .null then setBit p.nulls pos else p.nulls).length =
            p.nulls.length := by
          split
          · exact length_setBit _ _
          · rfl
        rw [hf.nulls_eq (by dsimp only; rw [hlength]; omega) j]
        dsimp only
        rw [hset]
        rcases Nat.lt_trichotomy j pos with hlt | rfl | hgt
        · simp [show ¬ pos = j by omega, show ¬ pos ≤ j by omega, show ¬ pos + 1 ≤ j by omega]
        · simp [Bool.or_comm]
        · have hsub : j - pos = (j - (pos + 1)) + 1 := by omega
          rw [hsub, List.getElem?_cons_succ]
          simp [show ¬ pos = j by omega, show pos ≤ j by omega, show pos + 1 ≤ j by omega]
      · rw [hf.anyNull_eq, List.any_cons, Bool.or_assoc]

namespace Packed

theorem splitAtChecked_append {xs : List UInt8} {n : Nat} (h : xs.length = n) (ys : List UInt8) :
    splitAtChecked (xs ++ ys) n = some (xs, ys) := by
  subst h
  rw [splitAtChecked, if_pos (by rw [List.length_append]; omega), List.take_left, List.drop_left]

/-- A row behind its marker is taken apart into what it was put together from. -/
theorem body_eq {columns length : Nat} {anyNull : Bool} {nulls ends data : List UInt8}
    (hnulls : nulls.length = (columns + 7) / 8)
    (hends : ends.length = (columns - 1) * (endWidth length).1) :
    body ((endWidth length).2 ||| (if anyNull then packedNulls else 0))
        ((if anyNull then nulls else []) ++ (ends ++ data)) columns =
      some ⟨if anyNull then some nulls else none, ends, (endWidth length).1, data, columns⟩ := by
  have hwidth : widthOf ((endWidth length).2 ||| (if anyNull then packedNulls else 0)) =
      some (endWidth length).1 := by
    rw [endWidth]
    cases anyNull
    · split
      · rfl
      · split <;> rfl
    · split
      · rfl
      · split <;> rfl
  have hflag : ((endWidth length).2 ||| (if anyNull then packedNulls else 0)) &&& packedNulls ≠ 0 ↔
      anyNull = true := by
    rw [endWidth]
    cases anyNull
    · split
      · decide
      · split <;> decide
    · split
      · decide
      · split <;> decide
  have hrest : nullsOf ((endWidth length).2 ||| (if anyNull then packedNulls else 0))
      ((if anyNull then nulls else []) ++ (ends ++ data)) columns =
        some (if anyNull then some nulls else none, ends ++ data) := by
    rw [nullsOf]
    cases anyNull with
    | false => rw [if_neg (fun h => Bool.false_ne_true (hflag.mp h))]; rfl
    | true => rw [if_pos (hflag.mpr rfl), if_pos rfl, splitAtChecked_append hnulls]; rfl
  rw [body, hwidth]
  simp only [Option.bind_eq_bind, Option.bind_some, hrest, splitAtChecked_append hends,
    Option.pure_def]

/-- The ends are as wide as they need to be, up to four bytes. -/
theorem mod_endWidth {stop length : Nat} (h : stop ≤ length) :
    stop % 256 ^ (endWidth length).1 = stop % 2 ^ 32 := by
  rw [endWidth]
  split
  · show stop % 256 = stop % 4294967296
    omega
  · split
    · show stop % 65536 = stop % 4294967296
      omega
    · rfl

theorem endWidth_le (length : Nat) : (endWidth length).1 ≤ 4 := by
  rw [endWidth]
  split
  · decide
  · split <;> decide

/-- `p` is the packed form of `columns`, whose bytes are `parts`. -/
structure Written (p : Packed) (columns : List (ValueItem × DataType))
    (parts : List (List UInt8)) : Prop where
  parts_eq : List.Forall₂ (fun c bytes => packedBytes c.1 c.2 = some bytes) columns parts
  columns_eq : p.columns = columns.length
  data_eq : p.data = parts.flatten
  endOf_eq : ∀ pos, pos + 1 < columns.length → p.endOf pos = reach parts (pos + 1) % 2 ^ 32
  isNull_eq : ∀ pos c, columns[pos]? = some c → p.isNull pos = decide (c.1 = .null)

/-- The ends of all columns but the last one fit their four bytes. -/
def EndsFit (parts : List (List UInt8)) : Prop := reach parts (parts.length - 1) < 2 ^ 32

instance (parts : List (List UInt8)) : Decidable (EndsFit parts) :=
  inferInstanceAs (Decidable (_ < _))

/-- What stands at an end's place is the end, as far as its bytes go. -/
theorem ofLe_ends {width pos stop : Nat} {stops : List Nat} (h : stops[pos]? = some stop) :
    ofLe (((stops.flatMap (leBytes width)).drop (width * pos)).take width) =
      stop % 256 ^ width := by
  have hpart : (stops.map (leBytes width))[pos]? = some (leBytes width stop) := by
    rw [List.getElem?_map, h, Option.map_some]
  have hreach : ∀ (stops : List Nat) (i : Nat), i ≤ stops.length →
      reach (stops.map (leBytes width)) i = width * i := by
    intro stops i hi
    rw [reach, ← List.map_take, List.length_flatten, List.map_map]
    have hconst : (List.length ∘ leBytes width) = fun _ => width := by
      funext v
      exact length_leBytes width v
    rw [hconst, List.map_const', List.sum_replicate_nat, List.length_take, Nat.min_eq_left hi,
      Nat.mul_comm]
  obtain ⟨hpos, -⟩ := List.getElem?_eq_some_iff.mp h
  have htake := drop_take_reach hpart
  rw [hreach stops pos (Nat.le_of_lt hpos), length_leBytes] at htake
  rw [List.flatMap_def, htake, ofLe_leBytes]

/-- A packed row is its marker, its header and what they say of the rest. -/
theorem body_encode {types : List DataType} {values : List ValueItem} {out : List UInt8}
    (h : encode types values = some out) : ∃ header rest p parts,
      out = packedMarker types.length :: header :: rest ∧
      body header rest types.length = some p ∧ p.Written (values.zip types) parts := by
  rw [encode] at h
  split at h
  · exact nomatch h
  · next hcolumns =>
      have hcount : values.length = types.length := by omega
      have hpos : 0 < types.length := by omega
      have hzip : (values.zip types).length = types.length := by
        rw [List.length_zip, hcount, Nat.min_self]
      cases hfill : Packing.fill 0 (values.zip types)
          ⟨[], [], List.replicate ((types.length + 7) / 8) 0, false⟩ with
      | none => simp [hfill] at h
      | some q =>
        obtain ⟨parts, hf⟩ := Packing.fill_filled hfill
        simp only [hfill, Option.bind_eq_bind, Option.bind_some, Option.pure_def] at h
        have hparts : parts.length = types.length := by rw [← hf.parts_eq.length_eq, hzip]
        have hdata : q.data = parts.flatten := hf.data_eq
        have hends : q.ends = Lib.ends 0 parts := hf.ends_eq
        have hnulls : q.nulls.length = (types.length + 7) / 8 := by
          rw [hf.nulls_length, List.length_replicate]
        have hwidth := endWidth_le q.data.length
        have hstops : (q.ends.dropLast.flatMap fun stop =>
            (leBytes 4 stop).take (endWidth q.data.length).1) =
              q.ends.dropLast.flatMap (leBytes (endWidth q.data.length).1) := by
          simp only [take_leBytes hwidth]
        have hlength : (q.ends.dropLast.flatMap (leBytes (endWidth q.data.length).1)).length =
            (types.length - 1) * (endWidth q.data.length).1 := by
          rw [List.length_flatMap]
          simp only [length_leBytes, List.map_const', List.sum_replicate_nat,
            List.length_dropLast, hends, length_ends, hparts]
        rw [hstops] at h
        refine ⟨_, _, _, parts, (Option.some.inj h).symm, body_eq hnulls hlength, ?_⟩
        constructor
        · exact hf.parts_eq
        · exact hzip.symm
        · exact hdata
        · intro pos hlt
          rw [hzip] at hlt
          have hstop : q.ends.dropLast[pos]? = some (reach parts (pos + 1)) := by
            rw [List.getElem?_dropLast, hends, length_ends, hparts, if_pos (by omega),
              getElem?_ends (by omega), Nat.zero_add]
          have hle := reach_le parts (pos + 1)
          rw [← hdata] at hle
          rw [endOf, if_neg (by dsimp only; omega), ofLe_ends hstop, mod_endWidth hle]
        · intro pos c hc
          obtain ⟨hlt, -⟩ := List.getElem?_eq_some_iff.mp hc
          have hbit : bit q.nulls pos = decide (c.1 = .null) := by
            have hbits := hf.nulls_eq (by rw [List.length_replicate]; omega) pos
            rw [bit_replicate, Bool.false_or, Nat.sub_zero, hc] at hbits
            rw [hbits]
            simp
          rw [isNull]
          dsimp only
          rw [hf.anyNull_eq, Bool.false_or]
          split
          · exact hbit
          · next hnone =>
              have hmem := List.mem_of_getElem? hc
              have hall : ¬ c.1 = .null := fun hnull =>
                hnone (List.any_eq_true.mpr ⟨c, hmem, decide_eq_true hnull⟩)
              rw [decide_eq_false hall]
              rfl

namespace Written

variable {p : Packed} {columns : List (ValueItem × DataType)} {parts : List (List UInt8)}

theorem length_parts (h : p.Written columns parts) : parts.length = columns.length :=
  h.parts_eq.length_eq.symm

theorem getElem?_parts (h : p.Written columns parts) {pos : Nat} {c : ValueItem × DataType}
    (hc : columns[pos]? = some c) :
    ∃ bytes, parts[pos]? = some bytes ∧ packedBytes c.1 c.2 = some bytes := by
  obtain ⟨hlt, hget⟩ := List.getElem?_eq_some_iff.mp hc
  have hlt' : pos < parts.length := by rw [h.length_parts]; exact hlt
  refine ⟨parts[pos], List.getElem?_eq_getElem hlt', ?_⟩
  have hall := (List.forall₂_iff_get.mp h.parts_eq).2 pos hlt hlt'
  rw [List.get_eq_getElem, List.get_eq_getElem, hget] at hall
  exact hall

/-- While the ends fit, each is where its column ends. -/
theorem endOf_reach (h : p.Written columns parts) (hfit : EndsFit parts) {pos : Nat}
    (hpos : pos < columns.length) : p.endOf pos = reach parts (pos + 1) := by
  by_cases hlast : pos + 1 = columns.length
  · rw [endOf, if_pos (by rw [hlast, h.columns_eq]), h.data_eq, hlast, ← h.length_parts,
      reach_length]
  · have hlt : pos + 1 < columns.length := by omega
    have hle : reach parts (pos + 1) ≤ reach parts (parts.length - 1) :=
      reach_mono parts (by rw [h.length_parts]; omega)
    rw [h.endOf_eq pos hlt, Nat.mod_eq_of_lt (Nat.lt_of_le_of_lt hle hfit)]

theorem startOf_reach (h : p.Written columns parts) (hfit : EndsFit parts) {pos : Nat}
    (hpos : pos < columns.length) : p.startOf pos = reach parts pos := by
  rw [startOf]
  split
  · next hzero => rw [hzero, reach_zero]
  · next hne =>
      rw [h.endOf_reach hfit (by omega)]
      congr 1
      omega

/-- Between where a column starts and where it ends are its bytes. -/
theorem getRange_eq (h : p.Written columns parts) (hfit : EndsFit parts) {pos : Nat}
    {bytes : List UInt8} (hbytes : parts[pos]? = some bytes) :
    getRange p.data (p.startOf pos) (p.endOf pos) = some bytes := by
  obtain ⟨hlt, -⟩ := List.getElem?_eq_some_iff.mp hbytes
  rw [h.length_parts] at hlt
  have hsucc := reach_succ hbytes
  have hle := reach_le parts (pos + 1)
  rw [h.startOf_reach hfit hlt, h.endOf_reach hfit hlt, h.data_eq, getRange,
    if_pos ⟨by omega, hle⟩, hsucc, Nat.add_sub_cancel_left, drop_take_reach hbytes]

/-- Each column reads back while the ends fit their four bytes. -/
theorem value_eq (h : p.Written columns parts) (hfit : EndsFit parts) {pos : Nat}
    {v : ValueItem} {t : DataType} (hc : columns[pos]? = some (v, t)) :
    p.value pos (p.startOf pos) (p.endOf pos) t = some (recap t v) := by
  obtain ⟨bytes, hpart, hbytes⟩ := h.getElem?_parts hc
  rw [value, h.isNull_eq pos _ hc]
  by_cases hv : v = .null
  · subst hv
    rw [decide_eq_true rfl, if_pos rfl]
    cases t <;> rfl
  · rw [decide_eq_false hv, if_neg Bool.false_ne_true, h.getRange_eq hfit hpart,
      Option.bind_some, readAs_packedBytes hbytes hv]

end Written

/-- A packed row is parsed into the parts it was made of. -/
theorem parse_encode {types : List DataType} {values : List ValueItem} {out : List UInt8}
    (h : encode types values = some out) :
    ∃ p parts, parse out types.length = some p ∧ p.Written (values.zip types) parts := by
  obtain ⟨header, rest, p, parts, rfl, hbody, hwritten⟩ := body_encode h
  have hne : types.length ≠ 0 := by
    intro hzero
    rw [encode, if_pos (Or.inr hzero)] at h
    exact nomatch h
  refine ⟨p, parts, ?_, hwritten⟩
  rw [parse, if_neg hne]
  show (if packedMarker types.length ≠ packedMarker types.length then none
    else body header rest types.length) = some p
  rw [if_neg (not_not.mpr rfl), hbody]

end Packed

end SquealDb.Table
