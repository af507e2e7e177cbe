import SquealDb.Lib.Orderly
import SquealDb.Sql.RowOrder

/-!
# Columns that sort

`cmp_by_fields` on rows whose columns each take the values of some domain.  Comparing is
antisymmetric whatever the values.  It is transitive but for two mixes of integers and
doubles: the integer zero ties with both zeros, which do not tie; and a NaN with the sign
bit is behind every integer, as a NaN, and before every double, by `total_cmp`.
-/

namespace SquealDb.Sql

open Codec Lib

/-- The integer zero together with both zeros of a double. -/
def MixesZeros (D : Set ValueItem) : Prop :=
  .integer 0 ∈ D ∧ .double 0x8000000000000000 ∈ D ∧ .double 0 ∈ D

/-- An integer and a NaN with the sign bit, together with a double that is not above the
integer. -/
def MixesNan (D : Set ValueItem) : Prop :=
  ∃ i n d, .integer i ∈ D ∧ .double n ∈ D ∧ .double d ∈ D ∧ Binary64.isNan n = true ∧
    Binary64.negative n = true ∧ Binary64.isNan d = false ∧
    Binary64.scaled d ≤ Binary64.units i.toInt

/-! ## Values -/

/-- Comparing values is antisymmetric. -/
theorem cmpByValue_swap (a b : ValueItem) : cmpByValue b a = (cmpByValue a b).swap := by
  have hswap : ValueItem.cmp b a = (ValueItem.cmp a b).swap := Std.OrientedCmp.eq_swap
  cases a with
  | integer i =>
    cases b with
    | double d =>
      simp only [cmpByValue, cmpMixed]
      cases cmpIntDouble i d <;> rfl
    | _ => exact hswap
  | double d =>
    cases b with
    | integer i =>
      simp only [cmpByValue, cmpMixed]
      cases cmpIntDouble i d with
      | none => rfl
      | some ord => exact Ordering.swap_swap.symm
    | _ => exact hswap
  | _ => cases b <;> exact hswap

theorem cmpByValue_self (a : ValueItem) : cmpByValue a a = .eq := by
  rw [cmpByValue_of_rank rfl]
  exact Std.ReflCmp.compare_self

variable {i : Int64} {d e : UInt64} {a b : ValueItem} {D : Set ValueItem}

theorem isLE_int_double :
    (cmpByValue (.integer i) (.double d)).isLE = true ↔
      Binary64.isNan d = true ∨ Binary64.units i.toInt ≤ Binary64.scaled d := by
  simp only [cmpByValue, cmpMixed, cmpIntDouble_eq]
  cases Binary64.isNan d with
  | true => simp
  | false => simp [Std.isLE_compare]

theorem isLE_double_int :
    (cmpByValue (.double d) (.integer i)).isLE = true ↔
      Binary64.isNan d = false ∧ Binary64.scaled d ≤ Binary64.units i.toInt := by
  simp only [cmpByValue, cmpMixed, cmpIntDouble_eq]
  cases Binary64.isNan d with
  | true => simp
  | false => simp [← Std.OrientedCmp.eq_swap, Std.isLE_compare]

theorem isLE_double :
    (cmpByValue (.double d) (.double e)).isLE = true ↔ totalKey d ≤ totalKey e :=
  Std.isLE_compare

theorem isLE_int {j : Int64} :
    (cmpByValue (.integer i) (.integer j)).isLE = true ↔
      Binary64.units i.toInt ≤ Binary64.units j.toInt := by
  rw [← Std.isLE_compare, compare_units, Std.isLE_compare, ← Int64.le_iff_toInt_le]
  exact Std.isLE_compare

theorem scaled_le_of_totalKey (h : totalKey d ≤ totalKey e) :
    Binary64.scaled d ≤ Binary64.scaled e := by
  by_contra hlt
  have hgt : totalKey e < totalKey d :=
    compare_gt_iff_gt.1 (totalCmp_of_scaled_gt (lt_of_not_ge hlt))
  omega

theorem totalKey_lt_of_scaled (h : Binary64.scaled d < Binary64.scaled e) :
    totalKey d < totalKey e := compare_lt_iff_lt.1 (totalCmp_of_scaled_lt h)

/-- A NaN is beyond every number, on the side of its sign. -/
theorem scaled_nan {n : UInt64} (hn : Binary64.isNan n = true) (hd : Binary64.isNan d = false) :
    if Binary64.negative n then Binary64.scaled n < Binary64.scaled d
    else Binary64.scaled d < Binary64.scaled n := by
  have hnbits : 2047 * 2 ^ 52 < Binary64.magnitudeBits n := of_decide_eq_true hn
  have hdbits : ¬ 2047 * 2 ^ 52 < Binary64.magnitudeBits d := of_decide_eq_false hd
  rw [Binary64.scaled_lt_iff, Binary64.scaled_lt_iff]
  unfold Binary64.signedBits
  split <;> split <;> omega

/-- Two doubles of one value are the same, or the two zeros. -/
theorem zeros_of_scaled (h : Binary64.scaled d = Binary64.scaled e)
    (hlt : totalKey e < totalKey d) :
    d = 0 ∧ e = 0x8000000000000000 ∧ Binary64.scaled d = 0 := by
  rcases (Binary64.scaled_eq_iff d e).1 h with rfl | ⟨hd, he⟩
  · omega
  · have hdn := Binary64.toNat_eq d
    have hen := Binary64.toNat_eq e
    rw [hd] at hdn
    rw [he] at hen
    unfold totalKey at hlt
    have hzero : d.toNat = 0 ∧ e.toNat = 2 ^ 63 := by
      split at hdn <;> split at hen <;> split at hlt <;> split at hlt <;> omega
    refine ⟨UInt64.toNat_inj.1 hzero.1, UInt64.toNat_inj.1 hzero.2, ?_⟩
    simp [Binary64.scaled, hd, Binary64.unitsOf_zero]

/-- The kind of a value, integers and doubles being one. -/
def kind (v : ValueItem) : Nat := if v.typeRank ≤ 2 then v.typeRank else v.typeRank - 1

/-- Values of two kinds compare as their kinds do. -/
theorem cmpByValue_of_kind_ne (h : kind a ≠ kind b) :
    cmpByValue a b = compare (kind a) (kind b) := by
  cases a <;> cases b <;> first | exact absurd rfl h | rfl

theorem kind_le (h : (cmpByValue a b).isLE = true) : kind a ≤ kind b := by
  by_contra hlt
  rw [cmpByValue_of_kind_ne (by omega), compare_gt_iff_gt.2 (by omega)] at h
  cases h

theorem cmpByValue_of_kind_lt (h : kind a < kind b) :
    cmpByValue a b = .lt := by
  rw [cmpByValue_of_kind_ne (by omega), compare_lt_iff_lt.2 h]

theorem number_of_kind {v : ValueItem} (h : kind v = 2) :
    (∃ i, v = .integer i) ∨ ∃ d, v = .double d := by
  cases v with
  | integer i => exact Or.inl ⟨i, rfl⟩
  | double d => exact Or.inr ⟨d, rfl⟩
  | _ => simp [kind, ValueItem.typeRank] at h

theorem typeRank_of_kind (h : kind a = kind b) (hne : kind a ≠ 2) :
    a.typeRank = b.typeRank := by
  unfold kind at h hne
  split at h <;> split at h <;> simp_all <;> omega

section

variable {D : Set ValueItem} {i j : Int64} {d e : UInt64}

theorem trans_int_double_double (hnan : ¬ MixesNan D) (hi : .integer i ∈ D)
    (hd : .double d ∈ D) (he : .double e ∈ D)
    (hab : (cmpByValue (.integer i) (.double d)).isLE = true)
    (hbc : (cmpByValue (.double d) (.double e)).isLE = true) :
    (cmpByValue (.integer i) (.double e)).isLE = true := by
  rw [isLE_int_double] at hab ⊢
  have hle := scaled_le_of_totalKey (isLE_double.1 hbc)
  by_contra hnot
  rw [not_or, Bool.not_eq_true] at hnot
  rcases hab with hdnan | hval
  · have hside := scaled_nan hdnan hnot.1
    cases hneg : Binary64.negative d with
    | true => exact hnan ⟨i, d, e, hi, hd, he, hdnan, hneg, hnot.1, by omega⟩
    | false =>
      rw [hneg, if_neg Bool.false_ne_true] at hside
      omega
  · omega

theorem trans_double_int_double (hzeros : ¬ MixesZeros D) (hnan : ¬ MixesNan D)
    (hi : .integer i ∈ D) (hd : .double d ∈ D) (he : .double e ∈ D)
    (hab : (cmpByValue (.double d) (.integer i)).isLE = true)
    (hbc : (cmpByValue (.integer i) (.double e)).isLE = true) :
    (cmpByValue (.double d) (.double e)).isLE = true := by
  obtain ⟨hdnan, hval⟩ := isLE_double_int.1 hab
  rw [isLE_double]
  rcases isLE_int_double.1 hbc with henan | hval'
  · have hside := scaled_nan henan hdnan
    cases hneg : Binary64.negative e with
    | true => exact absurd ⟨i, e, d, hi, he, hd, henan, hneg, hdnan, hval⟩ hnan
    | false =>
      rw [hneg, if_neg Bool.false_ne_true] at hside
      exact le_of_lt (totalKey_lt_of_scaled hside)
  · by_contra hlt
    have hle := scaled_le_of_totalKey (le_of_lt (lt_of_not_ge hlt))
    obtain ⟨rfl, rfl, hzero⟩ := zeros_of_scaled (by omega) (lt_of_not_ge hlt)
    have hunits : Binary64.units i.toInt = 0 := by omega
    have hint : i.toInt = 0 := by
      unfold Binary64.units at hunits
      omega
    obtain rfl : i = 0 := Int64.toInt_inj.1 hint
    exact hzeros ⟨hi, he, hd⟩

theorem trans_double_double_int (hnan : ¬ MixesNan D) (hi : .integer i ∈ D)
    (hd : .double d ∈ D) (he : .double e ∈ D)
    (hab : (cmpByValue (.double d) (.double e)).isLE = true)
    (hbc : (cmpByValue (.double e) (.integer i)).isLE = true) :
    (cmpByValue (.double d) (.integer i)).isLE = true := by
  obtain ⟨henan, hval⟩ := isLE_double_int.1 hbc
  have hle := scaled_le_of_totalKey (isLE_double.1 hab)
  rw [isLE_double_int]
  refine ⟨?_, by omega⟩
  by_contra hdnan
  rw [Bool.not_eq_false] at hdnan
  have hside := scaled_nan hdnan henan
  cases hneg : Binary64.negative d with
  | true => exact hnan ⟨i, d, e, hi, hd, he, hdnan, hneg, henan, hval⟩
  | false =>
    rw [hneg, if_neg Bool.false_ne_true] at hside
    omega

end

/-- Comparing values is transitive on a domain without the two mixes. -/
theorem cmpByValue_trans (hzeros : ¬ MixesZeros D) (hnan : ¬ MixesNan D) {c : ValueItem}
    (ha : a ∈ D) (hb : b ∈ D) (hc : c ∈ D) (hab : (cmpByValue a b).isLE = true)
    (hbc : (cmpByValue b c).isLE = true) :
    (cmpByValue a c).isLE = true := by
  have hkab := kind_le hab
  have hkbc := kind_le hbc
  by_cases hlt : kind a < kind c
  · rw [cmpByValue_of_kind_lt hlt]
    rfl
  have hkb : kind a = kind b := by omega
  have hkc : kind b = kind c := by omega
  by_cases hnumber : kind a = 2
  · rcases number_of_kind hnumber with ⟨i, rfl⟩ | ⟨d, rfl⟩ <;>
      rcases number_of_kind (hkb ▸ hnumber) with ⟨j, rfl⟩ | ⟨e, rfl⟩ <;>
      rcases number_of_kind (hkc ▸ hkb ▸ hnumber) with ⟨k, rfl⟩ | ⟨f, rfl⟩
    · rw [isLE_int] at *
      omega
    · rw [isLE_int] at hab
      rw [isLE_int_double] at *
      exact hbc.imp_right fun hval => le_trans hab hval
    · rw [isLE_int_double] at hab
      rw [isLE_double_int] at hbc
      rw [isLE_int]
      rcases hab with hnan' | hval
      · rw [hbc.1] at hnan'
        cases hnan'
      · omega
    · exact trans_int_double_double hnan ha hb hc hab hbc
    · rw [isLE_int] at hbc
      rw [isLE_double_int] at *
      exact ⟨hab.1, by omega⟩
    · exact trans_double_int_double hzeros hnan hb ha hc hab hbc
    · exact trans_double_double_int hnan hc ha hb hab hbc
    · rw [isLE_double] at *
      omega
  · have hrab := typeRank_of_kind hkb hnumber
    have hrbc := typeRank_of_kind hkc (hkb ▸ hnumber)
    rw [cmpByValue_of_rank hrab] at hab
    rw [cmpByValue_of_rank hrbc] at hbc
    rw [cmpByValue_of_rank (hrab.trans hrbc)]
    exact Std.TransCmp.isLE_trans hab hbc

theorem orderly_cmpByValue (hzeros : ¬ MixesZeros D) (hnan : ¬ MixesNan D) :
    Orderly cmpByValue D where
  swap a _ b _ := cmpByValue_swap a b
  trans _ ha _ hb _ hc := cmpByValue_trans hzeros hnan ha hb hc

/-! ## One column -/

namespace SortField

variable (field : SortField)

/-- The order of values, either way round. -/
def byValue (a b : ValueItem) : Ordering :=
  if field.asc then cmpByValue a b else (cmpByValue a b).swap

theorem cmp_of_values {a b : ValueItem} (ha : a ≠ .null) (hb : b ≠ .null) :
    field.cmp a b = field.byValue a b := by
  cases a <;> first | exact absurd rfl ha | skip
  all_goals cases b <;> first | exact absurd rfl hb | rfl

/-- `cmp` by where the field puts `NULL`, and then by value. -/
theorem cmp_eq (a b : ValueItem) :
    field.cmp a b =
      (compare (field.nullRank a) (field.nullRank b)).then (field.byValue a b) := by
  by_cases ha : a = .null
  · subst ha
    by_cases hb : b = .null
    · subst hb
      have hself : field.byValue .null .null = .eq := by
        unfold byValue
        split <;> rfl
      rw [hself, compare_eq_iff_eq.2 rfl]
      rfl
    · have hcmp : field.cmp .null b = if field.nullFirst then .lt else .gt := by
        cases b <;> first | exact absurd rfl hb | rfl
      rw [hcmp]
      cases hfirst : field.nullFirst <;> simp [nullRank, hb, hfirst] <;> rfl
  · by_cases hb : b = .null
    · subst hb
      have hcmp : field.cmp a .null = if field.nullFirst then .gt else .lt := by
        cases a <;> first | exact absurd rfl ha | rfl
      rw [hcmp]
      cases hfirst : field.nullFirst <;> simp [nullRank, ha, hfirst] <;> rfl
    · have hrank : field.nullRank a = field.nullRank b := by
        simp [nullRank, ha, hb]
      rw [field.cmp_of_values ha hb, hrank, compare_eq_iff_eq.2 rfl, Ordering.eq_then]

theorem byValue_swap (a b : ValueItem) : field.byValue b a = (field.byValue a b).swap := by
  unfold byValue
  split
  · exact cmpByValue_swap a b
  · rw [cmpByValue_swap a b]

/-- A field's comparison is antisymmetric. -/
theorem cmp_swap (a b : ValueItem) : field.cmp b a = (field.cmp a b).swap := by
  have hrank : compare (field.nullRank b) (field.nullRank a) =
      (compare (field.nullRank a) (field.nullRank b)).swap := Std.OrientedCmp.eq_swap
  rw [field.cmp_eq, field.cmp_eq, hrank, field.byValue_swap a b, Ordering.swap_then]

/-- Where values compare as a total preorder, the field does too. -/
theorem orderly {D : Set ValueItem} (h : Orderly cmpByValue D) : Orderly field.cmp D := by
  have hrank : Orderly (fun a b => compare (field.nullRank a) (field.nullRank b)) D :=
    Orderly.comap (S := Set.univ) Orderly.of_transCmp fun _ _ => trivial
  have hvalue : Orderly field.byValue D := by
    unfold byValue
    cases field.asc with
    | true => exact h
    | false => exact h.flip
  exact (hrank.lex hvalue).congr fun a _ b _ => field.cmp_eq a b

/-- Where the field compares as a total preorder, the values other than `NULL` do too. -/
theorem orderly_values {D : Set ValueItem} (h : Orderly field.cmp D) :
    Orderly cmpByValue {v | v ∈ D ∧ v ≠ .null} := by
  have hsub : Orderly field.cmp {v | v ∈ D ∧ v ≠ .null} := h.subset fun v hv => hv.1
  have hvalue : ∀ a ∈ {v | v ∈ D ∧ v ≠ .null}, ∀ b ∈ {v | v ∈ D ∧ v ≠ .null},
      field.cmp a b = if field.asc then cmpByValue a b else (cmpByValue a b).swap :=
    fun a ha b hb => field.cmp_of_values ha.2 hb.2
  cases hasc : field.asc with
  | true =>
    apply hsub.congr
    intro a ha b hb
    rw [hvalue a ha b hb, hasc, if_pos rfl]
  | false =>
    apply hsub.flip.congr
    intro a ha b hb
    rw [hvalue a ha b hb, hasc, if_neg Bool.false_ne_true, Ordering.swap_swap]

end SortField

/-- The integer zero and both zeros are no total preorder. -/
theorem not_mixesZeros_of_orderly (h : Orderly cmpByValue {v | v ∈ D ∧ v ≠ .null}) :
    ¬ MixesZeros D := by
  rintro ⟨hi, hneg, hpos⟩
  have hle := h.trans (.double 0) ⟨hpos, nofun⟩ (.integer 0) ⟨hi, nofun⟩
    (.double 0x8000000000000000) ⟨hneg, nofun⟩ (by decide +kernel) (by decide +kernel)
  revert hle
  decide +kernel

/-- An integer, a NaN with the sign bit and a double not above the integer are none
either. -/
theorem not_mixesNan_of_orderly (h : Orderly cmpByValue {v | v ∈ D ∧ v ≠ .null}) :
    ¬ MixesNan D := by
  rintro ⟨i, n, d, hi, hn, hd, hnan, hneg, hnum, hle⟩
  have hdn := h.trans (.double d) ⟨hd, nofun⟩ (.integer i) ⟨hi, nofun⟩ (.double n) ⟨hn, nofun⟩
    (isLE_double_int.2 ⟨hnum, hle⟩) (isLE_int_double.2 (Or.inl hnan))
  have hside := scaled_nan hnan hnum
  rw [hneg, if_pos rfl] at hside
  have hlt := totalKey_lt_of_scaled hside
  have hge := isLE_double.1 hdn
  omega

/-! ## Rows -/

/-- `cmp_by_fields` is antisymmetric. -/
theorem cmpByFields_swap (order : List SortField) (a b : Row) :
    cmpByFields order b a = (cmpByFields order a b).swap := by
  induction order with
  | nil => rfl
  | cons field rest ih =>
    rw [cmpByFields, cmpByFields, field.cmp_swap (a.at field.index) (b.at field.index), ih]
    cases field.cmp (a.at field.index) (b.at field.index) <;> rfl

theorem cmpByFields_cons (field : SortField) (rest : List SortField) (a b : Row) :
    cmpByFields (field :: rest) a b =
      (field.cmp (a.at field.index) (b.at field.index)).then (cmpByFields rest a b) := by
  rw [cmpByFields]
  cases field.cmp (a.at field.index) (b.at field.index) <;> rfl

/-- Where each column sorted by compares as a total preorder, the rows do too. -/
theorem orderly_cmpByFields {order : List SortField} {S : Set Row} {D : Nat → Set ValueItem}
    (hS : ∀ r ∈ S, ∀ f ∈ order, r.at f.index ∈ D f.index)
    (h : ∀ f ∈ order, Orderly cmpByValue (D f.index)) : Orderly (cmpByFields order) S := by
  induction order with
  | nil => exact ⟨fun _ _ _ _ => rfl, fun _ _ _ _ _ _ _ _ => rfl⟩
  | cons field rest ih =>
    have hfield : Orderly (fun a b : Row =>
        field.cmp (a.at field.index) (b.at field.index)) S :=
      Orderly.comap (field.orderly (h field List.mem_cons_self))
        fun r hr => hS r hr field List.mem_cons_self
    have hrest := ih (fun r hr f hf => hS r hr f (List.mem_cons_of_mem field hf))
      fun f hf => h f (List.mem_cons_of_mem field hf)
    exact (hfield.lex hrest).congr fun a _ b _ => cmpByFields_cons field rest a b

/-! ## Ties -/

theorem kind_of_tie (h : cmpByValue a b = .eq) : kind a = kind b := by
  by_contra hne
  rw [cmpByValue_of_kind_ne hne, compare_eq_iff_eq] at h
  exact hne h

theorem null_of_kind (h : kind a = kind b) : a = .null ↔ b = .null := by
  cases a <;> cases b <;> simp_all [kind, ValueItem.typeRank]

/-- Values tie or not whatever the field. -/
theorem SortField.cmp_eq_iff (field : SortField) (a b : ValueItem) :
    field.cmp a b = .eq ↔ cmpByValue a b = .eq := by
  have hvalue : field.byValue a b = .eq ↔ cmpByValue a b = .eq := by
    unfold SortField.byValue
    split
    · rfl
    · cases cmpByValue a b <;> decide
  rw [field.cmp_eq, Ordering.then_eq_eq, hvalue, and_iff_right_iff_imp]
  intro h
  rw [compare_eq_iff_eq]
  unfold SortField.nullRank
  simp only [null_of_kind (kind_of_tie h)]

theorem SortField.cmp_self (field : SortField) (a : ValueItem) : field.cmp a a = .eq :=
  (field.cmp_eq_iff a a).2 (cmpByValue_self a)

theorem tie_double_int (h : cmpByValue (.double d) (.integer i) = .eq) :
    Binary64.isNan d = false ∧ Binary64.scaled d = Binary64.units i.toInt := by
  have hle := isLE_double_int.1 (by rw [h]; rfl)
  have hswap := cmpByValue_swap (.double d) (.integer i)
  rw [h] at hswap
  rcases isLE_int_double.1 (by rw [hswap]; rfl) with hnan | hge
  · rw [hle.1] at hnan
    cases hnan
  · exact ⟨hle.1, by omega⟩

theorem tie_int_double (h : cmpByValue (.integer i) (.double d) = .eq) :
    Binary64.isNan d = false ∧ Binary64.scaled d = Binary64.units i.toInt := by
  apply tie_double_int
  rw [cmpByValue_swap, h]
  rfl

theorem tie_int {j : Int64} (h : cmpByValue (.integer i) (.integer j) = .eq) : i = j := by
  have hcmp : ValueItem.cmp (.integer i) (.integer j) = .eq := h
  rw [ValueItem.cmp_eq_iff] at hcmp
  exact beq_iff_eq.1 hcmp

theorem tie_double (h : cmpByValue (.double d) (.double e) = .eq) : d = e := by
  have hcmp : ValueItem.cmp (.double d) (.double e) = .eq := h
  rw [ValueItem.cmp_eq_iff] at hcmp
  exact beq_iff_eq.1 hcmp

theorem eq_of_units {j : Int64} (h : Binary64.units i.toInt = Binary64.units j.toInt) :
    i = j := by
  unfold Binary64.units at h
  exact Int64.toInt_inj.1 (by omega)

/-- Ties go on to ties, but for the integer zero between the two zeros. -/
theorem tie_trans (hzeros : ¬ MixesZeros D) {c : ValueItem} (ha : a ∈ D) (hb : b ∈ D) (hc : c ∈ D)
    (hab : cmpByValue a b = .eq) (hbc : cmpByValue b c = .eq) : cmpByValue a c = .eq := by
  have hkb := kind_of_tie hab
  have hkc := kind_of_tie hbc
  by_cases hnumber : kind a = 2
  · rcases number_of_kind hnumber with ⟨i, rfl⟩ | ⟨d, rfl⟩ <;>
      rcases number_of_kind (hkb ▸ hnumber) with ⟨j, rfl⟩ | ⟨e, rfl⟩ <;>
      rcases number_of_kind (hkc ▸ hkb ▸ hnumber) with ⟨k, rfl⟩ | ⟨f, rfl⟩
    · rwa [tie_int hab]
    · rwa [tie_int hab]
    · have hi := (tie_int_double hab).2
      have hk := (tie_double_int hbc).2
      rw [eq_of_units (hi.symm.trans hk)]
      exact cmpByValue_self _
    · rwa [← tie_double hbc]
    · rwa [← tie_int hbc]
    · have hd := (tie_double_int hab).2
      have hf := (tie_int_double hbc).2
      have hsame : d = f := by
        by_contra hne
        apply hzeros
        have hkey : totalKey d ≠ totalKey f := fun heq => hne (totalKey_inj heq)
        have hint : Binary64.scaled d = 0 → j = 0 := by
          intro hzero
          apply eq_of_units
          rw [← hd, hzero, Int64.toInt_zero, Binary64.units, Int.zero_mul]
        rcases lt_or_gt_of_ne hkey with hlt | hlt
        · obtain ⟨rfl, rfl, hzero⟩ := zeros_of_scaled (hf.trans hd.symm) hlt
          obtain rfl := hint (by rw [hd, ← hf, hzero])
          exact ⟨hb, ha, hc⟩
        · obtain ⟨rfl, rfl, hzero⟩ := zeros_of_scaled (hd.trans hf.symm) hlt
          obtain rfl := hint hzero
          exact ⟨hb, hc, ha⟩
      rw [hsame]
      exact cmpByValue_self _
    · rwa [tie_double hab]
    · rwa [tie_double hab]
  · have hrab := typeRank_of_kind hkb hnumber
    have hrbc := typeRank_of_kind hkc (hkb ▸ hnumber)
    rw [cmpByValue_of_rank hrab] at hab
    rw [cmpByValue_of_rank hrbc] at hbc
    rw [cmpByValue_of_rank (hrab.trans hrbc)]
    exact Std.TransCmp.eq_trans hab hbc

theorem cmpByFields_eq_iff {order : List SortField} {a b : Row} :
    cmpByFields order a b = .eq ↔
      ∀ f ∈ order, cmpByValue (a.at f.index) (b.at f.index) = .eq := by
  induction order with
  | nil => simp [cmpByFields]
  | cons field rest ih =>
    rw [cmpByFields_cons, Ordering.then_eq_eq, field.cmp_eq_iff, ih, List.forall_mem_cons]

/-! ## Rows over domains -/

/-- The rows of some width whose columns take the values of their domains. -/
def RowsOver (width : Nat) (D : Nat → Set ValueItem) : Set Row :=
  {r | r.length = width ∧ ∀ i < width, r.at i ∈ D i}

theorem sameRow_iff {width : Nat} {D : Nat → Set ValueItem} {a b : Row}
    (ha : a ∈ RowsOver width D) (hb : b ∈ RowsOver width D) :
    sameRow a b = true ↔ ∀ i < width, cmpByValue (a.at i) (b.at i) = .eq := by
  rw [sameRow, ha.1, hb.1, Nat.max_self, beq_self_eq_true, Bool.true_and, beq_iff_eq,
    cmpByFields_eq_iff]
  simp [ascending]

section

variable {width : Nat} {D : Nat → Set ValueItem} {fill : Nat → ValueItem}

/-- A row that takes a value in one column and fills the others. -/
def rowWith (width : Nat) (fill : Nat → ValueItem) (i : Nat) (v : ValueItem) : Row :=
  (List.range width).map fun j => if j = i then v else fill j

theorem rowWith_at {i j : Nat} {v : ValueItem} (hj : j < width) :
    (rowWith width fill i v).at j = if j = i then v else fill j := by
  simp [rowWith, Row.at, hj]

theorem rowWith_mem (hfill : ∀ j < width, fill j ∈ D j) {i : Nat} {v : ValueItem}
    (hv : v ∈ D i) : rowWith width fill i v ∈ RowsOver width D := by
  refine ⟨by simp [rowWith], ?_⟩
  intro j hj
  rw [rowWith_at hj]
  split
  · rename_i heq
    rwa [heq]
  · exact hfill j hj

/-- Rows that differ in one column compare as the first field of that column does. -/
theorem cmpByFields_rowWith (fill : Nat → ValueItem) {order : List SortField}
    (hin : ∀ f ∈ order, f.index < width)
    {f : SortField} (hf : f ∈ order) :
    ∃ g : SortField, ∀ v w, cmpByFields order (rowWith width fill f.index v)
      (rowWith width fill f.index w) = g.cmp v w := by
  induction order with
  | nil => cases hf
  | cons field rest ih =>
    have hfield := hin field List.mem_cons_self
    have hrest : ∀ g ∈ rest, g.index < width := fun g hg => hin g (List.mem_cons_of_mem field hg)
    by_cases hindex : field.index = f.index
    · refine ⟨field, fun v w => ?_⟩
      rw [cmpByFields_cons, rowWith_at hfield, rowWith_at hfield, if_pos hindex, if_pos hindex]
      cases hcmp : field.cmp v w with
      | lt => rfl
      | gt => rfl
      | eq =>
        rw [Ordering.eq_then, cmpByFields_eq_iff]
        intro g hg
        rw [rowWith_at (hrest g hg), rowWith_at (hrest g hg)]
        split
        · exact (field.cmp_eq_iff v w).1 hcmp
        · exact (field.cmp_eq_iff _ _).1 (field.cmp_self _)
    · have hne : f ≠ field := fun h => hindex (h ▸ rfl)
      obtain ⟨g, hg⟩ := ih hrest ((List.mem_cons.1 hf).resolve_left hne)
      refine ⟨g, fun v w => ?_⟩
      rw [cmpByFields_cons, rowWith_at hfield, rowWith_at hfield, if_neg hindex,
        if_neg hindex, field.cmp_self, Ordering.eq_then, hg]

end

/-! ## The order of a query's rows -/

/-- `cmp_by_fields` is a total preorder of the rows, and `same_row` an equivalence. -/
def SortsRows (order : List SortField) (S : Set Row) : Prop :=
  Orderly (cmpByFields order) S ∧ Equivalence fun a b : S => sameRow a b = true

section

variable {width : Nat} {D : Nat → Set ValueItem} {order : List SortField}

theorem exists_fill (hfull : ∀ i < width, (D i).Nonempty) :
    ∃ fill : Nat → ValueItem, ∀ i < width, fill i ∈ D i := by
  have hchoose : ∀ i, ∃ v, i < width → v ∈ D i := by
    intro i
    by_cases hi : i < width
    · obtain ⟨v, hv⟩ := hfull i hi
      exact ⟨v, fun _ => hv⟩
    · exact ⟨.null, fun hlt => absurd hlt hi⟩
  choose fill hfill using hchoose
  exact ⟨fill, hfill⟩

/-- A column sorted by has none of the mixes where the rows are a total preorder. -/
theorem unmixed_of_orderly (hfull : ∀ i < width, (D i).Nonempty)
    (hin : ∀ f ∈ order, f.index < width)
    (h : Orderly (cmpByFields order) (RowsOver width D)) {f : SortField} (hf : f ∈ order) :
    ¬ MixesZeros (D f.index) ∧ ¬ MixesNan (D f.index) := by
  obtain ⟨fill, hfill⟩ := exists_fill hfull
  obtain ⟨g, hg⟩ := cmpByFields_rowWith fill hin hf
  have hcolumn : Orderly (fun v w => cmpByFields order (rowWith width fill f.index v)
      (rowWith width fill f.index w)) (D f.index) :=
    h.comap fun v hv => rowWith_mem hfill hv
  have hvalues := g.orderly_values (hcolumn.congr fun v _ w _ => (hg v w).symm)
  exact ⟨not_mixesZeros_of_orderly hvalues, not_mixesNan_of_orderly hvalues⟩

/-- The rows that differ in one column tell two zeros and the integer apart. -/
theorem unmixed_of_equivalence (hfull : ∀ i < width, (D i).Nonempty)
    (h : Equivalence fun a b : RowsOver width D => sameRow a b = true) {i : Nat}
    (hi : i < width) : ¬ MixesZeros (D i) := by
  rintro ⟨hint, hneg, hpos⟩
  obtain ⟨fill, hfill⟩ := exists_fill hfull
  have hrow : ∀ v ∈ D i, rowWith width fill i v ∈ RowsOver width D :=
    fun v hv => rowWith_mem hfill hv
  have htie : ∀ v (hv : v ∈ D i) w (hw : w ∈ D i),
      sameRow (rowWith width fill i v) (rowWith width fill i w) = true ↔
        cmpByValue v w = .eq := by
    intro v hv w hw
    rw [sameRow_iff (hrow v hv) (hrow w hw)]
    constructor
    · intro hall
      have hcol := hall i hi
      rwa [rowWith_at hi, rowWith_at hi, if_pos rfl, if_pos rfl] at hcol
    · intro heq j hj
      rw [rowWith_at hj, rowWith_at hj]
      split
      · exact heq
      · exact cmpByValue_self _
  have hzeros := h.trans (x := ⟨_, hrow _ hpos⟩) (y := ⟨_, hrow _ hint⟩) (z := ⟨_, hrow _ hneg⟩)
    ((htie _ hpos _ hint).2 (by decide +kernel)) ((htie _ hint _ hneg).2 (by decide +kernel))
  have heq := (htie _ hpos _ hneg).1 hzeros
  revert heq
  decide +kernel

theorem equivalence_of_unmixed (h : ∀ i < width, ¬ MixesZeros (D i)) :
    Equivalence fun a b : RowsOver width D => sameRow a b = true where
  refl a := (sameRow_iff a.2 a.2).2 fun i _ => cmpByValue_self _
  symm {a b} hab := by
    rw [sameRow_iff a.2 b.2] at hab
    rw [sameRow_iff b.2 a.2]
    intro i hi
    rw [cmpByValue_swap, hab i hi]
    rfl
  trans {a b c} hab hbc := by
    rw [sameRow_iff a.2 b.2] at hab
    rw [sameRow_iff b.2 c.2] at hbc
    rw [sameRow_iff a.2 c.2]
    exact fun i hi => tie_trans (h i hi) (a.2.2 i hi) (b.2.2 i hi) (c.2.2 i hi) (hab i hi)
      (hbc i hi)

end

/-- The sort order.  Comparing is antisymmetric whatever the rows.  On all rows over the
domains of their columns it is a total preorder, with `same_row` an equivalence, exactly
where no column has the integer zero with both zeros, and no column sorted by an integer,
a NaN with the sign bit and a double not above the integer. -/
theorem sort_order_iff {width : Nat} {D : Nat → Set ValueItem} {order : List SortField}
    (hfull : ∀ i < width, (D i).Nonempty) (hin : ∀ f ∈ order, f.index < width) :
    (∀ a b, cmpByFields order b a = (cmpByFields order a b).swap) ∧
      (SortsRows order (RowsOver width D) ↔
        (∀ i < width, ¬ MixesZeros (D i)) ∧ ∀ f ∈ order, ¬ MixesNan (D f.index)) := by
  refine ⟨cmpByFields_swap order, ?_⟩
  constructor
  · rintro ⟨horder, hequiv⟩
    exact ⟨fun i hi => unmixed_of_equivalence hfull hequiv hi,
      fun f hf => (unmixed_of_orderly hfull hin horder hf).2⟩
  · rintro ⟨hzeros, hnan⟩
    refine ⟨?_, equivalence_of_unmixed hzeros⟩
    apply orderly_cmpByFields fun r hr f hf => hr.2 f.index (hin f hf)
    exact fun f hf => orderly_cmpByValue (hzeros f.index (hin f hf)) (hnan f hf)

/-- The values that are neither a NaN nor the negative zero. -/
def plainNumbers : Set ValueItem :=
  {v | v ≠ .double 0x8000000000000000 ∧ ∀ d, v = .double d → Binary64.isNan d = false}

/-- Rows of two columns of such values, of any types, sort by both. -/
theorem sort_order_of_numbers :
    (∀ a b, cmpByFields (ascending [1, 0]) b a = (cmpByFields (ascending [1, 0]) a b).swap) ∧
      SortsRows (ascending [1, 0]) (RowsOver 2 fun _ => plainNumbers) := by
  have hright := @sort_order_iff 2 (fun _ => plainNumbers) (ascending [1, 0])
    (fun _ _ => ⟨.integer 0, nofun, nofun⟩) (by decide)
  refine ⟨hright.1, hright.2.mpr ⟨fun i _ hmixes => hmixes.2.1.1 rfl, ?_⟩⟩
  rintro f - ⟨i, n, d, -, hn, -, hnan, -⟩
  rw [hn.2 n rfl] at hnan
  cases hnan

/-- One column of an integer and doubles: the two zeros and the integer between them. -/
theorem sort_order_breaks_on_zeros :
    ¬ SortsRows (ascending [0])
      {r | r = [.double 0] ∨ r = [.integer 0] ∨ r = [.double 0x8000000000000000]} := by
  rintro ⟨horder, -⟩
  have hle := horder.trans [.double 0] (Or.inl rfl) [.integer 0] (Or.inr (Or.inl rfl))
    [.double 0x8000000000000000] (Or.inr (Or.inr rfl)) (by decide +kernel) (by decide +kernel)
  revert hle
  decide +kernel

end SquealDb.Sql
