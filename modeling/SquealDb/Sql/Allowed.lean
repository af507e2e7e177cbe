import SquealDb.Sql.Sarg

/-!
# Conditions allow every value they are true of

A value a condition is true of lies in the set the condition allows its column: the
sets may be wider than the conditions and are never narrower.
-/

namespace SquealDb.Sql

open Codec Lib

/-! ## Ranges and points -/

theorem isLE_of_cmp {a b : ValueItem} (h : (a.cmp b).isGE = true) : (b.cmp a).isLE = true := by
  have hswap : b.cmp a = (a.cmp b).swap := Std.OrientedCmp.eq_swap
  rw [hswap]
  cases hc : a.cmp b <;> simp_all

/-- A value the lower bound admits. -/
def Bound.Above (lower : Bound ValueItem) (v : ValueItem) : Prop :=
  match lower with
  | .included lo => (v.cmp lo).isGE = true
  | .excluded lo => v.cmp lo = .gt
  | .unbounded => True

/-- A value the upper bound admits. -/
def Bound.Below (upper : Bound ValueItem) (v : ValueItem) : Prop :=
  match upper with
  | .included hi => (v.cmp hi).isLE = true
  | .excluded hi => v.cmp hi = .lt
  | .unbounded => True

theorem contains_iff (r : ColumnRange) (v : ValueItem) :
    r.contains v = true ↔ r.lower.Above v ∧ r.upper.Below v := by
  obtain ⟨lower, upper⟩ := r
  unfold ColumnRange.contains
  cases lower <;> cases upper <;> simp [Bound.Above, Bound.Below]

variable {r : ColumnRange} {v : ValueItem} {d : UInt64} {op : BinaryOp} {o : Ordering} {i : Int64}

/-- A range contains all or none of the values that compare equal. -/
theorem contains_congr {w : ValueItem} (h : v.cmp w = .eq) :
    r.contains v = r.contains w := by
  have hc : ∀ u : ValueItem, v.cmp u = w.cmp u := fun u => Std.TransCmp.congr_left h
  unfold ColumnRange.contains
  cases r.lower <;> cases r.upper <;> simp only [hc]

theorem tighter_cases (a b : Bound ValueItem) (wins : Ordering) :
    tighter a b wins = a ∨ tighter a b wins = b := by
  unfold tighter
  cases a <;> cases b <;> simp only [true_or, or_true] <;> split <;>
    first | exact Or.inl rfl | exact Or.inr rfl | (split <;> simp)

/-- What two ranges contain, the range of both does. -/
theorem contains_intersect {s : ColumnRange} (hr : r.contains v = true) (hs : s.contains v = true) :
    (r.intersect s).contains v = true := by
  rw [contains_iff] at hr hs ⊢
  constructor
  · show (tighter r.lower s.lower .gt).Above v
    rcases tighter_cases r.lower s.lower .gt with h | h
    · rw [h]
      exact hr.1
    · rw [h]
      exact hs.1
  · show (tighter r.upper s.upper .lt).Below v
    rcases tighter_cases r.upper s.upper .lt with h | h
    · rw [h]
      exact hr.2
    · rw [h]
      exact hs.2

/-- A range that contains a value is not found empty. -/
theorem isEmpty_of_contains (h : r.contains v = true) :
    r.isEmpty = false := by
  obtain ⟨lower, upper⟩ := r
  obtain ⟨habove, hbelow⟩ := (contains_iff _ v).mp h
  have hlo : ∀ lo : ValueItem, v.cmp lo = .gt → lo.cmp v = .lt :=
    fun lo hlo => Std.OrientedCmp.lt_of_gt hlo
  unfold ColumnRange.isEmpty
  cases lower with
  | unbounded => cases upper <;> rfl
  | included lo =>
    have hle : (lo.cmp v).isLE = true := isLE_of_cmp habove
    cases upper with
    | unbounded => rfl
    | included hi =>
      have hle' : (lo.cmp hi).isLE = true := Std.TransCmp.isLE_trans hle hbelow
      cases hc : lo.cmp hi <;> simp_all
    | excluded hi =>
      have hlt : lo.cmp hi = .lt := Std.TransCmp.lt_of_isLE_of_lt hle hbelow
      simp [hlt]
  | excluded lo =>
    have hlt : lo.cmp v = .lt := hlo lo habove
    cases upper with
    | unbounded => rfl
    | included hi =>
      have hlt' : lo.cmp hi = .lt := Std.TransCmp.lt_of_lt_of_isLE hlt hbelow
      simp [hlt']
    | excluded hi =>
      have hlt' : lo.cmp hi = .lt := Std.TransCmp.lt_trans hlt hbelow
      simp [hlt']

/-- Sorting points and leaving out repeats keeps every value. -/
theorem holds_ofPoints {values : List ValueItem} (h : ∃ w ∈ values, w.cmp v = .eq) :
    (ColumnSet.ofPoints values).Holds v := by
  have hsorted : ∃ w ∈ values.mergeSort fun a b => (a.cmp b).isLE, w.cmp v = .eq := by
    obtain ⟨w, hw, hv⟩ := h
    exact ⟨w, List.mem_mergeSort.mpr hw, hv⟩
  unfold ColumnSet.ofPoints ColumnSet.Holds
  generalize (values.mergeSort fun a b => (a.cmp b).isLE) = sorted at hsorted
  induction sorted with
  | nil =>
    obtain ⟨w, hw, -⟩ := hsorted
    cases hw
  | cons u rest ih =>
    rw [List.foldr_cons]
    generalize hk : List.foldr _ [] rest = kept at ih ⊢
    obtain ⟨w, hw, hv⟩ := hsorted
    rcases List.mem_cons.mp hw with rfl | hrest
    · cases kept with
      | nil => exact ⟨w, List.mem_singleton_self w, hv⟩
      | cons k ks =>
        dsimp only
        split <;> exact ⟨w, List.mem_cons_self, hv⟩
    · obtain ⟨x, hx, hxv⟩ := ih ⟨w, hrest, hv⟩
      cases kept with
      | nil => cases hx
      | cons k ks =>
        dsimp only
        split
        · rename_i huk
          rcases List.mem_cons.mp hx with rfl | hks
          · exact ⟨u, List.mem_cons_self, Std.TransCmp.eq_trans huk hxv⟩
          · exact ⟨x, List.mem_cons_of_mem u hks, hxv⟩
        · exact ⟨x, List.mem_cons_of_mem u hx, hxv⟩

/-- A zero's place in the order of `total_cmp`. -/
theorem totalKey_zero (h : Binary64.magnitudeBits d = 0) :
    -1 ≤ totalKey d ∧ totalKey d ≤ 0 := by
  have hd := Binary64.toNat_eq d
  rw [h] at hd
  unfold totalKey
  split at hd <;> split <;> omega

/-- A double between the two zeros is one of them. -/
theorem zero_of_totalKey (hlo : -1 ≤ totalKey d) (hhi : totalKey d ≤ 0) :
    d = 0x8000000000000000 ∨ d = 0 := by
  unfold totalKey at hlo hhi
  by_cases hneg : d.toNat < 2 ^ 63
  · right
    rw [if_pos hneg] at hlo hhi
    have hd : d.toNat = (0 : UInt64).toNat := by
      show d.toNat = 0
      omega
    exact UInt64.toNat_inj.mp hd
  · left
    rw [if_neg hneg] at hlo hhi
    have hd : d.toNat = (0x8000000000000000 : UInt64).toNat := by
      show d.toNat = 2 ^ 63
      omega
    exact UInt64.toNat_inj.mp hd

theorem zero_of_between {a b : UInt64} (ha : Binary64.magnitudeBits a = 0)
    (hb : Binary64.magnitudeBits b = 0) (hlo : (v.cmp (.double a)).isGE = true)
    (hhi : (v.cmp (.double b)).isLE = true) :
    v = .double 0x8000000000000000 ∨ v = .double 0 := by
  cases v with
  | double d =>
    have hge : totalKey a ≤ totalKey d := Std.isGE_compare.mp hlo
    have hle : totalKey d ≤ totalKey b := Std.isLE_compare.mp hhi
    have hka := totalKey_zero ha
    have hkb := totalKey_zero hb
    rcases zero_of_totalKey (hka.1.trans hge) (hle.trans hkb.2) with rfl | rfl
    · exact Or.inl rfl
    · exact Or.inr rfl
  | null | integer i | boolean b => exact Bool.noConfusion (show false = true from hlo)
  | datetime t | str s cap | blob s cap => exact Bool.noConfusion (show false = true from hhi)

theorem equalValue_some {a : ValueItem} (h : r.equalValue = some a) :
    ∃ b, r.lower = .included a ∧ r.upper = .included b ∧ a.cmp b = .eq := by
  obtain ⟨lower, upper⟩ := r
  cases lower <;> cases upper <;> simp only [ColumnRange.equalValue, reduceCtorEq] at h
  rename_i x y
  split at h
  · cases h
    exact ⟨y, rfl, rfl, ‹_›⟩
  · cases h

theorem zeroBounds_true (h : r.zeroBounds = true) :
    ∃ a b, r.lower = .included (.double a) ∧ r.upper = .included (.double b) ∧
      Binary64.magnitudeBits a = 0 ∧ Binary64.magnitudeBits b = 0 := by
  obtain ⟨lower, upper⟩ := r
  unfold ColumnRange.zeroBounds at h
  split at h
  · rename_i a b hlo hhi
    simp only [Bool.and_eq_true, beq_iff_eq] at h
    exact ⟨a, b, hlo, hhi, h⟩
  · cases h

/-- What a range contains, the set made of it holds. -/
theorem holds_fromRange (h : r.contains v = true) :
    (ColumnSet.fromRange r).Holds v := by
  have hboth := (contains_iff r v).mp h
  unfold ColumnSet.fromRange
  cases heq : r.equalValue with
  | some a =>
    obtain ⟨b, hlo, hhi, hab⟩ := equalValue_some heq
    rw [hlo, hhi] at hboth
    have hle : (a.cmp v).isLE = true := isLE_of_cmp hboth.1
    have hge : (v.cmp a).isLE = true := by
      rw [Std.TransCmp.congr_right hab]
      exact hboth.2
    exact ⟨a, List.mem_singleton_self a, Std.OrientedCmp.isLE_antisymm hle hge⟩
  | none =>
    dsimp only
    by_cases hz : r.zeroBounds = true
    · obtain ⟨a, b, hlo, hhi, ha, hb⟩ := zeroBounds_true hz
      rw [hlo, hhi] at hboth
      rw [if_pos hz]
      apply holds_ofPoints
      rcases zero_of_between ha hb hboth.1 hboth.2 with rfl | rfl
      · exact ⟨_, List.mem_cons_self, Std.ReflCmp.compare_self⟩
      · exact ⟨_, List.mem_cons_of_mem _ (List.mem_singleton_self _),
          Std.ReflCmp.compare_self⟩
    · rw [if_neg hz, isEmpty_of_contains h]
      exact h

/-- What two sets hold, the set of both does. -/
theorem holds_intersect {a b : ColumnSet} (ha : a.Holds v) (hb : b.Holds v) :
    (a.intersect b).Holds v := by
  cases a with
  | points p =>
    obtain ⟨x, hx, hxv⟩ := ha
    cases b with
    | points q =>
      obtain ⟨y, hy, hyv⟩ := hb
      have hxy : x.cmp y = .eq := Std.TransCmp.eq_trans hxv (Std.OrientedCmp.eq_symm hyv)
      exact ⟨x, List.mem_filter.mpr ⟨hx, List.any_eq_true.mpr ⟨y, hy, beq_iff_eq.mpr hxy⟩⟩, hxv⟩
    | range r =>
      exact ⟨x, List.mem_filter.mpr ⟨hx, (contains_congr hxv).trans hb⟩, hxv⟩
  | range r =>
    cases b with
    | points q =>
      obtain ⟨y, hy, hyv⟩ := hb
      exact ⟨y, List.mem_filter.mpr ⟨hy, (contains_congr hyv).trans ha⟩, hyv⟩
    | range s => exact holds_fromRange (contains_intersect ha hb)

/-! ## One comparison -/

/-- A value a column of a type stores. -/
def DataType.Stores (datatype : DataType) (v : ValueItem) : Prop :=
  match datatype, v with
  | _, .null => True
  | .integer, .integer _ | .double, .double _ | .datetime, .datetime _ | .str _, .str _ _
  | .blob _, .blob _ _ | .boolean, .boolean _ => True
  | _, _ => False

theorem notNull_above (h : v ≠ .null) : notNull.Above v := by
  cases v <;> first | contradiction | rfl

/-- A range without an upper bound, or one no value is in. -/
theorem contains_anyValue (h : v ≠ .null) :
    ({ lower := notNull, upper := .unbounded } : ColumnRange).contains v = true :=
  (contains_iff _ _).mpr ⟨notNull_above h, trivial⟩

/-- The range of a comparison in the order of keys. -/
theorem contains_plainRange {x : ValueItem} (hop : comparison op = true) (hcmp : x.cmp v = o)
    (ho : opHolds op o = true) (hx : x ≠ .null) : (plainRange op v).contains x = true := by
  rw [contains_iff]
  cases op with
  | eq =>
    have heq : x.cmp v = .eq := hcmp.trans ((opHolds_eq_iff o).mp ho)
    constructor
    · show (x.cmp v).isGE = true
      rw [heq]
      rfl
    · show (x.cmp v).isLE = true
      rw [heq]
      rfl
  | lt => exact ⟨notNull_above hx, hcmp.trans (Ordering.isLT_iff_eq_lt.mp ho)⟩
  | ltEq =>
    subst hcmp
    exact ⟨notNull_above hx, ho⟩
  | gt => exact ⟨hcmp.trans (Ordering.isGT_iff_eq_gt.mp ho), trivial⟩
  | gtEq =>
    subst hcmp
    exact ⟨ho, trivial⟩
  | _ => simp [comparison] at hop

theorem scaled_zero (h : Binary64.magnitudeBits d = 0) : Binary64.scaled d = 0 := by
  rw [Binary64.scaled, h, Binary64.unitsOf_zero]
  split <;> rfl

theorem eq_zero_of_magnitude (h : Binary64.magnitudeBits d = 0) :
    d = 0x8000000000000000 ∨ d = 0 := by
  have hkey := totalKey_zero h
  exact zero_of_totalKey hkey.1 hkey.2

/-- A double compared with a zero lies where the bounds at zero put it. -/
theorem contains_zeroRange {x : UInt64} (hop : comparison op = true)
    (hd : Binary64.magnitudeBits d = 0) (hord : compare (Binary64.scaled x) 0 = o)
    (ho : opHolds op o = true) :
    (doubleColumnRange op d).contains (.double x) = true := by
  have hneg : Binary64.scaled 0x8000000000000000 = 0 := scaled_zero rfl
  have hpos : Binary64.scaled 0 = 0 := scaled_zero rfl
  have hlt : o = .lt → totalCmp x 0x8000000000000000 = .lt ∧ totalCmp x 0 = .lt := by
    rintro rfl
    have hscaled : Binary64.scaled x < 0 := compare_lt_iff_lt.mp hord
    exact ⟨totalCmp_of_scaled_lt (hneg ▸ hscaled), totalCmp_of_scaled_lt (hpos ▸ hscaled)⟩
  have hgt : o = .gt → totalCmp x 0x8000000000000000 = .gt ∧ totalCmp x 0 = .gt := by
    rintro rfl
    have hscaled : 0 < Binary64.scaled x := compare_gt_iff_gt.mp hord
    exact ⟨totalCmp_of_scaled_gt (hneg ▸ hscaled), totalCmp_of_scaled_gt (hpos ▸ hscaled)⟩
  have heq : o = .eq → x = 0x8000000000000000 ∨ x = 0 := by
    rintro rfl
    have hscaled : Binary64.scaled x = Binary64.scaled 0 :=
      (compare_eq_iff_eq.mp hord).trans hpos.symm
    rcases (Binary64.scaled_eq_iff x 0).mp hscaled with rfl | ⟨hx, -⟩
    · exact Or.inr rfl
    · exact eq_zero_of_magnitude hx
  have hle : (o = .lt ∨ o = .eq) → (totalCmp x 0).isLE = true := by
    rintro (h | h)
    · rw [(hlt h).2]
      rfl
    · rcases heq h with rfl | rfl <;> decide
  have hge : (o = .gt ∨ o = .eq) → (totalCmp x 0x8000000000000000).isGE = true := by
    rintro (h | h)
    · rw [(hgt h).1]
      rfl
    · rcases heq h with rfl | rfl <;> decide
  have hcases : o = .lt ∨ o = .eq ∨ o = .gt := by
    cases o <;> simp
  have hnn : notNull.Above (.double x) := notNull_above (by simp)
  rw [doubleColumnRange, if_pos hd, contains_iff]
  cases op with
  | eq =>
    have h : o = .eq := (opHolds_eq_iff o).mp ho
    exact ⟨hge (Or.inr h), hle (Or.inr h)⟩
  | lt => exact ⟨hnn, (hlt (Ordering.isLT_iff_eq_lt.mp ho)).1⟩
  | ltEq =>
    refine ⟨hnn, hle ?_⟩
    cases o <;> simp [opHolds] at ho ⊢
  | gt => exact ⟨(hgt (Ordering.isGT_iff_eq_gt.mp ho)).2, trivial⟩
  | gtEq =>
    refine ⟨hge ?_, trivial⟩
    cases o <;> simp [opHolds] at ho ⊢
  | _ => simp [comparison] at hop

/-- A double compared with a double lies in the range. -/
theorem contains_doubleColumnRange {x : UInt64} (hop : comparison op = true)
    (hord : Binary64.partialCmp x d = some o) (ho : opHolds op o = true) :
    (doubleColumnRange op d).contains (.double x) = true := by
  have hcmp : compare (Binary64.scaled x) (Binary64.scaled d) = o := by
    unfold Binary64.partialCmp at hord
    split at hord
    · cases hord
    · exact Option.some.inj hord
  by_cases hd : Binary64.magnitudeBits d = 0
  · rw [scaled_zero hd] at hcmp
    exact contains_zeroRange hop hd hcmp ho
  · rw [doubleColumnRange, if_neg hd]
    apply contains_plainRange hop _ ho (by simp)
    show totalCmp x d = o
    cases o with
    | lt => exact totalCmp_of_scaled_lt (compare_lt_iff_lt.mp hcmp)
    | gt => exact totalCmp_of_scaled_gt (compare_gt_iff_gt.mp hcmp)
    | eq =>
      rcases (Binary64.scaled_eq_iff x d).mp (compare_eq_iff_eq.mp hcmp) with rfl | ⟨-, hz⟩
      · exact compare_eq_iff_eq.mpr rfl
      · exact absurd hz hd

theorem cmp_integer (a b : Int64) :
    (ValueItem.integer a).cmp (.integer b) = compare a.toInt b.toInt := by
  show compareOfLessAndEq a b = compareOfLessAndEq a.toInt b.toInt
  simp only [compareOfLessAndEq, Int64.lt_iff_toInt_lt, Int64.toInt_inj]

/-- The integers from a double's ceiling on. -/
theorem contains_ceil (hlow : -two63 ≤ Binary64.scaled d)
    (h : Binary64.scaled d ≤ Binary64.units i.toInt) :
    (plainRange .gtEq (.integer (Int64.ofInt (Binary64.ceil d)))).contains (.integer i) = true := by
  obtain ⟨hlt, hle⟩ := ceil_bounds d
  have hceil : Binary64.ceil d ≤ i.toInt := by
    have hunits := lt_of_units_lt (lt_of_lt_of_le hlt h)
    omega
  have hmin : -2 ^ 63 ≤ Binary64.ceil d := by
    rw [two63, ← units_neg] at hlow
    exact le_of_units_le (hlow.trans hle)
  have hlt63 : Binary64.ceil d < 2 ^ 63 := lt_of_le_of_lt hceil i.toInt_lt
  have hcmp := cmp_integer i (Int64.ofInt (Binary64.ceil d))
  rw [Int64.toInt_ofInt_of_le hmin hlt63] at hcmp
  apply contains_plainRange (by rfl) hcmp _ (by simp)
  exact Std.isGE_compare.mpr hceil

/-- The integers up to a double's floor. -/
theorem contains_floor (hhigh : Binary64.scaled d < two63)
    (h : Binary64.units i.toInt ≤ Binary64.scaled d) :
    (plainRange .ltEq (.integer (Int64.ofInt (Binary64.floor d)))).contains (.integer i) =
    true := by
  obtain ⟨hle, hlt⟩ := floor_bounds d
  have hfloor : i.toInt ≤ Binary64.floor d := by
    have hunits := lt_of_units_lt (lt_of_le_of_lt h hlt)
    omega
  have hmax : Binary64.floor d < 2 ^ 63 := lt_of_units_lt (lt_of_le_of_lt hle hhigh)
  have hcmp := cmp_integer i (Int64.ofInt (Binary64.floor d))
  rw [Int64.toInt_ofInt_of_le (i.le_toInt.trans hfloor) hmax] at hcmp
  apply contains_plainRange (by rfl) hcmp _ (by simp)
  exact Std.isLE_compare.mpr hfloor

/-- The integers a comparison with a whole double allows. -/
theorem contains_trunc (hop : comparison op = true) (hfrac : Binary64.fraction d = 0)
    (hlow : -two63 ≤ Binary64.scaled d) (hhigh : Binary64.scaled d < two63)
    (hcmp : compare (Binary64.units i.toInt) (Binary64.scaled d) = o) (ho : opHolds op o = true) :
    (plainRange op (.integer (Int64.ofInt (Binary64.trunc d)))).contains (.integer i) = true := by
  have hsum := Binary64.scaled_eq_trunc_add d
  rw [hfrac, add_zero] at hsum
  rw [hsum] at hlow hhigh hcmp
  rw [two63, ← units_neg] at hlow
  have hkey := cmp_integer i (Int64.ofInt (Binary64.trunc d))
  rw [Int64.toInt_ofInt_of_le (le_of_units_le hlow) (lt_of_units_lt hhigh)] at hkey
  rw [compare_units] at hcmp
  exact contains_plainRange hop (hkey.trans hcmp) ho (by simp)

/-- An integer compared with a double lies in the integers the comparison allows. -/
theorem contains_integerColumnRange (hop : comparison op = true)
    (hord : cmpIntDouble i d = some o) (ho : opHolds op o = true)
    (hr : integerColumnRange op d = some r) :
    r.contains (.integer i) = true := by
  have hcmp : Binary64.isNan d = false ∧
      compare (Binary64.units i.toInt) (Binary64.scaled d) = o := by
    rw [cmpIntDouble_eq] at hord
    cases hnan : Binary64.isNan d with
    | true => simp [hnan] at hord
    | false => exact ⟨rfl, by simpa [hnan] using hord⟩
  obtain ⟨hnan, hcmp⟩ := hcmp
  have hhigh : Binary64.units i.toInt < two63 := units_lt i.toInt_lt
  have hlow : -two63 ≤ Binary64.units i.toInt := by
    rw [two63, ← units_neg]
    exact units_le i.le_toInt
  have hnn : ValueItem.integer i ≠ .null := by simp
  -- a lower bound: the double is not above every integer, and may be below them all
  have hlower : ∀ whole : Prop, [Decidable whole] → (whole → Binary64.fraction d = 0 ∧ op = .gt) →
      Binary64.scaled d ≤ Binary64.units i.toInt →
      (if two63 ≤ Binary64.scaled d then emptyRange
        else if Binary64.scaled d < -two63 then { lower := notNull, upper := .unbounded }
        else if whole then plainRange .gt (.integer (Int64.ofInt (Binary64.trunc d)))
        else plainRange .gtEq (.integer (Int64.ofInt (Binary64.ceil d)))).contains
          (.integer i) = true := by
    intro whole _ hwhole hle
    have habove : ¬two63 ≤ Binary64.scaled d := not_le.mpr (lt_of_le_of_lt hle hhigh)
    rw [if_neg habove]
    by_cases hbelow : Binary64.scaled d < -two63
    · rw [if_pos hbelow]
      exact contains_anyValue hnn
    · rw [if_neg hbelow]
      by_cases hw : whole
      · obtain ⟨hfrac, rfl⟩ := hwhole hw
        rw [if_pos hw]
        exact contains_trunc rfl hfrac (not_lt.mp hbelow) (not_le.mp habove) hcmp ho
      · rw [if_neg hw]
        exact contains_ceil (not_lt.mp hbelow) hle
  -- an upper bound: the double is not below every integer, and may be above them all
  have hupper : ∀ whole : Prop, [Decidable whole] → (whole → Binary64.fraction d = 0 ∧ op = .lt) →
      Binary64.units i.toInt ≤ Binary64.scaled d →
      (if Binary64.scaled d < -two63 then emptyRange
        else if two63 ≤ Binary64.scaled d then { lower := notNull, upper := .unbounded }
        else if whole then plainRange .lt (.integer (Int64.ofInt (Binary64.trunc d)))
        else plainRange .ltEq (.integer (Int64.ofInt (Binary64.floor d)))).contains
          (.integer i) = true := by
    intro whole _ hwhole hle
    have hbelow : ¬Binary64.scaled d < -two63 := not_lt.mpr (hlow.trans hle)
    rw [if_neg hbelow]
    by_cases habove : two63 ≤ Binary64.scaled d
    · rw [if_pos habove]
      exact contains_anyValue hnn
    · rw [if_neg habove]
      by_cases hw : whole
      · obtain ⟨hfrac, rfl⟩ := hwhole hw
        rw [if_pos hw]
        exact contains_trunc rfl hfrac (not_lt.mp hbelow) (not_le.mp habove) hcmp ho
      · rw [if_neg hw]
        exact contains_floor (not_le.mp habove) hle
  have hge : (o = .gt ∨ o = .eq) → Binary64.scaled d ≤ Binary64.units i.toInt := by
    rintro (rfl | rfl)
    · exact le_of_lt (compare_gt_iff_gt.mp hcmp)
    · exact (compare_eq_iff_eq.mp hcmp).ge
  have hle : (o = .lt ∨ o = .eq) → Binary64.units i.toInt ≤ Binary64.scaled d := by
    rintro (rfl | rfl)
    · exact le_of_lt (compare_lt_iff_lt.mp hcmp)
    · exact (compare_eq_iff_eq.mp hcmp).le
  simp only [integerColumnRange, hnan, Bool.false_eq_true, if_false, Option.some.injEq,
    decide_eq_true_eq] at hr
  subst hr
  cases op with
  | eq =>
    have heq : o = .eq := (opHolds_eq_iff o).mp ho
    subst heq
    have hwhole := whole_of_equal hord
    have hb : ¬two63 ≤ Binary64.scaled d := not_le.mpr hwhole.high
    have hb' : ¬Binary64.scaled d < -two63 := not_lt.mpr hwhole.low
    simp only [hwhole.isFinite, hwhole.fraction, hb, hb', decide_false, Bool.not_false,
      Bool.and_true, beq_self_eq_true, if_true]
    exact contains_trunc hop hwhole.fraction hwhole.low hwhole.high hcmp ho
  | gt =>
    apply hlower _ _ (hge (by cases o <;> simp [opHolds] at ho ⊢))
    intro hw
    simp only [Bool.and_eq_true, beq_iff_eq] at hw
    exact ⟨hw.1.2, rfl⟩
  | gtEq =>
    apply hlower _ _ (hge (by cases o <;> simp [opHolds] at ho ⊢))
    intro hw
    simp at hw
  | lt =>
    apply hupper _ _ (hle (by cases o <;> simp [opHolds] at ho ⊢))
    intro hw
    simp only [Bool.and_eq_true, beq_iff_eq] at hw
    exact ⟨hw.1.2, rfl⟩
  | ltEq =>
    apply hupper _ _ (hle (by cases o <;> simp [opHolds] at ho ⊢))
    intro hw
    simp at hw
  | _ => simp [comparison] at hop

/-- A value a comparison with a constant is true of lies in the range it allows. -/
theorem conditionRange_sound {datatype : DataType} {x value : ValueItem}
    (hr : conditionRange datatype op value = some r) (hx : datatype.Stores x)
    (hord : sqlOrder x value = some o) (ho : opHolds op o = true)
    (hnull : ¬(x = .null ∨ value = .null)) : r.contains x = true := by
  have hxn : x ≠ .null := fun h => hnull (Or.inl h)
  have hvn : value ≠ .null := fun h => hnull (Or.inr h)
  have hop : comparison op = true := by
    by_contra hno
    simp [conditionRange, hno] at hr
  -- a constant of the column's own type
  have hplain : sqlOrder x value = some (x.cmp value) → r = plainRange op value →
      r.contains x = true := by
    intro hown hrange
    have hcmp : x.cmp value = o := Option.some.inj (hown.symm.trans hord)
    rw [hrange]
    exact contains_plainRange hop hcmp ho hxn
  cases datatype with
  | integer =>
    cases x <;> try simp only [DataType.Stores] at hx
    · exact absurd rfl hxn
    · rename_i i
      cases value <;> simp [conditionRange, hop] at hr
      · exact absurd rfl hvn
      · exact hplain rfl hr.symm
      · exact contains_integerColumnRange hop hord ho hr
  | double =>
    cases x <;> try simp only [DataType.Stores] at hx
    · exact absurd rfl hxn
    · rename_i b
      cases value <;> simp [conditionRange, hop] at hr
      · exact absurd rfl hvn
      · rename_i i
        obtain ⟨hbits, rfl⟩ := hr
        have hcmp : Binary64.partialCmp b (Binary64.ofInt i.toInt) = some o := by
          have hswap : (cmpIntDouble i b).map Ordering.swap = some o := hord
          rw [cmpIntDouble_eq] at hswap
          rw [Binary64.partialCmp, Binary64.isNan_ofInt hbits, Binary64.scaled_ofInt hbits,
            Bool.or_false]
          cases hnan : Binary64.isNan b with
          | true => simp [hnan] at hswap
          | false =>
            have hflip : compare (Binary64.scaled b) (Binary64.units i.toInt) =
                (compare (Binary64.units i.toInt) (Binary64.scaled b)).swap :=
              Std.OrientedCmp.eq_swap
            simpa [hnan, hflip] using hswap
        exact contains_doubleColumnRange hop hcmp ho
      · obtain ⟨-, rfl⟩ := hr
        exact contains_doubleColumnRange hop hord ho
  | datetime | str n | boolean =>
    cases x <;> try simp only [DataType.Stores] at hx
    · exact absurd rfl hxn
    · cases value <;> simp [conditionRange, hop] at hr
      · exact absurd rfl hvn
      · exact hplain rfl hr.symm
  | blob n | null | unsupported =>
    cases value <;> simp [conditionRange, hop] at hr
    exact absurd rfl hvn

/-! ## Conjuncts -/

section Conjuncts

variable {text : Text} {row : Row}

/-- An expression is true of a row. -/
def IsTrueOf (text : Text) (e : EvalExpr) (row : Row) : Prop :=
  ∃ e', e.eval text row = .ok (.boolean true, e')

variable {op : BinaryOp} {v : ValueItem} {e : EvalExpr} {c : Nat} {types : List DataType}
  {points : List ValueItem}

/-- An operator's operands are evaluated, then it is applied. -/
theorem eval_binary {l r e' : EvalExpr} (h : (EvalExpr.binary l op r).eval text row = .ok (v, e')) :
    ∃ a l' b r', l.eval text row = .ok (a, l') ∧ r.eval text row = .ok (b, r') ∧
      binary a b op = .ok v := by
  simp only [EvalExpr.eval, bind, Except.bind] at h
  cases hl : l.eval text row with
  | error e => simp [hl] at h
  | ok p =>
    cases hr : r.eval text row with
    | error e => simp [hl, hr] at h
    | ok q =>
      cases hb : binary p.1 q.1 op with
      | error e => simp [hl, hr, hb] at h
      | ok w =>
        simp only [hl, hr, hb, pure, Except.pure, Except.ok.injEq, Prod.mk.injEq] at h
        exact ⟨p.1, p.2, q.1, q.2, rfl, rfl, hb.trans (congrArg Except.ok h.1)⟩

/-- An `OR` is true only if one side is. -/
theorem logic_or {a b : ValueItem} (h : logic a b .or = .ok (.boolean true)) :
    a = .boolean true ∨ b = .boolean true := by
  cases a <;> cases b <;> simp [logic, truth, operandErrorMsg, bind, Except.bind, pure,
    Except.pure] at h ⊢ <;> grind

/-- A disjunction that is true has a term that is. -/
theorem orTerms_sound (h : IsTrueOf text e row) :
    ∃ t ∈ orTerms e, IsTrueOf text t row := by
  fun_induction orTerms e with
  | case1 lhs rhs ihl ihr =>
    obtain ⟨e', he⟩ := h
    obtain ⟨a, l', b, r', hl, hr, hor⟩ := eval_binary he
    have hlogic : logic a b .or = .ok (.boolean true) := by
      simpa [binary] using hor
    rcases logic_or hlogic with rfl | rfl
    · obtain ⟨t, ht, htrue⟩ := ihl ⟨l', hl⟩
      exact ⟨t, List.mem_append_left _ ht, htrue⟩
    · obtain ⟨t, ht, htrue⟩ := ihr ⟨r', hr⟩
      exact ⟨t, List.mem_append_right _ ht, htrue⟩
  | case2 other _ => exact ⟨other, List.mem_singleton_self other, h⟩

variable (text row) in
/-- A constant evaluates to itself. -/
theorem eval_constant (h : constant e = some v) :
    ∃ e', e.eval text row = .ok (v, e') := by
  unfold constant at h
  split at h
  · cases h
    exact ⟨_, by rw [EvalExpr.eval]⟩
  · rename_i i
    obtain ⟨j, hj, rfl⟩ := Option.map_eq_some_iff.mp h
    have hneg : j = -i := by
      unfold checked at hj
      split at hj
      · cases hj
        rw [Int64.ofInt_neg, Int64.ofInt_toInt]
      · cases hj
    exact ⟨_, by rw [hneg]; rfl⟩
  · cases h
    exact ⟨_, rfl⟩
  · cases h

theorem flipped_sound {op' : BinaryOp} {o : Ordering} (h : flipped op = some op')
    (ho : opHolds op o = true) : comparison op' = true ∧ opHolds op' o.swap = true := by
  cases op <;> cases h <;> cases o <;> simp_all [opHolds, comparison]

/-- What a comparison of a column with a constant says of the column's value. -/
theorem columnComparison_sound (h : columnComparison e = some (c, op, v))
    (htrue : IsTrueOf text e row) :
    ∃ o, sqlOrder (row.at c) v = some o ∧ opHolds op o = true ∧
      ¬(row.at c = .null ∨ v = .null) := by
  obtain ⟨e', he⟩ := htrue
  unfold columnComparison at h
  split at h
  · rename_i lhs op₀ rhs
    obtain ⟨a, l', b, r', hl, hr, hbin⟩ := eval_binary he
    by_cases hop : comparison op₀ = true
    · rw [if_neg (by simpa using hop)] at h
      obtain ⟨o, hord, ho⟩ := sqlOrder_of_binary hop hbin
      have hnull := ne_null_of_binary hop hbin
      split at h
      · rename_i c₀ other
        obtain ⟨w, hw, heq⟩ := Option.map_eq_some_iff.mp h
        cases heq
        obtain ⟨r'', hr'⟩ := eval_constant text row hw
        cases hr'.symm.trans hr
        have ha : a = row.at c := by
          simp only [EvalExpr.eval, Except.ok.injEq, Prod.mk.injEq] at hl
          exact hl.1.symm
        subst ha
        exact ⟨o, hord, ho, hnull⟩
      · rename_i other c₀ _
        simp only [bind, Option.bind_eq_some_iff, pure] at h
        obtain ⟨op', hflip, w, hw, heq⟩ := h
        cases heq
        obtain ⟨l'', hl'⟩ := eval_constant text row hw
        cases hl'.symm.trans hl
        have hb : b = row.at c := by
          simp only [EvalExpr.eval, Except.ok.injEq, Prod.mk.injEq] at hr
          exact hr.1.symm
        subst hb
        refine ⟨o.swap, ?_, (flipped_sound hflip ho).2, fun hn => hnull hn.symm⟩
        rw [sqlOrder_swap, hord]
        rfl
      · cases h
    · rw [if_pos (by simpa using hop)] at h
      cases h
  · cases h

/-- A row's values are of their columns' types. -/
def RowOf (types : List DataType) (row : Row) : Prop :=
  ∀ (c : Nat) (datatype : DataType), types[c]? = some datatype → datatype.Stores (row.at c)

/-- The set one comparison allows holds the column's value. -/
theorem comparison_holds {datatype : DataType} {r : ColumnRange} (hrow : RowOf types row)
    (hcol : columnComparison e = some (c, op, v)) (htype : types[c]? = some datatype)
    (hr : conditionRange datatype op v = some r) (htrue : IsTrueOf text e row) :
    (ColumnSet.fromRange r).Holds (row.at c) := by
  obtain ⟨o, hord, ho, hnull⟩ := columnComparison_sound hcol htrue
  exact holds_fromRange (conditionRange_sound hr (hrow c datatype htype) hord ho hnull)

/-- What `equalTerms` takes apart: the first term, and the rest with its column. -/
theorem equalTerms_cons {t : EvalExpr} {rest : List EvalExpr} {column column' : Option Nat}
    (h : equalTerms types (t :: rest) column = some (column', points)) :
    ∃ c op v datatype r p points', columnComparison t = some (c, op, v) ∧
      types[c]? = some datatype ∧ conditionRange datatype op v = some r ∧
      ColumnSet.fromRange r = .points p ∧
      equalTerms types rest (some c) = some (column', points') ∧ points = p ++ points' ∧
      (column = none ∨ column = some c) := by
  simp only [equalTerms, bind, Option.bind_eq_some_iff] at h
  obtain ⟨⟨c, op, v⟩, hcol, h⟩ := h
  split at h
  · cases h
  · rename_i hsame
    obtain ⟨datatype, htype, r, hr, h⟩ := by simpa only [Option.bind_eq_some_iff] using h
    split at h
    · rename_i p hp
      obtain ⟨⟨column₁, points₁⟩, hrest, heq⟩ := Option.bind_eq_some_iff.mp h
      cases heq
      refine ⟨c, op, v, datatype, r, p, points₁, hcol, htype, hr, hp, hrest, rfl, ?_⟩
      cases column with
      | none => exact Or.inl rfl
      | some c₀ =>
        right
        by_contra hne
        exact hsame (Or.inr (by simpa using fun h => hne (congrArg some h)))
    · cases h

theorem equalTerms_column {terms : List EvalExpr} {column' : Option Nat}
    (h : equalTerms types terms (some c) = some (column', points)) : column' = some c := by
  induction terms generalizing c points with
  | nil =>
    cases h
    rfl
  | cons t rest ih =>
    obtain ⟨c', -, -, -, -, -, points', -, -, -, -, hrest, -, hsame⟩ := equalTerms_cons h
    have hc : c = c' := by simpa using hsame
    rw [hc]
    exact ih hrest

/-- The points of an `OR` of equalities have the column's value where one is true. -/
theorem equalTerms_sound {terms : List EvalExpr} {column column' : Option Nat}
    (hrow : RowOf types row) (h : equalTerms types terms column = some (column', points))
    (htrue : ∃ t ∈ terms, IsTrueOf text t row) :
    ∃ c, column' = some c ∧ ∃ w ∈ points, w.cmp (row.at c) = .eq := by
  induction terms generalizing column points with
  | nil =>
    obtain ⟨t, ht, -⟩ := htrue
    cases ht
  | cons t rest ih =>
    obtain ⟨c, op, v, datatype, r, p, points', hcol, htype, hr, hp, hrest, rfl, -⟩ :=
      equalTerms_cons h
    obtain ⟨t', ht', htrue'⟩ := htrue
    rcases List.mem_cons.mp ht' with rfl | hmem
    · have hholds := comparison_holds hrow hcol htype hr htrue'
      rw [hp] at hholds
      obtain ⟨w, hw, hcmp⟩ := hholds
      exact ⟨c, equalTerms_column hrest, w, List.mem_append_left _ hw, hcmp⟩
    · obtain ⟨c', hc', w, hw, hcmp⟩ := ih hrest ⟨t', hmem, htrue'⟩
      exact ⟨c', hc', w, List.mem_append_right _ hw, hcmp⟩

/-- The set a conjunct that is true limits a column to holds the column's value. -/
theorem conditionSet_sound {f : EvalExpr} {set : ColumnSet} (hrow : RowOf types row)
    (h : conditionSet f types = some (c, set)) (htrue : IsTrueOf text f row) :
    set.Holds (row.at c) := by
  have hterm := orTerms_sound htrue
  unfold conditionSet at h
  split at h
  · rename_i single heq
    simp only [bind, Option.bind_eq_some_iff, pure] at h
    obtain ⟨⟨c', op, v⟩, hcol, datatype, htype, r, hr, hres⟩ := h
    cases hres
    obtain ⟨t, ht, htrue'⟩ := hterm
    rw [heq] at ht
    cases List.mem_singleton.mp ht
    exact comparison_holds hrow hcol htype hr htrue'
  · simp only [bind, Option.bind_eq_some_iff, pure] at h
    obtain ⟨⟨column, points⟩, hterms, c', hcolumn, hres⟩ := h
    cases hres
    obtain ⟨c'', hc'', hpoints⟩ := equalTerms_sound hrow hterms hterm
    cases hc''.symm.trans hcolumn
    exact holds_ofPoints hpoints

theorem columnSet_insert (sets : List (Nat × ColumnSet)) (c : Nat) (set : ColumnSet) (c' : Nat) :
    columnSet ((c, set) :: sets.filter (·.1 != c)) c' =
      if c' = c then some set else columnSet sets c' := by
  unfold columnSet
  by_cases h : c' = c
  · subst h
    simp
  · have hne : c ≠ c' := fun h' => h h'.symm
    rw [List.find?_cons_of_neg (by simpa using hne), if_neg h]
    congr 1
    induction sets with
    | nil => rfl
    | cons p rest ih =>
      by_cases hp : p.1 = c
      · have hp' : p.1 ≠ c' := hp ▸ hne
        rw [List.filter_cons_of_neg (by simpa using hp),
          List.find?_cons_of_neg (by simpa using hp')]
        exact ih
      · rw [List.filter_cons_of_pos (by simpa using hp), List.find?_cons, List.find?_cons, ih]

/-- One more condition that is true of a row keeps the sets holding its values. -/
theorem addCondition_sound {sets : List (Nat × ColumnSet)} {f : EvalExpr} (hrow : RowOf types row)
    (htrue : IsTrueOf text f row) (hsets : ∀ c s, columnSet sets c = some s → s.Holds (row.at c)) :
    ∀ c s, columnSet (addCondition types sets f) c = some s → s.Holds (row.at c) := by
  intro c s hs
  unfold addCondition at hs
  cases hcond : conditionSet f types with
  | none =>
    rw [hcond] at hs
    exact hsets c s hs
  | some p =>
    obtain ⟨column, limit⟩ := p
    have hlimit := conditionSet_sound hrow hcond htrue
    rw [hcond] at hs
    dsimp only at hs
    rw [columnSet_insert] at hs
    split at hs
    · rename_i hc
      subst hc
      cases Option.some.inj hs
      split
      · rename_i existing hexisting
        exact holds_intersect (hsets _ _ hexisting) hlimit
      · exact hlimit
    · exact hsets c s hs

/-- Each set the conditions limit a column to holds the value of a row they are all true
of. -/
theorem columnSets_sound {filters : List EvalExpr} {set : ColumnSet} (hrow : RowOf types row)
    (htrue : ∀ f ∈ filters, IsTrueOf text f row)
    (h : columnSet (columnSets filters types) c = some set) : set.Holds (row.at c) := by
  have hfold : ∀ (fs : List EvalExpr) (sets : List (Nat × ColumnSet)),
      (∀ f ∈ fs, IsTrueOf text f row) →
      (∀ c s, columnSet sets c = some s → s.Holds (row.at c)) →
      ∀ c s, columnSet (fs.foldl (addCondition types) sets) c = some s → s.Holds (row.at c) := by
    intro fs
    induction fs with
    | nil => exact fun sets _ hsets => hsets
    | cons f fs ih =>
      intro sets hfs hsets
      apply ih _ fun g hg => hfs g (List.mem_cons_of_mem f hg)
      exact addCondition_sound hrow (hfs f List.mem_cons_self) hsets
  exact hfold filters [] htrue (fun c s hs => by simp [columnSet] at hs) c set h

end Conjuncts

end SquealDb.Sql
