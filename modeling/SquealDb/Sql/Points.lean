import SquealDb.Sql.Allowed
import SquealDb.Sql.Equality

/-!
# The stored values equal to one value

`equal_points`: where it can tell, its points are exactly the values of the column's type
that `=` calls equal to the one asked for.  It cannot tell of an integer a double does not
hold exactly, nor of a `BLOB`; of a value nothing of the column's type equals, not
telling is harmless.
-/

namespace SquealDb.Sql

open Codec Lib

/-- The values of a column's type some stored values may equal and no points are told of:
an integer a double may round, and a `BLOB`. -/
def cannotTell (datatype : DataType) (v : ValueItem) : Bool :=
  match datatype, v with
  | .double, .integer i => decide (2 ^ 53 < i.toInt.natAbs)
  | .blob _, .blob _ _ => true
  | _, _ => false

variable {v w : ValueItem} {points : List ValueItem} {datatype : DataType}

/-- `=` finds its operands equal in the order of SQL, neither of them `NULL`. -/
theorem sqlOrder_of_sqlEqual {x : ValueItem} (h : sqlEqual x v) :
    sqlOrder x v = some .eq ∧ ¬(x = .null ∨ v = .null) := by
  obtain ⟨o, hord, ho⟩ := sqlOrder_of_binary (by rfl : comparison .eq = true) h
  rw [(opHolds_eq_iff o).mp ho] at hord
  exact ⟨hord, ne_null_of_binary rfl h⟩

/-- The points a set is made of are among the values given. -/
theorem mem_of_mem_ofPoints {values : List ValueItem}
    (h : ColumnSet.ofPoints values = .points points) (hw : w ∈ points) : w ∈ values := by
  rw [ColumnSet.ofPoints, ColumnSet.points.injEq] at h
  subst h
  have hsorted : w ∈ (values.mergeSort fun a b => (a.cmp b).isLE) → w ∈ values :=
    List.mem_mergeSort.mp
  apply hsorted
  clear hsorted
  generalize (values.mergeSort fun a b => (a.cmp b).isLE) = sorted at hw
  induction sorted with
  | nil => exact hw
  | cons u rest ih =>
    rw [List.foldr_cons] at hw
    split at hw
    · exact List.mem_cons.mpr (Or.inl (List.mem_singleton.mp hw))
    · rename_i k ks hk
      rw [hk] at ih
      split at hw
      · rcases List.mem_cons.mp hw with rfl | hks
        · exact List.mem_cons_self
        · exact List.mem_cons_of_mem u (ih (List.mem_cons_of_mem k hks))
      · rcases List.mem_cons.mp hw with rfl | hks
        · exact List.mem_cons_self
        · exact List.mem_cons_of_mem u (ih hks)

/-- An equality allows one value. -/
theorem fromRange_plain (v : ValueItem) :
    ColumnSet.fromRange (plainRange .eq v) = .points [v] := by
  have hself : v.cmp v = .eq := Std.ReflCmp.compare_self
  simp [ColumnSet.fromRange, plainRange, ColumnRange.equalValue, hself]

/-- An equality no value satisfies allows none. -/
theorem fromRange_empty : ColumnSet.fromRange emptyRange = .points [] := by decide +kernel

/-- An equality with a double zero allows both zeros. -/
theorem fromRange_zero {d : UInt64} (h : Binary64.magnitudeBits d = 0) :
    ColumnSet.fromRange (doubleColumnRange .eq d) =
      ColumnSet.ofPoints [.double 0x8000000000000000, .double 0] := by
  rw [doubleColumnRange, if_pos h]
  show ColumnSet.fromRange
    { lower := .included (.double 0x8000000000000000), upper := .included (.double 0) } = _
  rfl

/-- What an equality with a double allows a column of doubles. -/
theorem mem_double_points {d : UInt64}
    (h : ColumnSet.fromRange (doubleColumnRange .eq d) = .points points) (hw : w ∈ points) :
    ∃ x, w = .double x ∧
      (x = d ∨ Binary64.magnitudeBits x = 0 ∧ Binary64.magnitudeBits d = 0) := by
  by_cases hz : Binary64.magnitudeBits d = 0
  · rw [fromRange_zero hz] at h
    rcases List.mem_cons.mp (mem_of_mem_ofPoints h hw) with rfl | hw
    · exact ⟨_, rfl, Or.inr ⟨by decide, hz⟩⟩
    · exact ⟨0, List.mem_singleton.mp hw, Or.inr ⟨by decide, hz⟩⟩
  · rw [doubleColumnRange, if_neg hz, fromRange_plain] at h
    cases h
    exact ⟨d, List.mem_singleton.mp hw, Or.inl rfl⟩

/-- The range of an equality is a set of points. -/
theorem conditionRange_eq_points {r : ColumnRange} (h : conditionRange datatype .eq v = some r) :
    ∃ points, ColumnSet.fromRange r = .points points := by
  have hdouble : ∀ d : UInt64,
      ∃ points, ColumnSet.fromRange (doubleColumnRange .eq d) = .points points := by
    intro d
    by_cases hz : Binary64.magnitudeBits d = 0
    · exact ⟨_, fromRange_zero hz⟩
    · rw [doubleColumnRange, if_neg hz]
      exact ⟨_, fromRange_plain _⟩
  have hinteger : ∀ d : UInt64, integerColumnRange .eq d = some r →
      ∃ points, ColumnSet.fromRange r = .points points := by
    intro d hr
    unfold integerColumnRange at hr
    split at hr
    · cases hr
    · dsimp only at hr
      split at hr
      · cases hr
        exact ⟨_, fromRange_plain _⟩
      · cases hr
        exact ⟨_, fromRange_empty⟩
  cases datatype <;> cases v <;> simp [conditionRange, comparison] at h
  case integer.double d => exact hinteger d h
  case double.integer i =>
    obtain ⟨-, rfl⟩ := h
    exact hdouble _
  case double.double d =>
    obtain ⟨-, rfl⟩ := h
    exact hdouble _
  all_goals
    subst h
    first | exact ⟨_, fromRange_plain _⟩ | exact ⟨_, fromRange_empty⟩

theorem equalPoints_eq_some :
    equalPoints datatype v = some points ↔
      ∃ r, conditionRange datatype .eq v = some r ∧ ColumnSet.fromRange r = .points points := by
  unfold equalPoints
  cases hr : conditionRange datatype .eq v with
  | none => simp
  | some r =>
    obtain ⟨p, hp⟩ := conditionRange_eq_points hr
    simp [hp]

/-- A stored value equal to the one asked for is among the points. -/
theorem equalPoints_complete {x : ValueItem} (h : equalPoints datatype v = some points)
    (hx : datatype.Stores x) (heq : sqlEqual x v) :
    ∃ w ∈ points, w.cmp x = .eq := by
  obtain ⟨r, hr, hpoints⟩ := equalPoints_eq_some.mp h
  obtain ⟨hord, hnull⟩ := sqlOrder_of_sqlEqual heq
  have hholds := holds_fromRange (conditionRange_sound hr hx hord rfl hnull)
  rw [hpoints] at hholds
  exact hholds

/-- A value that is not `NULL` nor a NaN equals itself. -/
theorem sqlEqual_self (hv : v ≠ .null) (hd : ∀ x, v ≠ .double x) :
    sqlEqual v v := (sqlEqual_same hv hv rfl hd).mpr (ValueItem.eq_refl v)

/-- Every point is of the column's type and equal to the value asked for. -/
theorem equalPoints_sound (h : equalPoints datatype v = some points) (hw : w ∈ points) :
    datatype.Stores w ∧ sqlEqual w v := by
  obtain ⟨r, hr, hpoints⟩ := equalPoints_eq_some.mp h
  have hown : v ≠ .null → (∀ d, v ≠ .double d) → datatype.Stores v → r = plainRange .eq v →
      datatype.Stores w ∧ sqlEqual w v := by
    rintro hnull hd hstores rfl
    rw [fromRange_plain] at hpoints
    cases hpoints
    obtain rfl := List.mem_singleton.mp hw
    exact ⟨hstores, sqlEqual_self hnull hd⟩
  have hnone : r = emptyRange → datatype.Stores w ∧ sqlEqual w v := by
    rintro rfl
    rw [fromRange_empty] at hpoints
    cases hpoints
    cases hw
  cases datatype <;> cases v <;> simp [conditionRange, comparison] at hr
  case integer.double d =>
    unfold integerColumnRange at hr
    split at hr
    · cases hr
    · rename_i hnan
      dsimp only at hr
      split at hr
      · rename_i hwhole
        cases hr
        rw [fromRange_plain] at hpoints
        cases hpoints
        obtain rfl := List.mem_singleton.mp hw
        refine ⟨trivial, (sqlEqual_mixed (by simp) (by simp) rfl).mpr ?_⟩
        simp only [Bool.and_eq_true, beq_iff_eq, Bool.not_eq_true', decide_eq_false_iff_not,
          not_le, not_lt] at hwhole
        obtain ⟨⟨⟨-, hfrac⟩, hhigh⟩, hlow⟩ := hwhole
        have hsum := Binary64.scaled_eq_trunc_add d
        rw [hfrac, add_zero] at hsum
        rw [hsum] at hhigh hlow
        rw [two63, ← units_neg] at hlow
        rw [cmpIntDouble_eq_iff, hsum,
          Int64.toInt_ofInt_of_le (le_of_units_le hlow) (lt_of_units_lt hhigh)]
        exact ⟨by simpa using hnan, rfl⟩
      · cases hr
        exact hnone rfl
  case double.integer i =>
    obtain ⟨hbits, rfl⟩ := hr
    obtain ⟨x, rfl, hx⟩ := mem_double_points hpoints hw
    refine ⟨trivial, (sqlEqual_mixed (by simp) (by simp) rfl).mpr ?_⟩
    have hvalue : cmpIntDouble i x = some .eq := by
      rw [cmpIntDouble_eq_iff]
      rcases hx with rfl | ⟨hx, hzero⟩
      · exact ⟨Binary64.isNan_ofInt hbits, (Binary64.scaled_ofInt hbits).symm⟩
      · rw [← Binary64.scaled_ofInt hbits, scaled_zero hzero, scaled_zero hx]
        exact ⟨isNan_zero hx, rfl⟩
    rw [hvalue]
    rfl
  case double.double d =>
    obtain ⟨hnan, rfl⟩ := hr
    obtain ⟨x, rfl, hx⟩ := mem_double_points hpoints hw
    refine ⟨trivial, (sqlEqual_double x d).mpr ((ieeeEq_iff x d).mpr ?_)⟩
    rcases hx with rfl | ⟨hx, hzero⟩
    · exact ⟨hnan, hnan, Or.inl rfl⟩
    · exact ⟨isNan_zero hx, hnan, Or.inr ⟨hx, hzero⟩⟩
  all_goals
    first
    | exact hnone hr.symm
    | exact hown (by simp) (by simp) trivial hr.symm

/-- Where a stored value equals the one asked for, whether points are told of it. -/
theorem equalPoints_isSome {x : ValueItem} (hx : datatype.Stores x) (heq : sqlEqual x v) :
    (equalPoints datatype v).isSome = true ↔ cannotTell datatype v = false := by
  obtain ⟨hord, hnull⟩ := sqlOrder_of_sqlEqual heq
  have hsome : (equalPoints datatype v).isSome = true ↔
      (conditionRange datatype .eq v).isSome = true := by
    rw [Option.isSome_iff_exists, Option.isSome_iff_exists]
    constructor
    · rintro ⟨p, hp⟩
      obtain ⟨r, hr, -⟩ := equalPoints_eq_some.mp hp
      exact ⟨r, hr⟩
    · rintro ⟨r, hr⟩
      obtain ⟨p, hp⟩ := conditionRange_eq_points hr
      exact ⟨p, equalPoints_eq_some.mpr ⟨r, hr, hp⟩⟩
  rw [hsome]
  cases datatype <;> cases x <;> simp only [DataType.Stores] at hx <;>
    first
    | exact absurd (Or.inl rfl) hnull
    | skip
  all_goals
    cases v <;> simp [sqlOrder, keyOrder, ValueItem.typeRank] at hord <;>
      first
      | exact absurd (Or.inr rfl) hnull
      | simp [conditionRange, comparison, cannotTell]
  case integer.integer.double i d =>
    have hnan := ((cmpIntDouble_eq_iff i d).mp hord).1
    simp [integerColumnRange, hnan]
  case double.double.double a b =>
    unfold Binary64.partialCmp at hord
    split at hord
    · cases hord
    · rename_i hnan
      cases hb : Binary64.isNan b with
      | false => rfl
      | true => simp [hb] at hnan

end SquealDb.Sql
