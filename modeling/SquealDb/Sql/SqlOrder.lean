import SquealDb.Codec.KeyOrder
import SquealDb.Sql.Operators

/-!
# The order comparisons go by

A comparison that is true has found its operands in an order: that of numbers where
they are numbers, and that of keys otherwise.  Turning the operands round turns it
round.
-/

namespace SquealDb.Sql

open Codec Lib

/-- The operators that compare. -/
def comparison (op : BinaryOp) : Bool :=
  op == .eq || op == .lt || op == .ltEq || op == .gt || op == .gtEq

/-- The order of two values of one type. -/
def keyOrder (a b : ValueItem) : Option Ordering :=
  if a.typeRank = b.typeRank then some (a.cmp b) else none

/-- The order of two values of one type, or of two numbers. -/
def sqlOrder : ValueItem → ValueItem → Option Ordering
  | .integer i, .double d => cmpIntDouble i d
  | .double d, .integer i => (cmpIntDouble i d).map Ordering.swap
  | .double a, .double b => Binary64.partialCmp a b
  | a, b => keyOrder a b

/-- An operator is true of operands in an order. -/
def opHolds (op : BinaryOp) (o : Ordering) : Bool :=
  match op with
  | .eq => o == .eq
  | .lt => o.isLT
  | .ltEq => o.isLE
  | .gt => o.isGT
  | .gtEq => o.isGE
  | _ => false

theorem opHolds_eq_iff (o : Ordering) : opHolds .eq o = true ↔ o = .eq := beq_iff_eq

variable {op : BinaryOp} {a b : ValueItem}

theorem not_logic (h : comparison op = true) : ¬(op = .and ∨ op = .or) := by
  cases op <;> simp [comparison] at h ⊢

/-- A comparison that is true has no `NULL` operand. -/
theorem ne_null_of_binary (hop : comparison op = true) (h : binary a b op = .ok (.boolean true)) :
    ¬(a = .null ∨ b = .null) := by
  intro hnull
  unfold binary at h
  rw [if_neg (not_logic hop), if_pos hnull] at h
  cases h

/-- The order `compare` finds. -/
theorem sqlOrder_of_compareValues {o : Ordering} (h : compareValues a b op = .ok o) :
    sqlOrder a b = some o := by
  by_cases hmix : (cmpMixed a b).isSome = true
  · obtain ⟨ord, hord⟩ := Option.isSome_iff_exists.mp hmix
    have hsome : ord = some o := by
      simp only [compareValues, hord] at h
      cases ord with
      | none => simp [operandErrorMsg] at h
      | some o' => simpa using h
    subst hsome
    cases a <;> cases b <;> simp only [cmpMixed, reduceCtorEq] at hord <;>
      exact Option.some.inj hord
  · have hnone : cmpMixed a b = none := Option.not_isSome_iff_eq_none.mp hmix
    by_cases htype : a.typeRank = b.typeRank
    · have hsame : sameType a b op = .ok () := if_pos htype
      simp only [compareValues, hnone, hsame, bind, Except.bind] at h
      cases a <;> cases b <;> simp only [ValueItem.typeRank, operandErrorMsg] at htype h <;>
        first | omega | cases h | skip
      · rfl
      · rename_i x y
        show Binary64.partialCmp x y = some o
        cases hc : Binary64.partialCmp x y with
        | none => simp [hc] at h
        | some o' => simpa [hc] using h
      all_goals rfl
    · have hsame : sameType a b op ≠ .ok () := by
        rw [sameType, if_neg htype]
        simp
      cases hs : sameType a b op with
      | ok u => exact absurd hs hsame
      | error e => simp [compareValues, hnone, hs, bind, Except.bind] at h

/-- Values `=` calls equal are so in the order. -/
theorem sqlOrder_of_valuesEqual (h : valuesEqual a b op = .ok true) :
    sqlOrder a b = some .eq := by
  by_cases hmix : (cmpMixed a b).isSome = true
  · obtain ⟨ord, hord⟩ := Option.isSome_iff_exists.mp hmix
    have hsome : ord = some .eq := by simpa [valuesEqual, hord] using h
    subst hsome
    cases a <;> cases b <;> simp only [cmpMixed, reduceCtorEq] at hord <;>
      exact Option.some.inj hord
  · have hnone : cmpMixed a b = none := Option.not_isSome_iff_eq_none.mp hmix
    by_cases htype : a.typeRank = b.typeRank
    · have hsame : sameType a b op = .ok () := if_pos htype
      simp only [valuesEqual, hnone, hsame, bind, Except.bind, pure, Except.pure,
        Except.ok.injEq] at h
      by_cases hd : ∃ x y, a = .double x ∧ b = .double y
      · obtain ⟨x, y, rfl, rfl⟩ := hd
        exact beq_iff_eq.mp h
      · have heq : a.eq b = true := by
          cases a <;> cases b <;> first | exact h | exact absurd ⟨_, _, rfl, rfl⟩ hd
        have hcmp : a.cmp b = .eq := (ValueItem.cmp_eq_iff a b).mpr heq
        cases a <;> cases b <;> simp only [ValueItem.typeRank] at htype <;>
          first | omega | exact absurd ⟨_, _, rfl, rfl⟩ hd | exact congrArg some hcmp
    · have hsame : sameType a b op ≠ .ok () := by
        rw [sameType, if_neg htype]
        simp
      cases hs : sameType a b op with
      | ok u => exact absurd hs hsame
      | error e => simp [valuesEqual, hnone, hs, bind, Except.bind] at h

/-- A comparison that is true has found its operands in an order it is true of. -/
theorem sqlOrder_of_binary (hop : comparison op = true) (h : binary a b op = .ok (.boolean true)) :
    ∃ o, sqlOrder a b = some o ∧ opHolds op o = true := by
  have hnull := ne_null_of_binary hop h
  unfold binary at h
  rw [if_neg (not_logic hop), if_neg hnull] at h
  have hcompare : ∀ f : Ordering → Bool,
      (do return ValueItem.boolean (f (← compareValues a b op))) =
        (Except.ok (.boolean true) : Except SchemaError ValueItem) →
      ∃ o, sqlOrder a b = some o ∧ f o = true := by
    intro f hf
    cases hc : compareValues a b op with
    | error e => simp [hc, bind, Except.bind] at hf
    | ok o =>
      refine ⟨o, sqlOrder_of_compareValues hc, ?_⟩
      simpa [hc, bind, Except.bind, pure, Except.pure] using hf
  cases op with
  | eq =>
    cases hv : valuesEqual a b .eq with
    | error e => simp [hv, bind, Except.bind] at h
    | ok r =>
      have hr : r = true := by
        simpa [hv, bind, Except.bind, pure, Except.pure] using h
      subst hr
      exact ⟨.eq, sqlOrder_of_valuesEqual hv, rfl⟩
  | lt => exact hcompare Ordering.isLT h
  | ltEq => exact hcompare Ordering.isLE h
  | gt => exact hcompare Ordering.isGT h
  | gtEq => exact hcompare Ordering.isGE h
  | _ => simp [comparison] at hop

theorem keyOrder_swap (a b : ValueItem) : keyOrder b a = (keyOrder a b).map Ordering.swap := by
  unfold keyOrder
  by_cases h : a.typeRank = b.typeRank
  · have hswap : b.cmp a = (a.cmp b).swap := Std.OrientedCmp.eq_swap
    rw [if_pos h, if_pos h.symm, hswap]
    rfl
  · rw [if_neg h, if_neg fun h' => h h'.symm]
    rfl

/-- The order the other way round. -/
theorem sqlOrder_swap (a b : ValueItem) : sqlOrder b a = (sqlOrder a b).map Ordering.swap := by
  cases a with
  | integer i =>
    cases b with
    | double d => rfl
    | _ => exact keyOrder_swap _ _
  | double x =>
    cases b with
    | integer i =>
      show cmpIntDouble i x = ((cmpIntDouble i x).map Ordering.swap).map Ordering.swap
      cases cmpIntDouble i x with
      | none => rfl
      | some o => cases o <;> rfl
    | double y =>
      show Binary64.partialCmp y x = (Binary64.partialCmp x y).map Ordering.swap
      unfold Binary64.partialCmp
      rw [Bool.or_comm]
      cases Binary64.isNan x || Binary64.isNan y with
      | true => rfl
      | false =>
        have hswap : compare (Binary64.scaled y) (Binary64.scaled x) =
            (compare (Binary64.scaled x) (Binary64.scaled y)).swap :=
          Std.OrientedCmp.eq_swap
        exact congrArg some hswap
    | _ => exact keyOrder_swap _ _
  | _ => cases b <;> exact keyOrder_swap _ _

end SquealDb.Sql
