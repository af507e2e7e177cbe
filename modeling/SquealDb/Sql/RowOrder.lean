import Mathlib.Data.List.Forall2
import Mathlib.Data.List.Sort
import Mathlib.Order.Antisymmetrization
import SquealDb.Codec.KeyOrder
import SquealDb.Sql.Rows

/-!
# The order of rows

On columns that each hold one type, or `NULL`, `cmp_by_fields` is a total order of the
rows up to ties: there it agrees with the order of keys, which is one on all rows.
Columns that mix integers and doubles are left out: an integer ties with both zeros, and
the zeros do not tie.
-/

namespace SquealDb.Sql

open Codec Lib

/-- One row is not behind another. -/
def rowLe (order : List SortField) (a b : Row) : Bool := (cmpByFields order a b).isLE

/-- The columns that rows are sorted by each hold one type, or `NULL`. -/
def OneType (order : List SortField) (rows : List Row) : Prop :=
  ∀ f ∈ order, ∃ rank : Nat, ∀ row ∈ rows,
    row.at f.index = .null ∨ (row.at f.index).typeRank = rank

variable {order : List SortField} {rows : List Row}

theorem OneType.subset {rows' : List Row} (h : OneType order rows) (hsub : ∀ r ∈ rows', r ∈ rows) :
    OneType order rows' := by
  intro f hf
  obtain ⟨rank, hrank⟩ := h f hf
  exact ⟨rank, fun row hrow => hrank row (hsub row hrow)⟩

/-- Where a sort field puts `NULL` among the values. -/
def SortField.nullRank (field : SortField) (v : ValueItem) : Nat :=
  if v = .null then (if field.nullFirst then 0 else 2) else 1

/-- The order of keys, either way round. -/
def SortField.valueCmp (field : SortField) : ValueItem → ValueItem → Ordering :=
  if field.asc then ValueItem.cmp else fun a b => ValueItem.cmp b a

/-- `SortField.cmp` by the order of keys. -/
def SortField.keyCmp (field : SortField) : ValueItem → ValueItem → Ordering :=
  compareLex (compareOn field.nullRank) field.valueCmp

instance (field : SortField) : Std.TransCmp field.valueCmp := by
  unfold SortField.valueCmp
  split
  · infer_instance
  · exact {
      eq_swap := Std.OrientedCmp.eq_swap
      isLE_trans := fun hab hbc => Std.TransCmp.isLE_trans hbc hab }

instance (field : SortField) : Std.TransCmp field.keyCmp := by
  unfold SortField.keyCmp
  infer_instance

/-- `cmp_by_fields` by the order of keys. -/
def cmpByKeys (order : List SortField) (lhs rhs : Row) : Ordering :=
  match order with
  | [] => .eq
  | field :: rest =>
    (field.keyCmp (lhs.at field.index) (rhs.at field.index)).then (cmpByKeys rest lhs rhs)

/-- Values of one type compare by value as keys do. -/
theorem cmpByValue_of_rank {a b : ValueItem} (h : a.typeRank = b.typeRank) :
    cmpByValue a b = a.cmp b := by
  have hmixed : cmpMixed a b = none := by
    cases a <;> cases b <;> simp [ValueItem.typeRank] at h <;> rfl
  unfold cmpByValue
  rw [hmixed]

theorem SortField.cmp_eq_keyCmp (field : SortField) {a b : ValueItem} {rank : Nat}
    (ha : a = .null ∨ a.typeRank = rank) (hb : b = .null ∨ b.typeRank = rank) :
    field.cmp a b = field.keyCmp a b := by
  by_cases hna : a = .null
  · subst hna
    by_cases hnb : b = .null
    · subst hnb
      have hself : field.keyCmp .null .null = .eq := Std.ReflCmp.compare_self
      rw [hself]
      rfl
    · have hcmp : field.cmp .null b = if field.nullFirst then .lt else .gt := by
        cases b <;> first | exact absurd rfl hnb | rfl
      rw [hcmp]
      cases hn : field.nullFirst <;>
        simp [SortField.keyCmp, SortField.nullRank, compareLex, compareOn, hnb, hn] <;> rfl
  · by_cases hnb : b = .null
    · subst hnb
      have hcmp : field.cmp a .null = if field.nullFirst then .gt else .lt := by
        cases a <;> first | exact absurd rfl hna | rfl
      rw [hcmp]
      cases hn : field.nullFirst <;>
        simp [SortField.keyCmp, SortField.nullRank, compareLex, compareOn, hna, hn] <;> rfl
    · have hrank : a.typeRank = b.typeRank :=
        (ha.resolve_left hna).trans (hb.resolve_left hnb).symm
      have hcmp : field.cmp a b =
          if field.asc then cmpByValue a b else (cmpByValue a b).swap := by
        cases a <;> first | exact absurd rfl hna | skip
        all_goals cases b <;> first | exact absurd rfl hnb | rfl
      have hswap : (a.cmp b).swap = b.cmp a := (Std.OrientedCmp.eq_swap).symm
      rw [hcmp, cmpByValue_of_rank hrank, hswap]
      cases hasc : field.asc <;>
        simp [SortField.keyCmp, SortField.nullRank, SortField.valueCmp, compareLex, compareOn,
          hna, hnb, hasc]

/-- On columns of one type rows compare as keys do. -/
theorem cmpByFields_eq (h : OneType order rows) {a b : Row} (ha : a ∈ rows) (hb : b ∈ rows) :
    cmpByFields order a b = cmpByKeys order a b := by
  induction order with
  | nil => rfl
  | cons field order ih =>
    obtain ⟨rank, hrank⟩ := h field List.mem_cons_self
    have hrest : OneType order rows := fun f hf => h f (List.mem_cons_of_mem field hf)
    rw [cmpByFields, cmpByKeys, ← ih hrest, field.cmp_eq_keyCmp (hrank a ha) (hrank b hb)]
    cases field.keyCmp (a.at field.index) (b.at field.index) <;> rfl

theorem cmpByKeys_swap (order : List SortField) (a b : Row) :
    cmpByKeys order b a = (cmpByKeys order a b).swap := by
  induction order with
  | nil => rfl
  | cons field order ih =>
    have hswap : field.keyCmp (b.at field.index) (a.at field.index) =
        (field.keyCmp (a.at field.index) (b.at field.index)).swap := Std.OrientedCmp.eq_swap
    rw [cmpByKeys, cmpByKeys, ih, hswap, Ordering.swap_then]

/-- The order of keys, as a test. -/
def keyLe (order : List SortField) (a b : Row) : Bool := (cmpByKeys order a b).isLE

theorem keyLe_trans (order : List SortField) (a b c : Row)
    (hab : keyLe order a b = true) (hbc : keyLe order b c = true) : keyLe order a c = true := by
  induction order with
  | nil => rfl
  | cons field order ih =>
    simp only [keyLe, cmpByKeys] at hab hbc ⊢
    generalize hx : field.keyCmp (a.at field.index) (b.at field.index) = x at hab
    generalize hy : field.keyCmp (b.at field.index) (c.at field.index) = y at hbc
    cases x with
    | gt => cases hab
    | lt =>
      cases y with
      | gt => cases hbc
      | lt =>
        rw [Std.TransCmp.lt_trans hx hy]
        rfl
      | eq =>
        rw [← Std.TransCmp.congr_right hy, hx]
        rfl
    | eq =>
      rw [Std.TransCmp.congr_left hx, hy]
      cases y with
      | gt => cases hbc
      | lt => rfl
      | eq => exact ih hab hbc

theorem keyLe_total (order : List SortField) (a b : Row) :
    (keyLe order a b || keyLe order b a) = true := by
  unfold keyLe
  rw [cmpByKeys_swap order a b]
  cases cmpByKeys order a b <;> rfl

/-- Rows in order. -/
def Sorted (order : List SortField) (rows : List Row) : Prop :=
  rows.Pairwise fun a b => rowLe order a b = true

theorem rowLe_eq (h : OneType order rows) {a b : Row} (ha : a ∈ rows) (hb : b ∈ rows) :
    rowLe order a b = keyLe order a b := by
  rw [rowLe, keyLe, cmpByFields_eq h ha hb]

theorem sorted_iff (h : OneType order rows) :
    Sorted order rows ↔ rows.Pairwise fun a b => keyLe order a b = true := by
  unfold Sorted
  constructor
  · intro hs
    exact hs.imp_of_mem fun ha hb hle => by rwa [← rowLe_eq h ha hb]
  · intro hs
    exact hs.imp_of_mem fun ha hb hle => by rwa [rowLe_eq h ha hb]

/-- Sorting rows puts them in order. -/
theorem sorted_mergeSort (h : OneType order rows) :
    Sorted order (rows.mergeSort (rowLe order)) := by
  have hmap := List.map_mergeSort (f := id) (l := rows) (r := rowLe order) (s := keyLe order)
    fun a ha b hb => rowLe_eq h ha hb
  rw [List.map_id, List.map_id] at hmap
  have hmem : ∀ r ∈ rows.mergeSort (rowLe order), r ∈ rows := fun r hr => List.mem_mergeSort.mp hr
  rw [sorted_iff (h.subset hmem), hmap]
  exact List.pairwise_mergeSort (keyLe_trans order) (keyLe_total order) rows

/-- Merging rows in order keeps them in order. -/
theorem sorted_merge {xs ys : List Row} (h : OneType order (xs ++ ys)) (hx : Sorted order xs)
    (hy : Sorted order ys) :
    Sorted order (xs.merge ys (rowLe order)) := by
  have hxs : OneType order xs := h.subset fun r hr => List.mem_append_left ys hr
  have hys : OneType order ys := h.subset fun r hr => List.mem_append_right xs hr
  have hmap : (xs.merge ys (rowLe order)).map id = (xs.map id).merge (ys.map id) (keyLe order) :=
    List.map_merge fun a ha b hb =>
      rowLe_eq h (List.mem_append_left ys ha) (List.mem_append_right xs hb)
  rw [List.map_id, List.map_id, List.map_id] at hmap
  have hmem : ∀ r ∈ xs.merge ys (rowLe order), r ∈ xs ++ ys :=
    fun r hr => (List.merge_perm_append _).mem_iff.mp hr
  rw [sorted_iff (h.subset hmem), hmap]
  exact List.pairwise_merge (keyLe_trans order) (keyLe_total order) xs ys
    ((sorted_iff hxs).mp hx) ((sorted_iff hys).mp hy)

/-! ## Ties -/

/-- Rows that the order does not tell apart. -/
def Tied (order : List SortField) (a b : Row) : Prop := cmpByFields order a b = .eq

theorem tied_iff (h : OneType order rows) {a b : Row} (ha : a ∈ rows) (hb : b ∈ rows) :
    Tied order a b ↔ keyLe order a b = true ∧ keyLe order b a = true := by
  unfold Tied keyLe
  rw [cmpByFields_eq h ha hb, cmpByKeys_swap order a b]
  cases cmpByKeys order a b <;> decide

/-- The order of keys, as a preorder of rows. -/
@[reducible] def keyPreorder (order : List SortField) : Preorder Row where
  le a b := keyLe order a b = true
  le_refl a := by
    have htotal := keyLe_total order a a
    rwa [Bool.or_self] at htotal
  le_trans := keyLe_trans order

/-- Two ordered lists of the same rows have rows that tie at each place. -/
theorem tied_of_sorted {xs ys : List Row} (h : OneType order xs) (hperm : xs.Perm ys)
    (hx : Sorted order xs) (hy : Sorted order ys) :
    List.Forall₂ (Tied order) xs ys := by
  let _ := keyPreorder order
  have hys : OneType order ys := h.subset fun r hr => hperm.mem_iff.mpr hr
  let cls : Row → Antisymmetrization Row (· ≤ ·) := toAntisymmetrization (· ≤ ·)
  have hx' : (xs.map cls).Pairwise (· ≤ ·) := List.pairwise_map.mpr ((sorted_iff h).mp hx)
  have hy' : (ys.map cls).Pairwise (· ≤ ·) := List.pairwise_map.mpr ((sorted_iff hys).mp hy)
  have heq : xs.map cls = ys.map cls := (hperm.map cls).eq_of_pairwise' hx' hy'
  have hcls : List.Forall₂ (fun a b => cls a = cls b) xs ys := by
    have hrefl : List.Forall₂ (· = ·) (xs.map cls) (ys.map cls) := by
      rw [List.forall₂_eq_eq_eq]
      exact heq
    rw [List.forall₂_map_left_iff, List.forall₂_map_right_iff] at hrefl
    exact hrefl
  rw [List.forall₂_iff_zip] at hcls ⊢
  refine ⟨hcls.1, fun {a b} hab => ?_⟩
  have ha : a ∈ xs := (List.of_mem_zip hab).1
  have hb : b ∈ xs := hperm.mem_iff.mpr (List.of_mem_zip hab).2
  exact (tied_iff h ha hb).mpr (Quotient.exact (hcls.2 hab))

end SquealDb.Sql
