import Mathlib.Order.BoundedOrder.Basic
import SquealDb.Codec.LentId

/-!
# Keys as trees tell them apart

The ids of `tuple.rs` under `DBIdType::cmp`, which ignores the capacity a string or blob
reserves. A tree has at most one row for all the ids that compare equal, so its key is
their tight form; the keys are then linearly ordered, from the record key of no fields up
to `Int(u64::MAX)`.
-/

namespace SquealDb.Tree

open SquealDb.Codec

/-- An id, of those that compare equal the tight one. -/
structure TreeKey where
  id : DBIdType
  tight_eq : id.tight = id
  deriving DecidableEq

namespace TreeKey

@[ext] theorem ext {a b : TreeKey} (h : a.id = b.id) : a = b := by
  cases a
  cases b
  cases h
  rfl

/-- The key of an id. -/
def ofId (id : DBIdType) : TreeKey where
  id := id.tight
  tight_eq := by
    cases id with
    | int n => rfl
    | record k => simp [DBIdType.tight, IndexKey.tight, ValueItem.tight_tight]

/-- The fields of a record key. -/
def fields (k : TreeKey) : Option IndexKey :=
  match k.id with
  | .record fields => some fields
  | .int _ => none

def cmp (a b : TreeKey) : Ordering := a.id.cmp b.id

instance : Std.TransCmp cmp where
  eq_swap {a b} := by
    rw [cmp, cmp, ← DBIdType.compare_encode, ← DBIdType.compare_encode]
    exact Std.OrientedCmp.eq_swap
  isLE_trans {a b c} hab hbc := by
    rw [cmp, ← DBIdType.compare_encode] at hab hbc ⊢
    exact Std.TransCmp.isLE_trans hab hbc

theorem cmp_eq_iff (a b : TreeKey) : a.cmp b = .eq ↔ a = b := by
  rw [cmp, DBIdType.cmp_eq_iff, DBIdType.eq_iff_tight, a.tight_eq, b.tight_eq]
  exact ⟨TreeKey.ext, fun h => h ▸ rfl⟩

instance : LinearOrder TreeKey where
  le a b := (a.cmp b).isLE
  lt a b := a.cmp b = .lt
  le_refl a := by
    show (a.cmp a).isLE = true
    rw [(cmp_eq_iff a a).mpr rfl]
    rfl
  le_trans a b c := Std.TransCmp.isLE_trans
  lt_iff_le_not_ge a b := by
    have hswap : b.cmp a = (a.cmp b).swap := Std.OrientedCmp.eq_swap
    rw [hswap]
    cases a.cmp b <;> simp
  le_antisymm a b hab hba := by
    have hswap : b.cmp a = (a.cmp b).swap := Std.OrientedCmp.eq_swap
    rw [hswap] at hba
    rw [← cmp_eq_iff]
    cases h : a.cmp b with
    | lt => simp [h] at hba
    | eq => rfl
    | gt => simp [h] at hab
  le_total a b := by
    have hswap : b.cmp a = (a.cmp b).swap := Std.OrientedCmp.eq_swap
    rw [hswap]
    cases a.cmp b <;> simp
  toDecidableLE a b := inferInstanceAs (Decidable ((a.cmp b).isLE = true))
  toDecidableEq := inferInstance
  toDecidableLT a b := inferInstanceAs (Decidable (a.cmp b = .lt))

theorem le_iff {a b : TreeKey} : a ≤ b ↔ (a.cmp b).isLE = true := Iff.rfl

instance : BoundedOrder TreeKey where
  top := ⟨.int (UInt64.ofNat (2 ^ 64 - 1)), rfl⟩
  le_top a := by
    obtain ⟨id, hid⟩ := a
    cases id with
    | int n =>
      have hle : n ≤ UInt64.ofNat (2 ^ 64 - 1) := by
        have hlt := n.toNat_lt
        rw [UInt64.le_iff_toNat_le]
        show n.toNat ≤ 18446744073709551615
        omega
      show (compare n (UInt64.ofNat (2 ^ 64 - 1))).isLE = true
      exact Std.isLE_compare.mpr hle
    | record k => rfl
  bot := ⟨.record [], rfl⟩
  bot_le a := by
    obtain ⟨id, hid⟩ := a
    cases id with
    | int n => rfl
    | record k => cases k <;> rfl

end TreeKey

end SquealDb.Tree
