import Mathlib.Data.List.Dedup
import SquealDb.Sql.Partition

/-!
# Where a value belongs

The partitions a checked list has are apart: the bounds of a `RANGE` table's increase,
a `LIST` table's name no value twice and one of them at most is the default.  So the
first partition `route` finds is the only one whose bound admits the value, and the
partitions `mayHold` keeps have every value a set holds.
-/

namespace SquealDb.Sql

open Codec Lib

/-! ## Bounds -/

/-- A `RANGE` bound is above a value. -/
def PartitionBound.Above (b : PartitionBound) (v : ValueItem) : Prop :=
  match b with
  | .lessThan bound => v.cmp bound = .lt
  | .maxValue => True
  | _ => False

/-- A `LIST` bound names a value. -/
def PartitionBound.Names (b : PartitionBound) (v : ValueItem) : Prop :=
  match b with
  | .in values => ∃ w ∈ values, w.cmp v = .eq
  | _ => False

theorem boundAbove_iff (v : ValueItem) (p : Partition) :
    Partitioning.boundAbove v p = true ↔ p.bound.Above v := by
  unfold Partitioning.boundAbove PartitionBound.Above
  cases p.bound <;> simp

theorem names_iff (v : ValueItem) (p : Partition) :
    Partitioning.names v p = true ↔ p.bound.Names v := by
  unfold Partitioning.names PartitionBound.Names
  cases p.bound <;> simp

/-- What the bounds of a partition say of the values in it: a `RANGE` partition has those
from the end of the one before up to its own, a `LIST` partition those it names, the
default those no other names. -/
def Partitioning.Admits (spec : Partitioning) (partitions : List Partition) (i : Nat)
    (v : ValueItem) : Prop :=
  ∃ p, partitions[i]? = some p ∧
    match spec.kind with
    | .range =>
      p.bound.Above v ∧
        ∀ j q bound, i = j + 1 → partitions[j]? = some q → q.bound = .lessThan bound →
          (v.cmp bound).isGE = true
    | .list =>
      p.bound.Names v ∨ p.bound = .default ∧ ∀ q ∈ partitions, ¬q.bound.Names v

/-! ## What `check` has of a list -/

variable {v : ValueItem} {i : Nat}

/-- One bound is above another, whichever values it is above. -/
theorem above_of_increasing {a b : PartitionBound} (h : Partitioning.increasing a b = true)
    (ha : a.Above v) : b.Above v := by
  cases a <;> cases b <;> simp only [Partitioning.increasing, Bool.false_eq_true] at h
  · exact Std.TransCmp.lt_trans ha (beq_iff_eq.mp h)
  · trivial

theorem increasing_trans {a b c : PartitionBound} (hab : Partitioning.increasing a b = true)
    (hbc : Partitioning.increasing b c = true) : Partitioning.increasing a c = true := by
  cases a <;> cases b <;> simp only [Partitioning.increasing, Bool.false_eq_true] at hab <;>
    cases c <;> simp only [Partitioning.increasing, Bool.false_eq_true] at hbc ⊢
  exact beq_iff_eq.mpr (Std.TransCmp.lt_trans (beq_iff_eq.mp hab) (beq_iff_eq.mp hbc))

/-- The bounds of a checked `RANGE` table increase. -/
theorem checkRange_pairwise {partitions : List Partition}
    (h : Partitioning.checkRange partitions = .ok ()) :
    partitions.Pairwise fun p q => Partitioning.increasing p.bound q.bound = true := by
  induction partitions with
  | nil => exact List.Pairwise.nil
  | cons p rest ih =>
    cases rest with
    | nil => exact List.pairwise_singleton _ p
    | cons q rest =>
      rw [Partitioning.checkRange] at h
      split at h
      · rename_i hpq
        have hrest := ih h
        apply List.Pairwise.cons _ hrest
        intro r hr
        rcases List.mem_cons.mp hr with rfl | hr
        · exact hpq
        · exact increasing_trans hpq (List.rel_of_pairwise_cons hrest hr)
      · cases h

/-- Two `LIST` partitions name no value both and are not both the default. -/
structure Apart (a b : PartitionBound) : Prop where
  names : ∀ v, a.Names v → ¬b.Names v
  default : a = .default → b ≠ .default

variable {text : Text}

/-- The values a partition adds to those seen are none of them. -/
theorem checkValues_spec {name : String} {seen values after : List ValueItem}
    (h : Partitioning.checkValues text name seen values = .ok after) :
    after = seen ++ values ∧ ∀ v ∈ values, ∀ s ∈ seen, s.cmp v ≠ .eq := by
  induction values generalizing seen with
  | nil =>
    obtain rfl : seen = after := Except.ok.inj h
    exact ⟨(List.append_nil seen).symm, fun v hv => absurd hv (List.not_mem_nil)⟩
  | cons v rest ih =>
    rw [Partitioning.checkValues] at h
    split at h
    · cases h
    · rename_i hnew
      obtain ⟨hseen, hrest⟩ := ih h
      constructor
      · rw [hseen, List.append_assoc]
        rfl
      · intro u hu s hs
        rcases List.mem_cons.mp hu with rfl | hu
        · intro heq
          exact hnew (List.any_eq_true.mpr ⟨s, hs, beq_iff_eq.mpr heq⟩)
        · exact hrest u hu s (List.mem_append_left _ hs)

/-- The partitions of a checked `LIST` table are apart, and name none of the values seen
before them. -/
theorem checkList_spec {partitions : List Partition} {seen : List ValueItem} {default : Bool}
    (h : Partitioning.checkList text seen default partitions = .ok ()) :
    (partitions.Pairwise fun p q => Apart p.bound q.bound) ∧
      (∀ p ∈ partitions, ∀ s ∈ seen, ¬p.bound.Names s) ∧
      (default = true → ∀ p ∈ partitions, p.bound ≠ .default) := by
  induction partitions generalizing seen default with
  | nil =>
    exact ⟨List.Pairwise.nil, fun p hp => absurd hp (List.not_mem_nil),
      fun _ p hp => absurd hp (List.not_mem_nil)⟩
  | cons p rest ih =>
    unfold Partitioning.checkList at h
    split at h
    · rename_i values hbound
      split at h
      · cases h
      · cases hvalues : Partitioning.checkValues text p.name seen values with
        | error e => simp [hvalues, bind, Except.bind] at h
        | ok after =>
          simp only [hvalues, bind, Except.bind] at h
          obtain ⟨hapart, hseen, hdefault⟩ := ih h
          obtain ⟨rfl, hnew⟩ := checkValues_spec hvalues
          refine ⟨List.Pairwise.cons ?_ hapart, ?_, ?_⟩
          · intro q hq
            refine { names := ?_, default := ?_ }
            · rintro v hv
              rw [hbound] at hv
              obtain ⟨w, hw, hwv⟩ := hv
              intro hqv
              have hqw : q.bound.Names w := by
                unfold PartitionBound.Names at hqv ⊢
                split at hqv
                · obtain ⟨u, hu, huv⟩ := hqv
                  exact ⟨u, hu, Std.TransCmp.eq_trans huv (Std.OrientedCmp.eq_symm hwv)⟩
                · exact hqv
              exact hseen q hq w (List.mem_append_right _ hw) hqw
            · intro hdef
              simp [hbound] at hdef
          · intro q hq s hs
            rcases List.mem_cons.mp hq with rfl | hq
            · rw [hbound]
              rintro ⟨w, hw, hws⟩
              exact hnew w hw s hs (Std.OrientedCmp.eq_symm hws)
            · exact hseen q hq s (List.mem_append_left _ hs)
          · intro hd q hq
            rcases List.mem_cons.mp hq with rfl | hq
            · simp [hbound]
            · exact hdefault hd q hq
    · rename_i hbound
      split at h
      · cases h
      · rename_i hd
        obtain ⟨hapart, hseen, hdefault⟩ := ih h
        refine ⟨List.Pairwise.cons ?_ hapart, ?_, ?_⟩
        · intro q hq
          refine { names := ?_, default := fun _ => hdefault rfl q hq }
          intro v hv
          rw [hbound] at hv
          exact False.elim hv
        · intro q hq s hs
          rcases List.mem_cons.mp hq with rfl | hq
          · rw [hbound]
            exact id
          · exact hseen q hq s hs
        · intro h'
          exact absurd h' hd
    · cases h

/-! ## `route` -/

variable {spec : Partitioning} {partitions : List Partition}

/-- The first element a test holds of. -/
private theorem findIdx?_iff {α : Type} (xs : List α) (test : α → Bool) (i : Nat) :
    xs.findIdx? test = some i ↔
      (∃ x, xs[i]? = some x ∧ test x = true) ∧
        ∀ j x, j < i → xs[j]? = some x → test x = false := by
  rw [List.findIdx?_eq_some_iff_getElem]
  constructor
  · rintro ⟨hi, htest, hbefore⟩
    refine ⟨⟨xs[i], List.getElem?_eq_getElem hi, htest⟩, ?_⟩
    intro j x hj hx
    obtain ⟨hlt, rfl⟩ := List.getElem?_eq_some_iff.mp hx
    exact Bool.eq_false_iff.mpr (hbefore j hj)
  · rintro ⟨⟨x, hx, htest⟩, hbefore⟩
    obtain ⟨hlt, rfl⟩ := List.getElem?_eq_some_iff.mp hx
    refine ⟨hlt, htest, ?_⟩
    intro j hj
    rw [hbefore j _ hj (List.getElem?_eq_getElem (hj.trans hlt))]
    exact Bool.false_ne_true

/-- Elements of a list that are pairwise related, at their places. -/
private theorem rel_of_getElem? {α : Type} {R : α → α → Prop} {xs : List α} (h : xs.Pairwise R)
    {j : Nat} {x y : α} (hij : i < j) (hx : xs[i]? = some x) (hy : xs[j]? = some y) :
    R x y := by
  obtain ⟨hi, rfl⟩ := List.getElem?_eq_some_iff.mp hx
  obtain ⟨hj, rfl⟩ := List.getElem?_eq_some_iff.mp hy
  exact List.pairwise_iff_getElem.mp h i j hi hj hij

/-- The bounds of a checked table's partitions. -/
theorem check_spec (h : spec.check text partitions = .ok ()) :
    match spec.kind with
    | .range => partitions.Pairwise fun p q => Partitioning.increasing p.bound q.bound = true
    | .list => partitions.Pairwise fun p q => Apart p.bound q.bound := by
  unfold Partitioning.check at h
  split at h
  · cases h
  · cases hnames : Partitioning.checkNames [] partitions with
    | error e => simp [hnames, bind, Except.bind] at h
    | ok u =>
      simp only [hnames, bind, Except.bind] at h
      cases hkind : spec.kind with
      | range =>
        rw [hkind] at h
        exact checkRange_pairwise h
      | list =>
        rw [hkind] at h
        exact (checkList_spec h).1

/-- The first bound above a value is the one after a bound that is not. -/
theorem range_route_iff
    (h : partitions.Pairwise fun p q => Partitioning.increasing p.bound q.bound = true) :
    partitions.findIdx? (Partitioning.boundAbove v) = some i ↔
      ∃ p, partitions[i]? = some p ∧ p.bound.Above v ∧
        ∀ j q bound, i = j + 1 → partitions[j]? = some q → q.bound = .lessThan bound →
          (v.cmp bound).isGE = true := by
  rw [findIdx?_iff]
  constructor
  · rintro ⟨⟨p, hp, habove⟩, hbefore⟩
    refine ⟨p, hp, (boundAbove_iff v p).mp habove, ?_⟩
    rintro j q bound rfl hq hbound
    have hnot := hbefore j q (Nat.lt_succ_self j) hq
    unfold Partitioning.boundAbove at hnot
    rw [hbound] at hnot
    cases hc : v.cmp bound <;> simp [hc] at hnot ⊢
  · rintro ⟨p, hp, habove, hprev⟩
    refine ⟨⟨p, hp, (boundAbove_iff v p).mpr habove⟩, ?_⟩
    intro j q hj hq
    -- a bound above the value further down would put the one just before above it too
    cases i with
    | zero => exact absurd hj (Nat.not_lt_zero j)
    | succ k =>
      obtain ⟨hlt, -⟩ := List.getElem?_eq_some_iff.mp hp
      have hk : partitions[k]? = some partitions[k] := List.getElem?_eq_getElem (by omega)
      have hkp := rel_of_getElem? h (Nat.lt_succ_self k) hk hp
      have hnotk : ¬partitions[k].bound.Above v := by
        intro hak
        cases hb : partitions[k].bound with
        | lessThan bound =>
          have hge := hprev k _ bound rfl hk hb
          rw [hb] at hak
          rw [show v.cmp bound = .lt from hak] at hge
          cases hge
        | all | maxValue | «in» values | default =>
          rw [hb] at hkp
          cases p.bound <;> simp [Partitioning.increasing] at hkp
      by_contra hq'
      have hqa : q.bound.Above v := (boundAbove_iff v q).mp (Bool.eq_true_of_not_eq_false hq')
      rcases Nat.lt_succ_iff_lt_or_eq.mp hj with hjk | rfl
      · exact hnotk (above_of_increasing (rel_of_getElem? h hjk hq hk) hqa)
      · obtain rfl := Option.some.inj (hq.symm.trans hk)
        exact hnotk hqa

/-- The partition that names a value, or else the default. -/
theorem list_route_iff (h : partitions.Pairwise fun p q => Apart p.bound q.bound) :
    (partitions.findIdx? (Partitioning.names v)).or
        (partitions.findIdx? fun p => p.bound == .default) = some i ↔
      ∃ p, partitions[i]? = some p ∧
        (p.bound.Names v ∨ p.bound = .default ∧ ∀ q ∈ partitions, ¬q.bound.Names v) := by
  have hfirst : ∀ {j k : Nat} {p q : Partition}, j < k → partitions[j]? = some p →
      partitions[k]? = some q → Apart p.bound q.bound :=
    fun hjk hp hq => rel_of_getElem? h hjk hp hq
  constructor
  · intro hroute
    rcases Option.or_eq_some_iff.mp hroute with hnames | ⟨hnone, hdefault⟩
    · obtain ⟨⟨p, hp, hname⟩, -⟩ := (findIdx?_iff _ _ _).mp hnames
      exact ⟨p, hp, Or.inl ((names_iff v p).mp hname)⟩
    · obtain ⟨⟨p, hp, hd⟩, -⟩ := (findIdx?_iff _ _ _).mp hdefault
      refine ⟨p, hp, Or.inr ⟨beq_iff_eq.mp hd, ?_⟩⟩
      intro q hq hname
      have hno := List.findIdx?_eq_none_iff.mp hnone q hq
      rw [(names_iff v q).mpr hname] at hno
      cases hno
  · rintro ⟨p, hp, hname | ⟨hdefault, hnone⟩⟩
    · apply Option.or_eq_some_iff.mpr
      left
      refine (findIdx?_iff _ _ _).mpr ⟨⟨p, hp, (names_iff v p).mpr hname⟩, ?_⟩
      intro j q hj hq
      by_contra hname'
      exact (hfirst hj hq hp).names v
        ((names_iff v q).mp (Bool.eq_true_of_not_eq_false hname')) hname
    · apply Option.or_eq_some_iff.mpr
      right
      constructor
      · apply List.findIdx?_eq_none_iff.mpr
        intro q hq
        by_contra hname
        exact hnone q hq ((names_iff v q).mp (Bool.eq_true_of_not_eq_false hname))
      · refine (findIdx?_iff _ _ _).mpr ⟨⟨p, hp, beq_iff_eq.mpr hdefault⟩, ?_⟩
        intro j q hj hq
        by_contra hd
        exact (hfirst hj hq hp).default
          (beq_iff_eq.mp (Bool.eq_true_of_not_eq_false hd)) hdefault

/-- In a checked table a value routes to the partition whose bound admits it. -/
theorem route_eq_some_iff (h : spec.check text partitions = .ok ()) (v : ValueItem) (i : Nat) :
    spec.route partitions v = some i ↔ spec.Admits partitions i v := by
  have hbounds := check_spec h
  unfold Partitioning.route Partitioning.Admits
  cases hkind : spec.kind with
  | range =>
    rw [hkind] at hbounds
    exact range_route_iff hbounds
  | list =>
    rw [hkind] at hbounds
    exact list_route_iff hbounds

/-- No two partitions of a checked table admit one value. -/
theorem admits_unique (h : spec.check text partitions = .ok ()) {j : Nat}
    (hi : spec.Admits partitions i v) (hj : spec.Admits partitions j v) : i = j := by
  rw [← route_eq_some_iff h] at hi hj
  exact Option.some.inj (hi.symm.trans hj)

/-- Values that compare equal route alike. -/
theorem route_congr (spec : Partitioning) (partitions : List Partition) {w : ValueItem}
    (h : v.cmp w = .eq) : spec.route partitions v = spec.route partitions w := by
  have habove : Partitioning.boundAbove v = Partitioning.boundAbove w := by
    funext p
    unfold Partitioning.boundAbove
    cases p.bound <;> simp only [Std.TransCmp.congr_left h]
  have hnames : Partitioning.names v = Partitioning.names w := by
    funext p
    unfold Partitioning.names
    cases p.bound <;> simp only [Std.TransCmp.congr_right h]
  unfold Partitioning.route
  rw [habove, hnames]

/-! ## `mayHold` -/

theorem isGE_of_cmp {a b : ValueItem} (h : (a.cmp b).isLE = true) : (b.cmp a).isGE = true := by
  have hswap : b.cmp a = (a.cmp b).swap := Std.OrientedCmp.eq_swap
  rw [hswap]
  cases hc : a.cmp b <;> simp_all

/-- The partition a value of a range routes to can hold values of the range. -/
theorem mayHoldRange_of_admits {r : ColumnRange} (hv : r.contains v = true)
    (hi : spec.Admits partitions i v) :
    Partitioning.mayHoldRange partitions r i = true := by
  obtain ⟨p, hp, hadmits⟩ := hi
  obtain ⟨hlower, hupper⟩ := (contains_iff r v).mp hv
  unfold Partitioning.mayHoldRange
  rw [hp, Option.map_some]
  cases hkind : spec.kind with
  | list =>
    rw [hkind] at hadmits
    rcases hadmits with hname | ⟨hdefault, -⟩
    · cases hb : p.bound <;> rw [hb] at hname <;> try exact False.elim hname
      obtain ⟨w, hw, hwv⟩ := hname
      exact List.any_eq_true.mpr ⟨w, hw, (contains_congr hwv).trans hv⟩
    · rw [hdefault]
  | range =>
    rw [hkind] at hadmits
    obtain ⟨habove, hprev⟩ := hadmits
    have hoverlaps : Partitioning.rangeOverlaps partitions i r = true := by
      unfold Partitioning.rangeOverlaps
      refine Bool.and_eq_true_iff.mpr ⟨?_, ?_⟩
      · rw [hp, Option.map_some]
        cases hb : p.bound <;> cases hl : r.lower <;> try rfl
        · rw [hb] at habove
          rw [hl] at hlower
          exact beq_iff_eq.mpr (Std.TransCmp.lt_of_isLE_of_lt (isLE_of_cmp hlower) habove)
        · rw [hb] at habove
          rw [hl] at hlower
          exact beq_iff_eq.mpr (Std.TransCmp.lt_trans (Std.OrientedCmp.lt_of_gt hlower) habove)
      · cases i with
        | zero => rfl
        | succ j =>
          rw [if_neg (Nat.succ_ne_zero j), Nat.add_sub_cancel]
          cases hq : partitions[j]? with
          | none => rfl
          | some q =>
            rw [Option.map_some]
            cases hb : q.bound <;> cases hu : r.upper <;> try rfl
            · have hge := hprev j q _ rfl hq hb
              rw [hu] at hupper
              exact isGE_of_cmp (Std.TransCmp.isLE_trans (isLE_of_cmp hge) hupper)
            · have hge := hprev j q _ rfl hq hb
              rw [hu] at hupper
              have hlt := Std.TransCmp.lt_of_isLE_of_lt (isLE_of_cmp hge) hupper
              exact beq_iff_eq.mpr (Std.OrientedCmp.gt_of_lt hlt)
    cases hb : p.bound <;> rw [hb] at habove <;> first | exact False.elim habove | exact hoverlaps

/-- The partition of a value a set holds is one that may hold the set's values. -/
theorem mem_mayHold (h : spec.check text partitions = .ok ()) {set : ColumnSet} (hv : set.Holds v)
    (hroute : spec.route partitions v = some i) :
    i ∈ spec.mayHold partitions set := by
  have hadmits := (route_eq_some_iff h v i).mp hroute
  unfold Partitioning.mayHold
  rw [List.mem_dedup, List.mem_mergeSort]
  cases set with
  | points points =>
    obtain ⟨w, hw, hwv⟩ := hv
    exact List.mem_filterMap.mpr ⟨w, hw, (route_congr spec partitions hwv).trans hroute⟩
  | range r =>
    have hlt : i < partitions.length := by
      obtain ⟨p, hp, -⟩ := hadmits
      exact (List.getElem?_eq_some_iff.mp hp).1
    exact List.mem_filter.mpr ⟨List.mem_range.mpr hlt, mayHoldRange_of_admits hv hadmits⟩

end SquealDb.Sql
