import SquealDb.Tree.TreeKey

/-!
# Ranges of record keys

`KeyRange` of `cursor.rs`: the keys whose leading fields equal given values and whose next
field lies within bounds. Its bounds are on that one field; a scan of a range begins at a
whole key, padded with nulls.
-/

namespace SquealDb.Tree

open SquealDb.Codec

/-- `Bound` of the standard library. -/
inductive Bound (α : Type) where
  | included (a : α)
  | excluded (a : α)
  | unbounded
  deriving DecidableEq, Repr

/-- `KeyRange`; `leading` is its `prefix`. -/
structure KeyRange where
  leading : List ValueItem
  lower : Bound ValueItem
  upper : Bound ValueItem
  deriving DecidableEq, Repr

namespace KeyRange

/-- Whether the range bounds a field behind the leading ones. -/
def bounded (r : KeyRange) : Bool :=
  match r.lower, r.upper with
  | .unbounded, .unbounded => false
  | _, _ => true

/-- The bounded field lies before the range. -/
def before (r : KeyRange) (v : ValueItem) : Bool :=
  match r.lower with
  | .included lo => v.cmp lo == .lt
  | .excluded lo => (v.cmp lo).isLE
  | .unbounded => false

/-- The bounded field lies behind the range. -/
def after (r : KeyRange) (v : ValueItem) : Bool :=
  match r.upper with
  | .included hi => v.cmp hi == .gt
  | .excluded hi => (v.cmp hi).isGE
  | .unbounded => false

/-- The loop of `position` over the leading fields, and the bounded field behind them. -/
def positionFrom (r : KeyRange) : List ValueItem → List ValueItem → Ordering
  | p :: ps, v :: vs =>
    match v.cmp p with
    | .eq => positionFrom r ps vs
    | other => other
  | _ :: _, [] => .gt
  | [], [] => if r.bounded then .gt else .eq
  | [], v :: _ => if r.before v then .lt else if r.after v then .gt else .eq

def position (r : KeyRange) (values : List ValueItem) : Ordering := r.positionFrom r.leading values

/-- The fields of a range's start that are given. -/
def startFields (r : KeyRange) : List ValueItem :=
  match r.lower with
  | .included v | .excluded v => r.leading ++ [v]
  | .unbounded => r.leading

/-- The start of `range_start`: a key of `len` fields, of those given and nulls. -/
def start (r : KeyRange) (len : Nat) : List ValueItem :=
  r.startFields ++ List.replicate (len - r.startFields.length) .null

/-! ## Positions along ascending keys -/

variable {vs ws : List ValueItem}

theorem cmpValues_cons_isLE {v w : ValueItem} (h : (cmpValues (v :: vs) (w :: ws)).isLE) :
    v.cmp w = .lt ∨ v.cmp w = .eq ∧ (cmpValues vs ws).isLE := by
  rw [cmpValues] at h
  cases hcmp : v.cmp w with
  | lt => exact .inl rfl
  | eq =>
    rw [hcmp] at h
    exact .inr ⟨rfl, h⟩
  | gt =>
    rw [hcmp] at h
    cases h

theorem before_of_le (r : KeyRange) {v w : ValueItem} (h : (v.cmp w).isLE) (hw : r.before w) :
    r.before v := by
  unfold before at hw ⊢
  cases hlower : r.lower with
  | included lo =>
    rw [hlower] at hw
    exact beq_iff_eq.mpr (Std.TransCmp.lt_of_isLE_of_lt h (beq_iff_eq.mp hw))
  | excluded lo =>
    rw [hlower] at hw
    exact Std.TransCmp.isLE_trans h hw
  | unbounded =>
    rw [hlower] at hw
    cases hw

theorem after_of_le (r : KeyRange) {v w : ValueItem} (h : (v.cmp w).isLE) (hv : r.after v) :
    r.after w := by
  have hge : (w.cmp v).isGE := Std.OrientedCmp.isGE_of_isLE h
  unfold after at hv ⊢
  cases hupper : r.upper with
  | included hi =>
    rw [hupper] at hv
    exact beq_iff_eq.mpr (Std.TransCmp.gt_of_isGE_of_gt hge (beq_iff_eq.mp hv))
  | excluded hi =>
    rw [hupper] at hv
    exact Std.TransCmp.isGE_trans hge hv
  | unbounded =>
    rw [hupper] at hv
    cases hv

theorem positionFrom_mono (r : KeyRange) (ps : List ValueItem) (hlen : vs.length = ws.length)
    (h : (cmpValues vs ws).isLE) :
    (r.positionFrom ps ws = .lt → r.positionFrom ps vs = .lt) ∧
      (r.positionFrom ps vs = .gt → r.positionFrom ps ws = .gt) := by
  induction ps generalizing vs ws with
  | nil =>
    cases vs with
    | nil =>
      rw [List.eq_nil_of_length_eq_zero hlen.symm]
      exact ⟨fun hlt => hlt, fun hgt => hgt⟩
    | cons v vs =>
      cases ws with
      | nil => cases hlen
      | cons w ws =>
        have hle : (v.cmp w).isLE := by
          rcases cmpValues_cons_isLE h with hlt | ⟨heq, -⟩
          · rw [hlt]; rfl
          · rw [heq]; rfl
        have hbefore := r.before_of_le hle
        have hafter := r.after_of_le hle
        simp only [positionFrom]
        constructor
        · intro hlt
          by_cases hw : r.before w
          · rw [if_pos (hbefore hw)]
          · rw [if_neg hw] at hlt
            split at hlt <;> cases hlt
        · intro hgt
          by_cases hv : r.before v
          · rw [if_pos hv] at hgt
            cases hgt
          · rw [if_neg hv] at hgt
            have hnot : ¬r.before w := fun hw => hv (hbefore hw)
            rw [if_neg hnot]
            by_cases hva : r.after v
            · rw [if_pos (hafter hva)]
            · rw [if_neg hva] at hgt
              cases hgt
  | cons p ps ih =>
    cases vs with
    | nil =>
      rw [List.eq_nil_of_length_eq_zero hlen.symm]
      exact ⟨fun hlt => hlt, fun hgt => hgt⟩
    | cons v vs =>
      cases ws with
      | nil => cases hlen
      | cons w ws =>
        simp only [positionFrom]
        rcases cmpValues_cons_isLE h with hlt | ⟨heq, hrest⟩
        · have hgt : w.cmp v = .gt := Std.OrientedCmp.gt_of_lt hlt
          cases hv : v.cmp p with
          | lt => exact ⟨fun _ => rfl, fun h => nomatch h⟩
          | eq =>
            rw [Std.TransCmp.gt_of_gt_of_eq hgt hv]
            exact ⟨fun h => (nomatch h), fun _ => rfl⟩
          | gt =>
            rw [Std.TransCmp.gt_trans hgt hv]
            exact ⟨fun h => (nomatch h), fun _ => rfl⟩
        · rw [Std.TransCmp.congr_left heq]
          cases w.cmp p with
          | lt => exact ⟨fun _ => rfl, fun hgt => hgt⟩
          | eq => exact ih (Nat.succ.inj hlen) hrest
          | gt => exact ⟨fun hlt => hlt, fun _ => rfl⟩

/-- Along ascending keys of one length the position in a range is before, then within,
then behind. -/
theorem position_mono (r : KeyRange) (hlen : vs.length = ws.length) (h : (cmpValues vs ws).isLE) :
    (r.position ws = .lt → r.position vs = .lt) ∧ (r.position vs = .gt → r.position ws = .gt) :=
  r.positionFrom_mono r.leading hlen h

/-! ## Where a range starts -/

theorem null_cmp (v : ValueItem) : (ValueItem.null.cmp v).isLE := by
  cases v <;> rfl

theorem nulls_le (n : Nat) (hlen : vs.length = n) :
    (cmpValues (List.replicate n .null) vs).isLE := by
  induction vs generalizing n with
  | nil =>
    rw [← hlen]
    rfl
  | cons v vs ih =>
    rw [← hlen, List.length_cons, List.replicate_succ, cmpValues]
    have hle := null_cmp v
    cases hcmp : ValueItem.null.cmp v with
    | lt => rfl
    | eq => exact ih vs.length rfl
    | gt =>
      rw [hcmp] at hle
      cases hle

/-- A start in which given fields are followed by nulls. -/
theorem startFrom_le (r : KeyRange) (ps : List ValueItem) (hpos : r.positionFrom ps vs = .eq)
    {given : List ValueItem} (hgiven : given = match r.lower with
      | .included v | .excluded v => ps ++ [v]
      | .unbounded => ps) (hlen : given.length ≤ vs.length) :
    (cmpValues (given ++ List.replicate (vs.length - given.length) .null) vs).isLE := by
  induction ps generalizing vs given with
  | nil =>
    have hnulls : ∀ ws : List ValueItem, (cmpValues (List.replicate ws.length .null) ws).isLE :=
      fun ws => nulls_le ws.length rfl
    have hbound : ∀ lo, given = [lo] → (∀ v rest, vs = v :: rest → (lo.cmp v).isLE) →
        (cmpValues (given ++ List.replicate (vs.length - given.length) .null) vs).isLE := by
      rintro lo rfl hlo
      cases vs with
      | nil => cases hlen
      | cons v rest =>
        have hle := hlo v rest rfl
        rw [List.cons_append, List.nil_append, cmpValues]
        cases hcmp : lo.cmp v with
        | lt => rfl
        | eq => exact hnulls rest
        | gt =>
          rw [hcmp] at hle
          cases hle
    have hbefore : ∀ v rest, vs = v :: rest → r.before v = false := by
      rintro v rest rfl
      rw [positionFrom] at hpos
      cases hb : r.before v with
      | false => rfl
      | true =>
        rw [hb] at hpos
        cases hpos
    cases hlower : r.lower with
    | included lo =>
      rw [hlower] at hgiven
      apply hbound lo hgiven
      intro v rest hvs
      have hb := hbefore v rest hvs
      rw [before, hlower] at hb
      apply Std.OrientedCmp.isLE_of_isGE
      cases hcmp : v.cmp lo with
      | lt => simp [hcmp] at hb
      | eq => rfl
      | gt => rfl
    | excluded lo =>
      rw [hlower] at hgiven
      apply hbound lo hgiven
      intro v rest hvs
      have hb := hbefore v rest hvs
      rw [before, hlower] at hb
      apply Std.OrientedCmp.isLE_of_isGE
      cases hcmp : v.cmp lo with
      | lt => simp [hcmp] at hb
      | eq => rfl
      | gt => rfl
    | unbounded =>
      rw [hlower] at hgiven
      subst hgiven
      exact hnulls vs
  | cons p ps ih =>
    cases vs with
    | nil => cases hpos
    | cons v vs =>
      rw [positionFrom] at hpos
      cases hcmp : v.cmp p with
      | lt => simp [hcmp] at hpos
      | gt => simp [hcmp] at hpos
      | eq =>
        rw [hcmp] at hpos
        have heq : p.cmp v = .eq := Std.OrientedCmp.eq_symm hcmp
        obtain ⟨tail, rfl, htail⟩ : ∃ tail, given = p :: tail ∧ tail = match r.lower with
            | .included v | .excluded v => ps ++ [v]
            | .unbounded => ps := by
          cases hlower : r.lower <;> exact ⟨_, by simp only [hgiven, hlower, List.cons_append], rfl⟩
        rw [List.length_cons, List.length_cons] at hlen
        rw [List.cons_append, cmpValues, heq, List.length_cons, List.length_cons,
          Nat.add_sub_add_right]
        exact ih hpos htail (Nat.le_of_succ_le_succ hlen)

/-- The padded start never lies behind a key of the range. -/
theorem start_le (r : KeyRange) (hpos : r.position vs = .eq)
    (hlen : r.startFields.length ≤ vs.length) : (cmpValues (r.start vs.length) vs).isLE :=
  r.startFrom_le r.leading hpos rfl hlen

end KeyRange

end SquealDb.Tree
