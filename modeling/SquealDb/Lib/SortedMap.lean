import Mathlib.Data.List.InsertIdx
import Mathlib.Data.List.Basic

/-!
# Sorted maps

A finite map as the list of its elements in strictly ascending order of their keys,
where keys are compared by any transitive comparison; elements whose keys compare
equal take each other's place.  Insertion and removal are stated by what stays below
and above the key, and tied to the positions at which a sorted array inserts,
overwrites and removes.

Nothing in this module names what is mapped.
-/

namespace SquealDb.Lib

variable {α κ : Type*} {key : α → κ} {cmp : κ → κ → Ordering}

/-- Elements in strictly ascending order of their keys. -/
def Ascending (key : α → κ) (cmp : κ → κ → Ordering) (l : List α) : Prop :=
  l.Pairwise fun a b => cmp (key a) (key b) = .lt

/-- A finite map from keys to elements that have them. -/
@[ext]
structure SortedMap (key : α → κ) (cmp : κ → κ → Ordering) where
  entries : List α
  ascending : Ascending key cmp entries

/-- The first position whose key is not below `k`. -/
def rank (key : α → κ) (cmp : κ → κ → Ordering) (l : List α) (k : κ) : Nat :=
  l.findIdx fun a => (cmp (key a) k).isGE

/-- The first position whose key is above `k`. -/
def rankAfter (key : α → κ) (cmp : κ → κ → Ordering) (l : List α) (k : κ) : Nat :=
  l.findIdx fun a => (cmp (key a) k).isGT

section Ascending

variable {l : List α} {k : κ} {i j : Nat}

theorem Ascending.lt (h : Ascending key cmp l) (hj : j < l.length) (hij : i < j) :
    cmp (key l[i]) (key l[j]) = .lt :=
  List.pairwise_iff_getElem.mp h i j (by omega) hj hij

theorem lt_of_lt_rank (hi : i < rank key cmp l k) :
    ∃ h : i < l.length, cmp (key l[i]) k = .lt := by
  have hlen : i < l.length := Nat.lt_of_lt_of_le hi List.findIdx_le_length
  refine ⟨hlen, ?_⟩
  have hnot := List.not_of_lt_findIdx hi
  cases hcmp : cmp (key l[i]) k with
  | lt => rfl
  | eq => simp [hcmp] at hnot
  | gt => simp [hcmp] at hnot

theorem isLE_of_lt_rankAfter (hi : i < rankAfter key cmp l k) :
    ∃ h : i < l.length, (cmp (key l[i]) k).isLE := by
  have hlen : i < l.length := Nat.lt_of_lt_of_le hi List.findIdx_le_length
  refine ⟨hlen, ?_⟩
  have hnot := List.not_of_lt_findIdx hi
  cases hcmp : cmp (key l[i]) k with
  | lt => rfl
  | eq => rfl
  | gt => simp [hcmp] at hnot

variable [Std.TransCmp cmp]

/-- Behind a key that is not below `k`, all are above. -/
theorem Ascending.gt_of_isGE (h : Ascending key cmp l) (hj : j < l.length) (hij : i < j)
    (hi : (cmp (key l[i]) k).isGE) : cmp (key l[j]) k = .gt :=
  Std.TransCmp.gt_of_gt_of_isGE (Std.OrientedCmp.gt_of_lt (h.lt hj hij)) hi

/-- Before a key that is not above `k`, all are below. -/
theorem Ascending.lt_of_isLE (h : Ascending key cmp l) (hj : j < l.length) (hij : i < j)
    (hle : (cmp (key l[j]) k).isLE) : cmp (key l[i]) k = .lt :=
  Std.TransCmp.lt_of_lt_of_isLE (h.lt hj hij) hle

theorem Ascending.isGE_of_rank_le (h : Ascending key cmp l) (hj : j < l.length)
    (hle : rank key cmp l k ≤ j) : (cmp (key l[j]) k).isGE := by
  have hrank : rank key cmp l k < l.length := by omega
  have hfirst : (cmp (key l[rank key cmp l k]) k).isGE :=
    @List.findIdx_getElem _ (fun a => (cmp (key a) k).isGE) l hrank
  rcases Nat.eq_or_lt_of_le hle with heq | hlt
  · simp only [← heq]
    exact hfirst
  · exact Ordering.isGE_of_eq_gt (h.gt_of_isGE hj hlt hfirst)

theorem Ascending.gt_of_rankAfter_le (h : Ascending key cmp l) (hj : j < l.length)
    (hle : rankAfter key cmp l k ≤ j) : cmp (key l[j]) k = .gt := by
  have hrank : rankAfter key cmp l k < l.length := by omega
  have hfirst : (cmp (key l[rankAfter key cmp l k]) k).isGT :=
    @List.findIdx_getElem _ (fun a => (cmp (key a) k).isGT) l hrank
  rw [Ordering.isGT_iff_eq_gt] at hfirst
  rcases Nat.eq_or_lt_of_le hle with heq | hlt
  · simp only [← heq]
    exact hfirst
  · exact h.gt_of_isGE hj hlt (Ordering.isGE_of_eq_gt hfirst)

end Ascending

/-- A filter that keeps exactly the first ones. -/
private theorem filter_eq_take {l : List α} {p : α → Bool} {i : Nat}
    (hlow : ∀ j, (h : j < l.length) → j < i → p l[j] = true)
    (hhigh : ∀ j, (h : j < l.length) → i ≤ j → p l[j] = false) : l.filter p = l.take i := by
  have htake : (l.take i).filter p = l.take i := by
    rw [List.filter_eq_self]
    intro a ha
    obtain ⟨j, hj, rfl⟩ := List.mem_take_iff_getElem.mp ha
    exact hlow j (by omega) (by omega)
  have hdrop : (l.drop i).filter p = [] := by
    rw [List.filter_eq_nil_iff]
    intro a ha
    obtain ⟨j, hj, rfl⟩ := List.mem_drop_iff_getElem.mp ha
    rw [hhigh (i + j) (by omega) (by omega)]
    exact Bool.false_ne_true
  conv_lhs => rw [← List.take_append_drop i l]
  rw [List.filter_append, htake, hdrop, List.append_nil]

/-- A filter that keeps exactly the last ones. -/
private theorem filter_eq_drop {l : List α} {p : α → Bool} {i : Nat}
    (hlow : ∀ j, (h : j < l.length) → j < i → p l[j] = false)
    (hhigh : ∀ j, (h : j < l.length) → i ≤ j → p l[j] = true) : l.filter p = l.drop i := by
  have htake : (l.take i).filter p = [] := by
    rw [List.filter_eq_nil_iff]
    intro a ha
    obtain ⟨j, hj, rfl⟩ := List.mem_take_iff_getElem.mp ha
    rw [hlow j (by omega) (by omega)]
    exact Bool.false_ne_true
  have hdrop : (l.drop i).filter p = l.drop i := by
    rw [List.filter_eq_self]
    intro a ha
    obtain ⟨j, hj, rfl⟩ := List.mem_drop_iff_getElem.mp ha
    exact hhigh (i + j) (by omega) (by omega)
  conv_lhs => rw [← List.take_append_drop i l]
  rw [List.filter_append, htake, hdrop, List.nil_append]

private theorem insertIdx_eq_append {l : List α} {i : Nat} (h : i ≤ l.length) (a : α) :
    l.insertIdx i a = l.take i ++ a :: l.drop i := by
  induction l generalizing i with
  | nil =>
    obtain rfl : i = 0 := by simpa using h
    rfl
  | cons b l ih =>
    cases i with
    | zero => rfl
    | succ i =>
      rw [List.insertIdx_succ_cons, ih (by simpa using h)]
      rfl

namespace SortedMap

variable (m : SortedMap key cmp)

/-- The element of a key. -/
def lookup (k : κ) : Option α := m.entries.find? fun a => cmp (key a) k == .eq

/-- Where the element of a key stands. -/
def position (k : κ) : Option Nat := m.entries.findIdx? fun a => cmp (key a) k == .eq

def empty : SortedMap key cmp := ⟨[], .nil⟩

/-- The first `n` elements. -/
def take (n : Nat) :
    SortedMap key cmp := ⟨m.entries.take n, m.ascending.sublist (List.take_sublist n _)⟩

/-- The map without a key. -/
def erase (k : κ) : SortedMap key cmp :=
  ⟨m.entries.filter fun a => cmp (key a) k != .eq, m.ascending.sublist List.filter_sublist⟩

section

variable [Std.TransCmp cmp]

/-- The map with an element at its key. -/
def insert (a : α) : SortedMap key cmp where
  entries := (m.entries.filter fun b => cmp (key b) (key a) == .lt) ++
    a :: m.entries.filter fun b => cmp (key b) (key a) == .gt
  ascending := by
    have hlow : ∀ b ∈ m.entries.filter fun b => cmp (key b) (key a) == .lt,
        cmp (key b) (key a) = .lt := fun b hb => by simpa using (List.mem_filter.mp hb).2
    have hhigh : ∀ b ∈ m.entries.filter fun b => cmp (key b) (key a) == .gt,
        cmp (key a) (key b) = .lt := fun b hb =>
      Std.OrientedCmp.lt_of_gt (by simpa using (List.mem_filter.mp hb).2)
    refine List.pairwise_append.mpr ⟨m.ascending.sublist List.filter_sublist,
      List.pairwise_cons.mpr ⟨hhigh, m.ascending.sublist List.filter_sublist⟩, ?_⟩
    intro b hb c hc
    rcases List.mem_cons.mp hc with rfl | hc
    · exact hlow b hb
    · exact Std.TransCmp.lt_trans (hlow b hb) (hhigh c hc)

theorem insert_entries (a : α) :
    (m.insert a).entries = (m.entries.filter fun b => cmp (key b) (key a) == .lt) ++
      a :: m.entries.filter fun b => cmp (key b) (key a) == .gt := rfl

end

variable {m} {k : κ} {i : Nat} {a : α}

/-! ### Positions -/

section Position

variable [Std.TransCmp cmp]

theorem ne_eq_of_ne (hi : i < m.entries.length) (heq : cmp (key m.entries[i]) k = .eq) {j : Nat}
    (hj : j < m.entries.length) (hne : j ≠ i) : cmp (key m.entries[j]) k ≠ .eq := by
  rcases Nat.lt_or_gt_of_ne hne with hlt | hgt
  · rw [m.ascending.lt_of_isLE hi hlt (by rw [heq]; rfl)]
    exact nofun
  · rw [m.ascending.gt_of_isGE hj hgt (by rw [heq]; rfl)]
    exact nofun

/-- The position of a key that compares equal to an element's. -/
theorem position_of_eq (hi : i < m.entries.length) (heq : cmp (key m.entries[i]) k = .eq) :
    m.position k = some i := by
  rw [position, List.findIdx?_eq_some_iff_getElem]
  refine ⟨hi, by rw [heq]; rfl, ?_⟩
  intro j hji
  have hne := ne_eq_of_ne hi heq (by omega) (Nat.ne_of_lt hji)
  simpa using hne

theorem lookup_of_eq (hi : i < m.entries.length) (heq : cmp (key m.entries[i]) k = .eq) :
    m.lookup k = some m.entries[i] := by
  rw [lookup, List.find?_eq_some_iff_getElem]
  refine ⟨by rw [heq]; rfl, i, hi, rfl, ?_⟩
  intro j hji
  have hne := ne_eq_of_ne hi heq (by omega) (Nat.ne_of_lt hji)
  simpa using hne

end Position

theorem position_eq_none_iff : m.position k = none ↔ ∀ a ∈ m.entries, cmp (key a) k ≠ .eq := by
  simp [position]

theorem lookup_eq_none_iff : m.lookup k = none ↔ ∀ a ∈ m.entries, cmp (key a) k ≠ .eq := by
  simp [lookup]

theorem position_eq_some (h : m.position k = some i) :
    ∃ hi : i < m.entries.length, cmp (key m.entries[i]) k = .eq := by
  rw [position, List.findIdx?_eq_some_iff_getElem] at h
  obtain ⟨hi, heq, -⟩ := h
  exact ⟨hi, by simpa using heq⟩

theorem lookup_isSome : (m.lookup k).isSome = (m.position k).isSome := by
  rw [Bool.eq_iff_iff, Option.isSome_iff_ne_none, Option.isSome_iff_ne_none, ne_eq, ne_eq,
    lookup_eq_none_iff, position_eq_none_iff]

/-! ### The operations at positions -/

variable [Std.TransCmp cmp]

/-- Nothing below a key that is present ranks with it. -/
theorem rank_of_position (h : m.position k = some i) : rank key cmp m.entries k = i := by
  obtain ⟨hi, heq⟩ := position_eq_some h
  rw [rank, List.findIdx_eq hi]
  constructor
  · rw [heq]
    rfl
  · intro j hj
    rw [m.ascending.lt_of_isLE hi hj (by rw [heq]; rfl)]
    rfl

theorem rankAfter_of_position (h : m.position k = some i) :
    rankAfter key cmp m.entries k = i + 1 := by
  obtain ⟨hi, heq⟩ := position_eq_some h
  have hlow : ∀ j, (hj : j < m.entries.length) → j ≤ i →
      (cmp (key m.entries[j]) k).isGT = false := by
    intro j hj hle
    rcases Nat.eq_or_lt_of_le hle with rfl | hlt
    · rw [heq]
      rfl
    · rw [m.ascending.lt_of_isLE hi hlt (by rw [heq]; rfl)]
      rfl
  rcases Nat.lt_or_ge (i + 1) m.entries.length with hlt | hge
  · rw [rankAfter, List.findIdx_eq hlt]
    refine ⟨?_, fun j hj => hlow j (by omega) (by omega)⟩
    rw [m.ascending.gt_of_isGE hlt (Nat.lt_succ_self i) (by rw [heq]; rfl)]
    rfl
  · have hend : i + 1 = m.entries.length := by omega
    rw [hend, rankAfter, List.findIdx_eq_length]
    intro a ha
    obtain ⟨j, hj, rfl⟩ := List.getElem_of_mem ha
    exact hlow j hj (by omega)

theorem insert_of_absent (h : m.position (key a) = none) :
    (m.insert a).entries = m.entries.insertIdx (rank key cmp m.entries (key a)) a := by
  rw [position_eq_none_iff] at h
  have hgt : ∀ j, (hj : j < m.entries.length) → rank key cmp m.entries (key a) ≤ j →
      cmp (key m.entries[j]) (key a) = .gt := by
    intro j hj hle
    have hge := m.ascending.isGE_of_rank_le hj hle
    have hne := h _ (List.getElem_mem hj)
    cases hcmp : cmp (key m.entries[j]) (key a) with
    | lt => simp [hcmp] at hge
    | eq => exact absurd hcmp hne
    | gt => rfl
  have hlow := filter_eq_take (l := m.entries) (p := fun b => cmp (key b) (key a) == .lt)
    (i := rank key cmp m.entries (key a))
    (fun j _ hlt => by rw [(lt_of_lt_rank hlt).2]; rfl)
    (fun j hj hle => by rw [hgt j hj hle]; rfl)
  have hhigh := filter_eq_drop (l := m.entries) (p := fun b => cmp (key b) (key a) == .gt)
    (i := rank key cmp m.entries (key a))
    (fun j _ hlt => by rw [(lt_of_lt_rank hlt).2]; rfl)
    (fun j hj hle => by rw [hgt j hj hle]; rfl)
  rw [insert_entries, hlow, hhigh, 
    insertIdx_eq_append (show rank key cmp m.entries (key a) ≤ m.entries.length from
      List.findIdx_le_length)]

theorem insert_of_position (h : m.position (key a) = some i) :
    (m.insert a).entries = m.entries.set i a := by
  obtain ⟨hi, heq⟩ := position_eq_some h
  have hbelow : ∀ j, (hj : j < m.entries.length) → j < i →
      cmp (key m.entries[j]) (key a) = .lt := fun j _ hlt =>
    m.ascending.lt_of_isLE hi hlt (by rw [heq]; rfl)
  have habove : ∀ j, (hj : j < m.entries.length) → i < j →
      cmp (key m.entries[j]) (key a) = .gt := fun j hj hlt =>
    m.ascending.gt_of_isGE hj hlt (by rw [heq]; rfl)
  have hlow := filter_eq_take (l := m.entries) (p := fun b => cmp (key b) (key a) == .lt) (i := i)
    (fun j hj hlt => by rw [hbelow j hj hlt]; rfl)
    (fun j hj hle => by
      rcases Nat.eq_or_lt_of_le hle with hij | hlt
      · simp only [← hij, heq]
        rfl
      · rw [habove j hj hlt]
        rfl)
  have hhigh := filter_eq_drop (l := m.entries) (p := fun b => cmp (key b) (key a) == .gt)
    (i := i + 1)
    (fun j hj hlt => by
      rcases Nat.eq_or_lt_of_le (Nat.le_of_lt_succ hlt) with hij | hlt
      · simp only [hij, heq]
        rfl
      · rw [hbelow j hj hlt]
        rfl)
    (fun j hj hle => by rw [habove j hj hle]; rfl)
  rw [insert_entries, hlow, hhigh, List.set_eq_take_append_cons_drop, if_pos hi]

theorem erase_of_position (h : m.position k = some i) :
    (m.erase k).entries = m.entries.eraseIdx i := by
  obtain ⟨hi, heq⟩ := position_eq_some h
  have htake : (m.entries.take i).filter (fun a => cmp (key a) k != .eq) = m.entries.take i := by
    rw [List.filter_eq_self]
    intro b hb
    obtain ⟨j, hj, rfl⟩ := List.mem_take_iff_getElem.mp hb
    simpa using ne_eq_of_ne hi heq (show j < m.entries.length by omega) (by omega)
  have hdrop : (m.entries.drop (i + 1)).filter (fun a => cmp (key a) k != .eq) =
      m.entries.drop (i + 1) := by
    rw [List.filter_eq_self]
    intro b hb
    obtain ⟨j, hj, rfl⟩ := List.mem_drop_iff_getElem.mp hb
    simpa using ne_eq_of_ne hi heq (show i + 1 + j < m.entries.length by omega) (by omega)
  rw [erase, List.eraseIdx_eq_take_drop_succ]
  dsimp only
  conv_lhs => rw [← List.take_append_drop i m.entries, List.drop_eq_getElem_cons hi]
  rw [List.filter_append, List.filter_cons_of_neg (by rw [heq]; exact Bool.false_ne_true), htake,
    hdrop]

theorem rank_congr {l : List α} {k' : κ} (h : cmp k k' = .eq) :
    rank key cmp l k = rank key cmp l k' := by
  have hcmp : ∀ a, cmp (key a) k = cmp (key a) k' := fun a => Std.TransCmp.congr_right h
  simp only [rank, hcmp]

theorem position_erase {k' : κ} (h : cmp k k' = .eq) : (m.erase k).position k' = none := by
  rw [position_eq_none_iff]
  intro b hb heq
  have hne : cmp (key b) k ≠ .eq := by simpa using (List.mem_filter.mp hb).2
  exact hne (Std.TransCmp.eq_trans heq (Std.OrientedCmp.eq_symm h))

/-- What is put at a key takes the place of what was there. -/
theorem insert_erase (h : cmp (key a) k = .eq) : (m.erase k).insert a = m.insert a := by
  have hkey : ∀ b, cmp (key b) (key a) = cmp (key b) k := fun b => Std.TransCmp.congr_right h
  have hfilter : ∀ o : Ordering, o ≠ .eq →
      (m.erase k).entries.filter (fun b => cmp (key b) (key a) == o) =
        m.entries.filter fun b => cmp (key b) (key a) == o := by
    intro o ho
    rw [erase, List.filter_filter]
    apply List.filter_congr
    intro b _
    rw [hkey]
    cases o with
    | eq => exact absurd rfl ho
    | lt => cases cmp (key b) k <;> rfl
    | gt => cases cmp (key b) k <;> rfl
  apply SortedMap.ext
  rw [insert_entries, insert_entries, hfilter .lt nofun, hfilter .gt nofun]

end SortedMap

end SquealDb.Lib
