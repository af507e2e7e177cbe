import Mathlib.Logic.Function.Basic

/-!
# Writes over a map

A partial map with some of its keys written over: given a value, or taken away. What is derived
within a map, such as an index of its rows, stays in step as rows come and go with their
entries, and as writes made over one map are put over another.
-/

namespace SquealDb.Lib

variable {κ δ : Type*}

/-- The map with the writes over it. -/
def overlay (writes : κ → Option (Option δ)) (base : κ → Option δ) : κ → Option δ :=
  fun key => (writes key).getD (base key)

theorem overlay_written {writes : κ → Option (Option δ)} {key : κ} {v : Option δ}
    (h : writes key = some v) (base : κ → Option δ) : overlay writes base key = v := by
  rw [overlay, h, Option.getD_some]

theorem overlay_unwritten {writes : κ → Option (Option δ)} {key : κ} (h : writes key = none)
    (base : κ → Option δ) : overlay writes base key = base key := by
  rw [overlay, h, Option.getD_none]

@[simp] theorem overlay_none (base : κ → Option δ) : overlay (fun _ => none) base = base := rfl

theorem overlay_update [DecidableEq κ] (writes : κ → Option (Option δ)) (base : κ → Option δ)
    (key : κ) (v : Option δ) :
    overlay (Function.update writes key (some v)) base =
      Function.update (overlay writes base) key v := by
  funext other
  by_cases h : other = key
  · subst h
    rw [Function.update_self]
    exact overlay_written (Function.update_self _ _ _) base
  · rw [Function.update_of_ne h, overlay, Function.update_of_ne h]
    rfl

/-- The map with more keys in it. -/
def joined (added base : κ → Option δ) : κ → Option δ := fun key => (added key).or (base key)

/-- The map without the keys of another. -/
def without (gone base : κ → Option δ) : κ → Option δ :=
  fun key => if gone key = none then base key else none

/-- Some keys of the map alone. -/
def restricted [DecidableEq κ] (keys : List κ) (base : κ → Option δ) : κ → Option δ :=
  fun key => if key ∈ keys then base key else none

theorem restricted_eq_some [DecidableEq κ] {keys : List κ} {base : κ → Option δ} {key : κ} {v : δ}
    (h : restricted keys base key = some v) : key ∈ keys ∧ base key = some v := by
  unfold restricted at h
  split at h
  · next hmem => exact ⟨hmem, h⟩
  · cases h

theorem without_kept {gone : κ → Option δ} {key : κ} (h : gone key = none) (base : κ → Option δ) :
    without gone base key = base key := if_pos h

theorem without_eq_some {gone base : κ → Option δ} {key : κ} {v : δ}
    (h : without gone base key = some v) : gone key = none ∧ base key = some v := by
  unfold without at h
  split at h
  · next hnone => exact ⟨hnone, h⟩
  · cases h

/-! ## An index of the rows -/

/-- The rows and entries of an index within a map: where a row and where an entry is kept, and
the entry a row has with its data, which is no other row's. -/
structure Indexing (κ δ ρ ε : Type*) where
  rowAt : ρ → κ
  entryAt : ε → κ
  entryOf : ρ → δ → Option (ε × δ)
  row_unique : ∀ {r r' x x' e d}, entryOf r x = some (e, d) → entryOf r' x' = some (e, d) → r' = r

variable {ρ ε : Type*}

/-- Each row has its entry, and each entry is that of a row. -/
structure Agrees (ix : Indexing κ δ ρ ε) (m : κ → Option δ) : Prop where
  entry_of_row : ∀ r x, m (ix.rowAt r) = some x →
    ∃ e d, ix.entryOf r x = some (e, d) ∧ m (ix.entryAt e) = some d
  row_of_entry : ∀ e d, m (ix.entryAt e) = some d →
    ∃ r x, m (ix.rowAt r) = some x ∧ ix.entryOf r x = some (e, d)

variable {ix : Indexing κ δ ρ ε}

namespace Agrees

/-- A row that is there has the entry that it would have. -/
theorem entry {m : κ → Option δ} (h : Agrees ix m) {r : ρ} {x : δ} (hx : m (ix.rowAt r) = some x)
    {e : ε} {d : δ} (he : ix.entryOf r x = some (e, d)) : m (ix.entryAt e) = some d := by
  obtain ⟨e', d', he', hd⟩ := h.entry_of_row r x hx
  obtain ⟨rfl, rfl⟩ := Prod.mk.inj (Option.some.inj (he'.symm.trans he))
  exact hd

/-- An entry that is there has the row that it names. -/
theorem row {m : κ → Option δ} (h : Agrees ix m) {e : ε} {d : δ} (hd : m (ix.entryAt e) = some d)
    {r : ρ} {x : δ} (he : ix.entryOf r x = some (e, d)) :
    ∃ x', m (ix.rowAt r) = some x' ∧ ix.entryOf r x' = some (e, d) := by
  obtain ⟨r', x', hx', he'⟩ := h.row_of_entry e d hd
  obtain rfl := ix.row_unique he he'
  exact ⟨x', hx', he'⟩

/-- Rows with their entries come to a map. -/
theorem joined {added base : κ → Option δ} (hbase : Agrees ix base) (hadded : Agrees ix added)
    (hfresh : ∀ key, added key ≠ none → base key = none) : Agrees ix (joined added base) := by
  have hold : ∀ {key v}, base key = some v → Lib.joined added base key = some v := by
    intro key v hv
    have hnone : added key = none := by
      by_contra hne
      rw [hfresh key hne] at hv
      cases hv
    rw [Lib.joined, hnone, Option.none_or, hv]
  have hnew : ∀ {key v}, added key = some v → Lib.joined added base key = some v := by
    intro key v hv
    rw [Lib.joined, hv, Option.some_or]
  constructor
  · intro r x hx
    rcases Option.or_eq_some_iff.mp hx with hx | ⟨-, hx⟩
    · obtain ⟨e, d, he, hd⟩ := hadded.entry_of_row r x hx
      exact ⟨e, d, he, hnew hd⟩
    · obtain ⟨e, d, he, hd⟩ := hbase.entry_of_row r x hx
      exact ⟨e, d, he, hold hd⟩
  · intro e d hd
    rcases Option.or_eq_some_iff.mp hd with hd | ⟨-, hd⟩
    · obtain ⟨r, x, hx, he⟩ := hadded.row_of_entry e d hd
      exact ⟨r, x, hnew hx, he⟩
    · obtain ⟨r, x, hx, he⟩ := hbase.row_of_entry e d hd
      exact ⟨r, x, hold hx, he⟩

/-- Rows with their entries are taken from a map. -/
theorem without {gone base : κ → Option δ} (hbase : Agrees ix base) (hgone : Agrees ix gone)
    (hsub : ∀ {key v}, gone key = some v → base key = some v) : Agrees ix (without gone base) := by
  constructor
  · intro r x hx
    obtain ⟨hkept, hx⟩ := without_eq_some hx
    obtain ⟨e, d, he, hd⟩ := hbase.entry_of_row r x hx
    refine ⟨e, d, he, ?_⟩
    rw [without_kept ?_, hd]
    cases hg : gone (ix.entryAt e) with
    | none => rfl
    | some d' =>
      -- the entry would have gone with its row
      obtain rfl := Option.some.inj ((hsub hg).symm.trans hd)
      obtain ⟨x', hx', -⟩ := hgone.row hg he
      rw [hkept] at hx'
      cases hx'
  · intro e d hd
    obtain ⟨hkept, hd⟩ := without_eq_some hd
    obtain ⟨r, x, hx, he⟩ := hbase.row_of_entry e d hd
    refine ⟨r, x, ?_, he⟩
    rw [without_kept ?_, hx]
    cases hg : gone (ix.rowAt r) with
    | none => rfl
    | some x' =>
      obtain rfl := Option.some.inj ((hsub hg).symm.trans hx)
      rw [hgone.entry hg he] at hkept
      cases hkept

/-- Writes that keep an index in step over one map keep it so over another that agrees with it
on the keys written. -/
theorem overlay {writes : κ → Option (Option δ)} {seen current : κ → Option δ}
    (hseen : Agrees ix seen) (hview : Agrees ix (overlay writes seen))
    (hcurrent : Agrees ix current) (hsame : ∀ key, writes key ≠ none → current key = seen key) :
    Agrees ix (overlay writes current) := by
  have hwritten : ∀ {key v w}, writes key = some w → Lib.overlay writes current key = some v →
      Lib.overlay writes seen key = some v := by
    intro key v w hw hv
    rw [overlay_written hw] at hv ⊢
    exact hv
  constructor
  · intro r x hx
    cases hr : writes (ix.rowAt r) with
    | some v =>
      obtain ⟨e, d, he, hd⟩ := hview.entry_of_row r x (hwritten hr hx)
      refine ⟨e, d, he, ?_⟩
      cases hw : writes (ix.entryAt e) with
      | some w =>
        rw [overlay_written hw] at hd ⊢
        exact hd
      | none =>
        -- the entry was there before the row was written over
        rw [overlay_unwritten hw] at hd ⊢
        obtain ⟨x', hx', he'⟩ := hseen.row hd he
        rw [← hsame _ (by rw [hr]; exact Option.some_ne_none _)] at hx'
        exact hcurrent.entry hx' he'
    | none =>
      rw [overlay_unwritten hr] at hx
      obtain ⟨e, d, he, hd⟩ := hcurrent.entry_of_row r x hx
      refine ⟨e, d, he, ?_⟩
      cases hw : writes (ix.entryAt e) with
      | none => rw [overlay_unwritten hw, hd]
      | some w =>
        rw [hsame _ (by rw [hw]; exact Option.some_ne_none _)] at hd
        obtain ⟨x', hx', he'⟩ := hseen.row hd he
        have hentry := hview.entry (by rw [overlay_unwritten hr, hx']) he'
        rw [overlay_written hw] at hentry ⊢
        exact hentry
  · intro e d hd
    cases hw : writes (ix.entryAt e) with
    | some w =>
      obtain ⟨r, x, hx, he⟩ := hview.row_of_entry e d (hwritten hw hd)
      cases hr : writes (ix.rowAt r) with
      | some v =>
        rw [overlay_written hr] at hx
        exact ⟨r, x, by rw [overlay_written hr, hx], he⟩
      | none =>
        rw [overlay_unwritten hr] at hx
        have hentry := hseen.entry hx he
        rw [← hsame _ (by rw [hw]; exact Option.some_ne_none _)] at hentry
        obtain ⟨x', hx', he'⟩ := hcurrent.row hentry he
        exact ⟨r, x', by rw [overlay_unwritten hr, hx'], he'⟩
    | none =>
      rw [overlay_unwritten hw] at hd
      obtain ⟨r, x, hx, he⟩ := hcurrent.row_of_entry e d hd
      cases hr : writes (ix.rowAt r) with
      | none => exact ⟨r, x, by rw [overlay_unwritten hr, hx], he⟩
      | some v =>
        rw [hsame _ (by rw [hr]; exact Option.some_ne_none _)] at hx
        have hentry := hseen.entry hx he
        obtain ⟨x', hx', he'⟩ := hview.row (by rw [overlay_unwritten hw, hentry]) he
        rw [overlay_written hr] at hx'
        exact ⟨r, x', by rw [overlay_written hr, hx'], he'⟩

end Agrees

end SquealDb.Lib
