import Mathlib.Data.Nat.Log
import SquealDb.Store.Decision
import SquealDb.Store.TreeWrite

/-!
# When a failed write leaves no trace

A write is registered and logged when it is decided, and only then applied to
its page.  Every refusal that comes before leaves nothing behind; a refusal that
comes after leaves a record of a write that was not made.

Many of the later refusals are ruled out beforehand, by the room the descent
leaves in the leaf, by `check_fits`, by the stand-in entry being no smaller than
the real one, and by the search for a page that can store the row.  What is left
is an entry or a tombstone that outgrows its budget, what earlier such failures
leave behind (an entry without a row, or a second copy of a row), and a page
whose buffer is short of the capacity that `can_store` counts on.
-/

namespace SquealDb.Store

/-! ## Sizes -/

private theorem or_one (v : Nat) : v ||| 1 = 2 * (v / 2) + 1 := by
  have hor : 2 * (v / 2) + 1 = 2 * (v / 2) ||| 1 := by
    have h := @Nat.two_pow_add_eq_or_of_lt 1 1 (by decide) (v / 2)
    simpa using h
  rw [hor]
  rcases Nat.mod_two_eq_zero_or_one v with heven | hodd
  · have hv : 2 * (v / 2) = v := by omega
    rw [hv]
  · have hv : 2 * (v / 2) ||| 1 = v := by
      rw [← hor]
      omega
    rw [hv]
    conv_lhs => rw [← hv]
    rw [Nat.or_assoc, Nat.or_self, hv]

theorem varintLen_mono {v w : Nat} (h : v ≤ w) : varintLen v ≤ varintLen w := by
  have hor : v ||| 1 ≤ w ||| 1 := by
    rw [or_one, or_one]
    omega
  have hlog : Nat.log2 (v ||| 1) ≤ Nat.log2 (w ||| 1) := by
    rw [Nat.log2_eq_log_two, Nat.log2_eq_log_two]
    exact Nat.log_mono_right hor
  unfold varintLen
  omega

theorem varintLen_le (v : Nat) : varintLen v ≤ 10 := Nat.min_le_left ..

theorem optionLen_pos (v : Option Nat) : 1 ≤ optionLen v := by
  cases v with
  | none => exact Nat.le_refl _
  | some v => exact Nat.le_add_right ..

theorem optionLen_le (v : Option Nat) : optionLen v ≤ 1 + preLsnGrowth := by
  cases v with
  | none => exact Nat.le_add_right ..
  | some v => exact Nat.add_le_add_left (varintLen_le v) 1

section Entries

variable {κ β : Type*} (z : Sizing κ β)

/-- The stand-in entry is no smaller than one that names an earlier page. -/
theorem size_leafEntry_mono (id : κ) {p q : Nat} (h : p ≤ q) :
    z.index.size (leafEntry id p) ≤ z.index.size (leafEntry id q) := by
  have hlen := varintLen_mono h
  have hnode := varintLen_mono (Nat.add_le_add_left hlen 1)
  simp only [Sizing.size, Sizing.index, leafEntry]
  omega

/-- A version over another takes at most a pre-image pointer more than what it
is written from. -/
theorem size_version_le {v w : Tuple κ β} (hid : v.id = w.id) (hdata : v.data = w.data)
    (htxn : v.txnId = w.txnId) : z.size v ≤ z.size w + preLsnGrowth := by
  have hlsn := optionLen_le v.preLsn
  have hpos := optionLen_pos w.preLsn
  simp only [Sizing.size, hid, hdata, htxn]
  omega

end Entries

/-! ## Pages -/

namespace SlottedTuples

variable {κ β : Type*} {z : Sizing κ β} {p q : SlottedTuples z} {t old : Tuple κ β} {len : Nat}

/-- There is room for one more tuple: on an empty page, or in the buffer, with
the live tuples packed. -/
def HasRoom (p : SlottedTuples z) (len : Nat) : Prop :=
  p.slotCount = 0 ∨ dirOffset (p.slotCount + 1) + z.live p.tuples + len ≤ p.bufLen

/-- There is room for a tuple in another's place: in its slot, on a page that
has only this, or in the buffer, with the other tuples packed. -/
def RoomToReplace (p : SlottedTuples z) (old : Tuple κ β) (len : Nat) : Prop :=
  len ≤ z.size old ∨ p.slotCount ≤ 1 ∨
    dirOffset p.slotCount + z.live p.tuples + len ≤ p.bufLen + z.size old

theorem ensureRoom_fits_iff : (p.ensureRoom len).FitsWithoutCompaction len ↔ p.HasRoom len := by
  have hbalanced := p.balanced
  unfold ensureRoom HasRoom
  split
  · next hfits =>
      have hfree : slotEntryBytes + len ≤ p.heapStart - dirOffset p.slotCount := hfits
      simp only [dirOffset, slotEntryBytes] at hfree ⊢
      exact iff_of_true hfits (Or.inr (by omega))
  · split
    · next hcount =>
        show slotEntryBytes + len ≤ p.bufLen - z.live p.tuples - dirOffset p.slotCount ↔ _
        simp only [dirOffset, slotEntryBytes, slottedHeaderBytes]
        omega
    · next hcount =>
        refine iff_of_true ?_ (Or.inl (by omega))
        show slotEntryBytes + len ≤
          max (slottedHeaderBytes + slotEntryBytes + len) slottedHeaderBytes - dirOffset 0
        simp only [dirOffset, slotEntryBytes, slottedHeaderBytes]
        omega

theorem tuples_ensureRoom : (p.ensureRoom len).tuples = p.tuples := by
  unfold ensureRoom
  split
  · rfl
  · split
    · rfl
    · next hcount => exact (List.length_eq_zero_iff.mp (Nat.eq_zero_of_not_pos hcount)).symm

theorem used_eq (p : SlottedTuples z) :
    p.used = z.live p.tuples + p.slotCount * slotEntryBytes := by
  unfold used Sizing.live slotCount
  induction p.tuples with
  | nil => rfl
  | cons t tuples ih =>
    simp only [List.map_cons, List.sum_cons, List.length_cons, ih, Sizing.stored,
      Nat.succ_mul]
    omega

theorem used_eq_zero : p.used = 0 ↔ p.tuples = [] := by
  constructor
  · intro h
    rw [used_eq] at h
    exact List.length_eq_zero_iff.mp (by simp only [slotCount, slotEntryBytes] at h; omega)
  · intro h
    simp only [used, h, List.map_nil, List.sum_nil]

theorem canStore_iff : p.canStore t = true ↔ p.tuples = [] ∨ p.used + z.stored t ≤ z.usable := by
  simp only [canStore, Bool.or_eq_true, beq_iff_eq, decide_eq_true_eq, used_eq_zero]

/-- A page whose buffer is not short of its capacity has the room that
`can_store` counts on. -/
theorem hasRoom_of_canStore (hbuf : z.pageDataSize ≤ p.bufLen) (h : p.canStore t = true) :
    p.HasRoom (z.size t) := by
  refine (canStore_iff.mp h).imp (fun hnil => List.length_eq_zero_iff.mpr hnil) fun hle => ?_
  rw [used_eq] at hle
  simp only [Sizing.stored, Sizing.usable, usableDataMargin, slotEntryBytes, dirOffset,
    slottedHeaderBytes] at hle ⊢
  omega

theorem tooLarge_of_le {recordSize : Option Nat} {size size' : Nat} (hle : size ≤ size')
    (h : tooLarge recordSize size' = false) : tooLarge recordSize size = false := by
  cases recordSize with
  | none => rfl
  | some max =>
    have hnot : ¬ max < size' := of_decide_eq_false h
    exact decide_eq_false (by omega)

theorem insertInto_of_hasRoom (h : p.HasRoom (z.size t)) :
    ∃ q, p.insertInto t = (q, .ok ()) ∧ q.tuples = p.tuples ++ [t] := by
  unfold insertInto
  rw [dif_pos (ensureRoom_fits_iff.mpr h)]
  exact ⟨_, rfl, congrArg (· ++ [t]) tuples_ensureRoom⟩

theorem insertInto_of_not_hasRoom (h : ¬ p.HasRoom (z.size t)) :
    p.insertInto t = (p.ensureRoom (z.size t), .error .pageCapacityError) := by
  unfold insertInto
  rw [dif_neg fun hfits => h (ensureRoom_fits_iff.mp hfits)]

/-- A tuple alone, and the page it is added to, are published alike. -/
theorem publish_append (hq : q.tuples = p.tuples ++ [t]) (hcan : p.canStore t = true) :
    q.publish = if overflowRefused z 1 (z.stored t) then .error .unknownError else .ok () := by
  have hused : q.used = p.used + z.stored t := by simp [used, hq]
  rcases canStore_iff.mp hcan with hnil | hle
  · have hcount : q.slotCount = 1 := by simp [slotCount, hq, hnil]
    rw [publish, hused, hcount, used_eq_zero.mpr hnil, Nat.zero_add]
  · have hpage : ¬ z.usable < q.used := by omega
    have halone : ¬ z.usable < z.stored t := by omega
    simp [publish, overflowRefused, hpage, halone]

theorem publish_cases (p : SlottedTuples z) :
    p.publish = .ok () ∨ p.publish = .error .unknownError := by
  unfold publish
  split
  · exact Or.inr rfl
  · exact Or.inl rfl

variable [DecidableEq κ]

theorem get_id {id : κ} (h : p.get id = some t) : t.id = id := by
  simpa using List.find?_some h

/-- A tuple within the budget that `can_store` accepts is for the page's content
to take. -/
theorem addTuple_eq {recordSize : Option Nat} (hlarge : tooLarge recordSize (z.size t) = false)
    (hcan : p.canStore t = true) : p.addTuple recordSize t = p.add t := by
  simp [addTuple, hlarge, hcan]

theorem addTuple_none (hcan : p.canStore t = true) : p.addTuple none t = p.add t :=
  addTuple_eq rfl hcan

theorem add_eq (hget : p.get t.id = none) : p.add t = p.insertInto t := by
  simp [add, hget]

/-- A tuple in another's place, by what the page's content does. -/
theorem replace_cases {id : κ} (t : Tuple κ β) (hget : p.get id = some old) :
    (p.RoomToReplace old (z.size t) ∧ ∃ q, p.replace id t = (q, .ok ())) ∨
      (¬ p.RoomToReplace old (z.size t) ∧
        ∃ q, p.replace id t = (q, .error .pageCapacityError)) := by
  have hbalanced := p.balanced
  have hbelow : dirOffset p.slotCount ≤ p.heapStart := p.below
  unfold replace
  split
  · next hnone =>
      rw [hget] at hnone
      nomatch hnone
  next old' hget' =>
  obtain rfl := Option.some.inj (hget.symm.trans hget')
  obtain ⟨hlive, hlength⟩ := live_eraseP (z := z) hget'
  split
  · next hle => exact Or.inl ⟨Or.inl hle, _, rfl⟩
  next hle =>
  split
  · next hfull =>
      refine Or.inr ⟨?_, _, rfl⟩
      simp only [contiguousFree] at hfull
      unfold RoomToReplace
      omega
  next hroom =>
  simp only [contiguousFree] at hroom
  have htake : (p.deleteSlot hget').HasRoom (z.size t) := by
    by_cases hone : p.slotCount ≤ 1
    · exact Or.inl (by simp only [slotCount, deleteSlot] at hone ⊢; omega)
    · refine Or.inr ?_
      simp only [slotCount, deleteSlot, hlength] at hone hroom hbelow ⊢
      omega
  obtain ⟨q, hq, _⟩ := insertInto_of_hasRoom htake
  refine Or.inl ⟨?_, q, hq⟩
  unfold RoomToReplace
  omega

end SlottedTuples

/-! ## Data pages -/

namespace DataPages

variable {κ δ : Type*} {z : Sizing κ δ} {d : DataPages z} {new : Tuple κ δ}

/-- The page `write_data` puts a tuple on. -/
def target (d : DataPages z) (new : Tuple κ δ) : Nat := (d.landing new).getD d.extend.1

/-- The page `write_data` puts a tuple on has the room for it. -/
def LandsInRoom (d : DataPages z) (new : Tuple κ δ) : Prop :=
  ∀ id, d.landing new = some id → (d.page id).HasRoom (z.size new)

theorem canStore_of_landing {id : Nat} (h : d.landing new = some id) :
    (d.page id).canStore new = true :=
  List.find?_some (p := fun id => (d.page id).canStore new) h

theorem allocPage_le (d : DataPages z) : d.allocPage.1 ≤ d.pageCount := by
  unfold allocPage
  split
  · next id rest hfree =>
      exact Nat.le_of_lt
        (d.bounded id (List.mem_append_right _ (hfree ▸ List.mem_cons_self ..)))
  · exact Nat.le_refl _

/-- The page a row is put on is no later than the next that could be
allocated. -/
theorem target_le (d : DataPages z) (new : Tuple κ δ) : d.target new ≤ d.pageCount := by
  unfold target
  cases hl : d.landing new with
  | none => exact allocPage_le d
  | some id =>
    have hmem : id ∈ d.chain := List.mem_of_mem_drop (List.mem_of_find?_eq_some hl)
    exact Nat.le_of_lt (d.bounded id (List.mem_append_left _ hmem))

variable [DecidableEq κ]

/-- The page `write_data` puts a tuple on has none of that key yet. -/
def LandsFree (d : DataPages z) (new : Tuple κ δ) : Prop :=
  ∀ id, d.landing new = some id → (d.page id).get new.id = none

theorem writePage_ok {id : Nat} (hcan : (d.page id).canStore new = true)
    (hget : (d.page id).get new.id = none) (hroom : (d.page id).HasRoom (z.size new)) :
    (d.writePage id new).2 = if SlottedTuples.overflowRefused z 1 (z.stored new) then
      .error .unknownError else .ok id := by
  obtain ⟨q, hinsert, hq⟩ := SlottedTuples.insertInto_of_hasRoom hroom
  unfold writePage
  rw [SlottedTuples.addTuple_none hcan, SlottedTuples.add_eq hget, hinsert]
  simp only [SlottedTuples.publish_append hq hcan]
  split <;> rfl

/-- A row that lands on a page without its key and with the room is written,
unless it is too long for any. -/
theorem writeData_cases (hfree : d.LandsFree new) (hroom : d.LandsInRoom new) :
    ∃ pages, (SlottedTuples.overflowRefused z 1 (z.stored new) = false ∧
        d.writeData new = (pages, .ok (d.target new))) ∨
      (SlottedTuples.overflowRefused z 1 (z.stored new) = true ∧
        d.writeData new = (pages, .error .unknownError)) := by
  have hwrite : (d.writeData new).2 = if SlottedTuples.overflowRefused z 1 (z.stored new) then
      .error .unknownError else .ok (d.target new) := by
    unfold writeData target
    cases hl : d.landing new with
    | none =>
      have hpage : d.extend.2.page d.extend.1 = SlottedTuples.new z := Function.update_self ..
      refine writePage_ok ?_ ?_ (Or.inl ?_) <;> rw [hpage] <;> rfl
    | some id => exact writePage_ok (canStore_of_landing hl) (hfree id hl) (hroom id hl)
  refine ⟨(d.writeData new).1, ?_⟩
  cases hlong : SlottedTuples.overflowRefused z 1 (z.stored new) with
  | false =>
    rw [hlong] at hwrite
    exact Or.inl ⟨rfl, Prod.ext rfl hwrite⟩
  | true =>
    rw [hlong] at hwrite
    exact Or.inr ⟨rfl, Prod.ext rfl hwrite⟩

/-- A row that lands on a page with its key is refused, and nothing changes. -/
theorem writeData_of_not_landsFree (h : ¬ d.LandsFree new) :
    d.writeData new = (d, .error (.duplicateKey new.id)) := by
  simp only [LandsFree, not_forall] at h
  obtain ⟨id, hl, hget⟩ := h
  have hsome : ((d.page id).get new.id).isSome = true := Option.isSome_iff_ne_none.mpr hget
  have hadd : (d.page id).add new = (d.page id, .error (.duplicateKey new.id)) := if_pos hsome
  unfold writeData
  rw [hl]
  simp only [writePage, SlottedTuples.addTuple_none (canStore_of_landing hl), hadd, setPage,
    Function.update_eq_self]

/-- A row that lands on a page without the room is refused. -/
theorem writeData_of_not_landsInRoom (hfree : d.LandsFree new) (h : ¬ d.LandsInRoom new) :
    ∃ pages, d.writeData new = (pages, .error .pageCapacityError) := by
  simp only [LandsInRoom, not_forall] at h
  obtain ⟨id, hl, hroom⟩ := h
  unfold writeData
  rw [hl]
  simp only [writePage, SlottedTuples.addTuple_none (canStore_of_landing hl),
    SlottedTuples.add_eq (hfree id hl), SlottedTuples.insertInto_of_not_hasRoom hroom]
  exact ⟨_, rfl⟩

/-- A row too long for any page lands on an empty one. -/
theorem lands_of_overflowRefused
    (h : SlottedTuples.overflowRefused z 1 (z.stored new) = true) :
    d.LandsFree new ∧ d.LandsInRoom new := by
  have hlong : z.usable < z.stored new := of_decide_eq_true (Bool.and_eq_true_iff.mp h).1
  have hempty : ∀ id, d.landing new = some id → (d.page id).tuples = [] := fun id hl =>
    (SlottedTuples.canStore_iff.mp (canStore_of_landing hl)).resolve_right (by omega)
  refine ⟨fun id hl => ?_, fun id hl => Or.inl (List.length_eq_zero_iff.mpr (hempty id hl))⟩
  rw [SlottedTuples.get, hempty id hl]
  rfl

end DataPages

/-! ## What a tree takes -/

namespace StoreError

variable {κ : Type*}

/-- The errors of a write after which its transaction is still open. -/
def isRefusal : StoreError κ → Bool
  | .duplicateKey _ | .keyNotFound _ | .writeConflict _ | .tupleTooLarge _ _
  | .pageCapacityError => true
  | _ => false

/-- What a page refuses a write with. -/
def fromPage : StoreError κ → Bool
  | .duplicateKey _ | .tupleTooLarge _ _ | .pageCapacityError => true
  | _ => false

theorem isRefusal_of_fromPage {e : StoreError κ} (h : e.fromPage = true) :
    e.isRefusal = true := by
  cases e with
  | duplicateKey _ => rfl
  | tupleTooLarge _ _ => rfl
  | pageCapacityError => rfl
  | keyNotFound _ => rfl
  | writeConflict _ => rfl
  | transactionAlreadyFinished => nomatch h
  | writeConflictTransactionAborted _ => nomatch h
  | corruption => nomatch h
  | unknownError => nomatch h

end StoreError

/-- The outcome of a decision hangs on a condition: it is applied, as far as
overflow pages allow, or a page refuses it. -/
inductive SettledBy {κ : Type*} (fits : Prop) (r : Except (StoreError κ) Unit) : Prop
  | taken : fits → r = .ok () ∨ r = .error .unknownError → SettledBy fits r
  | refused (e : StoreError κ) : ¬ fits → r = .error e → e.fromPage = true → SettledBy fits r

/-- What the budget and the page's content say to a tuple in another's place. -/
theorem SlottedTuples.replaceTuple_cases {κ β : Type*} [DecidableEq κ] {z : Sizing κ β}
    {p : SlottedTuples z} {id : κ} {old : Tuple κ β} (recordSize : Option Nat) (t : Tuple κ β)
    (hget : p.get id = some old) :
    (tooLarge recordSize (z.size t) = false ∧ p.RoomToReplace old (z.size t) ∧
        ∃ q, p.replaceTuple recordSize id t = (q, .ok ())) ∨
      (¬ (tooLarge recordSize (z.size t) = false ∧ p.RoomToReplace old (z.size t)) ∧
        ∃ q e, p.replaceTuple recordSize id t = (q, .error e) ∧ e.fromPage = true) := by
  unfold replaceTuple
  cases hlarge : tooLarge recordSize (z.size t) with
  | true => exact Or.inr ⟨fun h => Bool.noConfusion h.1, _, _, if_pos rfl, rfl⟩
  | false =>
    rw [if_neg (by simp)]
    rcases replace_cases t hget with ⟨hroom, q, hq⟩ | ⟨hroom, q, hq⟩
    · exact Or.inl ⟨rfl, hroom, q, hq⟩
    · exact Or.inr ⟨fun h => hroom h.2, q, _, hq, rfl⟩

namespace DataTree

variable {κ δ : Type*} [DecidableEq κ] {z : Sizing κ δ}

/-- An entry that names the page is within the budget of the index pages. -/
def EntryFits (t : DataTree z) (id : κ) (dp : Nat) : Prop :=
  SlottedTuples.tooLarge t.recordSize (z.index.size (leafEntry id dp)) = false

/-- A new row can be written: its key has no entry, the entry it would get is
within the budget and `can_store` accepts it, the page the row lands on has no
copy of it and has the room, and so has the leaf, if it comes to that. -/
def InsertFits (t : DataTree z) (id : κ) (new : Tuple κ δ) : Prop :=
  t.leaf.get id = none ∧ t.EntryFits id t.pages.pageCount ∧
    t.leaf.canStore (t.probe id) = true ∧ t.pages.LandsFree new ∧ t.pages.LandsInRoom new ∧
      (SlottedTuples.overflowRefused z 1 (z.stored new) = true ∨
        t.leaf.HasRoom (z.index.size (leafEntry id (t.pages.target new))))

/-- The entry of a row can name another page. -/
def RepointFits (t : DataTree z) (id : κ) (dp : Nat) : Prop :=
  ∀ e, t.leaf.get id = some e →
    t.EntryFits id dp ∧ t.leaf.RoomToReplace e (z.index.size (leafEntry id dp))

/-- A row can move: the page it lands on has the room, and its entry can name
that page.  Where the page it lands on has a copy of it, it lands again, with
the old copy gone, and then that page must have none. -/
def RelocationFits (t : DataTree z) (oldDp : Nat) (id : κ) (new : Tuple κ δ) : Prop :=
  (t.pages.LandsFree new ∧ t.pages.LandsInRoom new ∧ t.RepointFits id (t.pages.target new)) ∨
    (¬ t.pages.LandsFree new ∧ (t.pages.removeRow oldDp id).LandsFree new ∧
      (t.pages.removeRow oldDp id).LandsInRoom new ∧
        ((t.pages.removeRow oldDp id).target new = oldDp ∨
          t.RepointFits id ((t.pages.removeRow oldDp id).target new)))

/-- A row can be replaced: on its page, in the room there is, or by moving,
unless no page takes it at all. -/
def ReplaceFits (t : DataTree z) (id : κ) (new : Tuple κ δ) : Prop :=
  ∀ e cur, t.leaf.get id = some e → t.row id = some cur →
    if fitsInPlace (t.pages.page e.data) cur new then
      (t.pages.page e.data).RoomToReplace cur (z.size new)
    else SlottedTuples.overflowRefused z 1 (z.stored new) = true ∨ t.RelocationFits e.data id new

variable {t : DataTree z} {id : κ} {new : Tuple κ δ}

/-- The entry is no larger than the stand-in, so the leaf's limits let it by. -/
theorem addTuple_leafEntry (hprobe : t.EntryFits id t.pages.pageCount)
    (hcan : t.leaf.canStore (t.probe id) = true) (hget : t.leaf.get id = none) :
    t.leaf.addTuple t.recordSize (leafEntry id (t.pages.target new)) =
      t.leaf.insertInto (leafEntry id (t.pages.target new)) := by
  have hle := size_leafEntry_mono z id (DataPages.target_le t.pages new)
  have hcan' : t.leaf.canStore (leafEntry id (t.pages.target new)) = true := by
    refine SlottedTuples.canStore_iff.mpr ((SlottedTuples.canStore_iff.mp hcan).imp_right ?_)
    intro hroom
    simp only [Sizing.stored, probe] at hroom ⊢
    omega
  rw [SlottedTuples.addTuple_eq (SlottedTuples.tooLarge_of_le hle hprobe) hcan']
  exact SlottedTuples.add_eq hget

theorem applyInsert_settledBy :
    SettledBy (t.InsertFits id new) (t.applyInsert id new).2 := by
  unfold applyInsert
  cases hget : t.leaf.get id with
  | some e =>
    refine .refused (.duplicateKey id) (fun h => ?_) rfl rfl
    rw [h.1] at hget
    nomatch hget
  | none =>
  rw [if_neg (by simp)]
  by_cases hlarge : SlottedTuples.tooLarge t.recordSize (z.index.size (t.probe id)) = true
  · rw [if_pos hlarge]
    refine .refused _ (fun h => ?_) rfl rfl
    have hfits : SlottedTuples.tooLarge t.recordSize (z.index.size (t.probe id)) = false := h.2.1
    rw [hfits] at hlarge
    nomatch hlarge
  rw [if_neg hlarge]
  by_cases hcan : t.leaf.canStore (t.probe id) = true
  · rw [if_neg (by simp [hcan])]
    have hprobe := Bool.eq_false_iff.mpr hlarge
    by_cases hland : t.pages.LandsFree new
    · by_cases hroom : t.pages.LandsInRoom new
      · obtain ⟨pages, ⟨hlong, hpages⟩ | ⟨hlong, hpages⟩⟩ :=
          DataPages.writeData_cases hland hroom
        · rw [hpages]
          simp only [addTuple_leafEntry hprobe hcan hget]
          by_cases hleaf : t.leaf.HasRoom (z.index.size (leafEntry id (t.pages.target new)))
          · obtain ⟨leaf, hadd, _⟩ := SlottedTuples.insertInto_of_hasRoom hleaf
            rw [hadd]
            exact .taken ⟨hget, hprobe, hcan, hland, hroom, Or.inr hleaf⟩
              (SlottedTuples.publish_cases leaf)
          · rw [SlottedTuples.insertInto_of_not_hasRoom hleaf]
            refine .refused _ (fun h => ?_) rfl rfl
            exact h.2.2.2.2.2.elim (by simp [hlong]) hleaf
        · rw [hpages]
          exact .taken ⟨hget, hprobe, hcan, hland, hroom, Or.inl hlong⟩ (Or.inr rfl)
      · obtain ⟨pages, hpages⟩ := DataPages.writeData_of_not_landsInRoom hland hroom
        rw [hpages]
        exact .refused _ (fun h => hroom h.2.2.2.2.1) rfl rfl
    · rw [DataPages.writeData_of_not_landsFree hland]
      exact .refused _ (fun h => hland h.2.2.2.1) rfl rfl
  · rw [if_pos hcan]
    exact .refused _ (fun h => hcan h.2.2.1) rfl rfl

/-- The entry is made to name another page, or the leaf refuses it. -/
theorem repoint_cases {e : Tuple κ Nat} (hget : t.leaf.get id = some e) (dp : Nat) :
    (t.RepointFits id dp ∧ ∃ leaf, t.repoint id dp = (leaf, .ok ())) ∨
      (¬ t.RepointFits id dp ∧
        ∃ leaf err, t.repoint id dp = (leaf, .error err) ∧ err.fromPage = true) := by
  have hfits : t.RepointFits id dp ↔
      t.EntryFits id dp ∧ t.leaf.RoomToReplace e (z.index.size (leafEntry id dp)) := by
    refine ⟨fun h => h e hget, fun h e' he' => ?_⟩
    obtain rfl := Option.some.inj (hget.symm.trans he')
    exact h
  rw [hfits]
  rcases SlottedTuples.replaceTuple_cases t.recordSize (leafEntry id dp) hget with
    ⟨hlarge, hroom, hleaf⟩ | hleaf
  · exact Or.inl ⟨⟨hlarge, hroom⟩, hleaf⟩
  · exact Or.inr hleaf

theorem relocate_settledBy (hid : new.id = id) {e : Tuple κ Nat} (hget : t.leaf.get id = some e)
    (oldDp : Nat) :
    SettledBy (SlottedTuples.overflowRefused z 1 (z.stored new) = true ∨
      t.RelocationFits oldDp id new) (t.relocate oldDp id new).2 := by
  unfold relocate
  by_cases hland : t.pages.LandsFree new
  · by_cases hroom : t.pages.LandsInRoom new
    · obtain ⟨pages, ⟨hlong, hpages⟩ | ⟨hlong, hpages⟩⟩ := DataPages.writeData_cases hland hroom
      · rw [hpages]
        dsimp only
        rcases repoint_cases hget (t.pages.target new) with ⟨hfits, leaf, hrep⟩ |
          ⟨hfits, leaf, err, hrep, herr⟩
        · rw [hrep]
          exact .taken (Or.inr (Or.inl ⟨hland, hroom, hfits⟩)) (SlottedTuples.publish_cases leaf)
        · rw [hrep]
          refine .refused err ?_ rfl herr
          rintro (hlong' | ⟨_, _, hfits'⟩ | ⟨hnot, _⟩)
          · rw [hlong] at hlong'
            nomatch hlong'
          · exact hfits hfits'
          · exact hnot hland
      · rw [hpages]
        exact .taken (Or.inl hlong) (Or.inr rfl)
    · obtain ⟨pages, hpages⟩ := DataPages.writeData_of_not_landsInRoom hland hroom
      rw [hpages]
      refine .refused _ ?_ rfl rfl
      rintro (hlong | ⟨_, hyes, _⟩ | ⟨hno, _⟩)
      · exact hroom (DataPages.lands_of_overflowRefused hlong).2
      · exact hroom hyes
      · exact hno hland
  · have hshort : SlottedTuples.overflowRefused z 1 (z.stored new) ≠ true :=
      fun hlong => hland (DataPages.lands_of_overflowRefused hlong).1
    rw [DataPages.writeData_of_not_landsFree hland]
    dsimp only
    rw [if_pos hid]
    by_cases hland' : (t.pages.removeRow oldDp id).LandsFree new
    · by_cases hroom : (t.pages.removeRow oldDp id).LandsInRoom new
      · obtain ⟨pages, ⟨_, hpages⟩ | ⟨hlong, _⟩⟩ := DataPages.writeData_cases hland' hroom
        · rw [hpages]
          dsimp only
          by_cases hold : (t.pages.removeRow oldDp id).target new = oldDp
          · rw [if_pos hold]
            exact .taken (Or.inr (Or.inr ⟨hland, hland', hroom, Or.inl hold⟩))
              (SlottedTuples.publish_cases _)
          · rw [if_neg hold]
            rcases repoint_cases hget ((t.pages.removeRow oldDp id).target new) with
              ⟨hfits, leaf, hrep⟩ | ⟨hfits, leaf, err, hrep, herr⟩
            · rw [hrep]
              exact .taken (Or.inr (Or.inr ⟨hland, hland', hroom, Or.inr hfits⟩))
                (SlottedTuples.publish_cases leaf)
            · rw [hrep]
              refine .refused err ?_ rfl herr
              rintro (hlong | ⟨hyes, _⟩ | ⟨_, _, _, hold' | hfits'⟩)
              · exact hshort hlong
              · exact hland hyes
              · exact hold hold'
              · exact hfits hfits'
        · exact absurd hlong hshort
      · obtain ⟨pages, hpages⟩ := DataPages.writeData_of_not_landsInRoom hland' hroom
        rw [hpages]
        refine .refused _ ?_ rfl rfl
        rintro (hlong | ⟨hyes, _⟩ | ⟨_, _, hyes, _⟩)
        · exact hshort hlong
        · exact hland hyes
        · exact hroom hyes
    · rw [DataPages.writeData_of_not_landsFree hland']
      refine .refused _ ?_ rfl rfl
      rintro (hlong | ⟨hyes, _⟩ | ⟨_, hyes, _⟩)
      · exact hshort hlong
      · exact hland hyes
      · exact hland' hyes

theorem applyReplace_settledBy (hid : new.id = id) {cur : Tuple κ δ} (hrow : t.row id = some cur) :
    SettledBy (t.ReplaceFits id new) (t.applyReplace id new).2 := by
  cases hget : t.leaf.get id with
  | none =>
    simp only [row, hget] at hrow
    nomatch hrow
  | some e =>
    have hcur : (t.pages.page e.data).get id = some cur := by
      simpa only [row, hget] using hrow
    have hfits : t.ReplaceFits id new ↔ if fitsInPlace (t.pages.page e.data) cur new then
        (t.pages.page e.data).RoomToReplace cur (z.size new)
      else SlottedTuples.overflowRefused z 1 (z.stored new) = true ∨
        t.RelocationFits e.data id new := by
      refine ⟨fun h => h e cur hget hrow, fun h e' cur' he' hcur' => ?_⟩
      obtain rfl := Option.some.inj (hget.symm.trans he')
      obtain rfl := Option.some.inj (hrow.symm.trans hcur')
      exact h
    unfold applyReplace
    simp only [hget, hrow, hfits]
    by_cases hplace : fitsInPlace (t.pages.page e.data) cur new = true
    · rw [if_pos hplace, if_pos hplace]
      rcases SlottedTuples.replaceTuple_cases none new hcur with
        ⟨_, hroom, page, hpage⟩ | ⟨hno, page, err, hpage, herr⟩
      · rw [hpage]
        exact .taken hroom (SlottedTuples.publish_cases page)
      · rw [hpage]
        exact .refused err (fun hroom => hno ⟨rfl, hroom⟩) rfl herr
    · rw [if_neg hplace, if_neg hplace]
      exact relocate_settledBy hid hget e.data

end DataTree

namespace LeafTree

variable {κ δ : Type*} {z : Sizing κ δ} {t : LeafTree z} {id : κ} {tuple new : Tuple κ δ}

theorem checkFits_ok (h : t.checkFits tuple = .ok ()) :
    z.size tuple + preLsnGrowth ≤ t.leafBudget := by
  unfold LeafTree.checkFits at h
  split at h
  · nomatch h
  · next hle => exact Nat.le_of_not_lt hle

variable [DecidableEq κ]

/-- A leaf that is not full for what is asked takes a new row within its budget,
if its buffer has the room. -/
theorem applyInsert_settledBy {room : Nat} (hfull : t.isFullFor room = false)
    (hid : new.id = id) (hget : t.leaf.get id = none) (hsize : z.size new ≤ room)
    (hbudget : z.size new ≤ t.leafBudget) :
    SettledBy (t.leaf.HasRoom (z.size new)) (t.apply id (.insert new)).2 := by
  have hcan : t.leaf.canStore new = true := by
    refine SlottedTuples.canStore_iff.mpr (Or.inr ?_)
    have hfree := of_decide_eq_false hfull
    simp only [Sizing.stored, fullSlack] at hfree ⊢
    omega
  have hlarge : SlottedTuples.tooLarge (some t.leafBudget) (z.size new) = false :=
    decide_eq_false (by omega)
  simp only [apply, hget, Option.isSome_none, Bool.false_eq_true, if_false,
    SlottedTuples.addTuple_eq hlarge hcan, SlottedTuples.add_eq (hid ▸ hget)]
  by_cases hroom : t.leaf.HasRoom (z.size new)
  · obtain ⟨leaf, hadd, _⟩ := SlottedTuples.insertInto_of_hasRoom hroom
    rw [hadd]
    exact .taken hroom (SlottedTuples.publish_cases leaf)
  · rw [SlottedTuples.insertInto_of_not_hasRoom hroom]
    exact .refused _ hroom rfl rfl

/-- A leaf replaces a row, if the new version is within its budget and has the
room. -/
theorem applyReplace_settledBy {cur : Tuple κ δ} (hget : t.leaf.get id = some cur) :
    SettledBy (z.size new ≤ t.leafBudget ∧ t.leaf.RoomToReplace cur (z.size new))
      (t.apply id (.replace new)).2 := by
  have hlarge : SlottedTuples.tooLarge (some t.leafBudget) (z.size new) = false ↔
      z.size new ≤ t.leafBudget := by
    simp [SlottedTuples.tooLarge]
  simp only [apply, hget, Option.isSome_some, if_true, ← hlarge]
  rcases SlottedTuples.replaceTuple_cases (some t.leafBudget) new hget with
    ⟨hbudget, hroom, leaf, hleaf⟩ | ⟨hno, leaf, err, hleaf, herr⟩
  · rw [hleaf]
    exact .taken ⟨hbudget, hroom⟩ (SlottedTuples.publish_cases leaf)
  · rw [hleaf]
    exact .refused err hno rfl herr

end LeafTree

namespace Tree

variable {κ δ : Type*} {z : Sizing κ δ}

/-- A row is within the budget of the leaves, where these hold rows. -/
def WithinBudget : Tree z → Tuple κ δ → Prop
  | .data _, _ => True
  | .leaves t, new => z.size new ≤ t.leafBudget

variable {t : Tree z} {txn : Nat} {tuple : Tuple κ δ}

/-- `check_fits` leaves room in the budget for what an insert writes. -/
theorem withinBudget_insert (h : t.checkFits (.insert txn tuple) = .ok ()) {v : Tuple κ δ}
    (hid : v.id = tuple.id) (hdata : v.data = tuple.data) (htxn : v.txnId = some txn) :
    t.WithinBudget v := by
  have hsize : z.size v ≤ z.size (Db.stamped tuple txn) + preLsnGrowth :=
    size_version_le z hid hdata htxn
  cases t with
  | data t => trivial
  | leaves t => exact Nat.le_trans hsize (LeafTree.checkFits_ok h)

/-- And for what an update writes. -/
theorem withinBudget_update (h : t.checkFits (.update txn tuple) = .ok ()) {v : Tuple κ δ}
    (hid : v.id = tuple.id) (hdata : v.data = tuple.data) (htxn : v.txnId = some txn) :
    t.WithinBudget v := by
  have hsize : z.size v ≤ z.size { tuple with txnId := some txn } + preLsnGrowth :=
    size_version_le z hid hdata htxn
  cases t with
  | data t => trivial
  | leaves t => exact Nat.le_trans hsize (LeafTree.checkFits_ok h)

variable [DecidableEq κ]

/-- A new row can be written, in the limits that are checked beforehand. -/
def InsertFits : Tree z → κ → Tuple κ δ → Prop
  | .data t, id, new => t.InsertFits id new
  | .leaves t, _, new => t.leaf.HasRoom (z.size new)

/-- A row can be replaced. -/
def ReplaceFits : Tree z → κ → Tuple κ δ → Prop
  | .data t, id, new => t.ReplaceFits id new
  | .leaves t, id, new => ∀ cur, t.leaf.get id = some cur → t.leaf.RoomToReplace cur (z.size new)

variable {id : κ} {cur : Tuple κ δ}

theorem apply_insert_settledBy (hroom : t.hasRoom (.insert txn tuple) = true)
    (hrow : t.row tuple.id = none) (hbudget : t.WithinBudget (Db.stamped tuple txn)) :
    SettledBy (t.InsertFits tuple.id (Db.stamped tuple txn))
      (t.apply tuple.id (.insert (Db.stamped tuple txn))).2 := by
  cases t with
  | data t => exact DataTree.applyInsert_settledBy
  | leaves t =>
    have hfull : t.isFullFor (z.size (Db.stamped tuple txn) + preLsnGrowth) = false := by
      simpa [room] using (Bool.and_eq_true_iff.mp hroom).1
    exact LeafTree.applyInsert_settledBy hfull rfl hrow (Nat.le_add_right ..) hbudget

theorem apply_replace_settledBy (new : Tuple κ δ) (hid : new.id = id) (hrow : t.row id = some cur) :
    SettledBy (t.WithinBudget new ∧ t.ReplaceFits id new) (t.apply id (.replace new)).2 := by
  cases t with
  | data t =>
    have hsettled := DataTree.applyReplace_settledBy hid hrow
    rwa [← true_and (t.ReplaceFits id new)] at hsettled
  | leaves t =>
    have hroom : (Tree.leaves t).ReplaceFits id new ↔
        t.leaf.RoomToReplace cur (z.size new) := by
      refine ⟨fun h => h cur hrow, fun h cur' hcur' => ?_⟩
      obtain rfl := Option.some.inj (hrow.symm.trans hcur')
      exact h
    rw [hroom]
    exact LeafTree.applyReplace_settledBy hrow

end Tree

/-! ## What a call leaves -/

namespace TreeStore

variable {κ δ : Type*} [DecidableEq κ] {z : Sizing κ δ}

/-- If the call fails, the tree, the version store and the log are as they
were. -/
def LeavesNoTrace (s : TreeStore z) (call : WriteCall κ δ) : Prop :=
  ∀ e, (s.write call).2 = .error e → e.isRefusal = true →
    (s.write call).1.tree = s.tree ∧ (s.write call).1.db.versions = s.db.versions ∧
      (s.write call).1.db.log = s.db.log

/-- The version with which an insert takes over a tombstone. -/
def revived (txn lsn : Nat) (tuple c : Tuple κ δ) : Tuple κ δ :=
  { c with txnId := some txn, preLsn := some lsn, data := tuple.data, tombstoned := false }

/-- The version an update makes. -/
def updated (txn lsn : Nat) (tuple old : Tuple κ δ) : Tuple κ δ :=
  { old with txnId := some txn, preLsn := some lsn, data := tuple.data }

/-- The version a remove makes. -/
def tombstone (txn lsn : Nat) (old : Tuple κ δ) : Tuple κ δ :=
  { old with txnId := some txn, tombstoned := true, preLsn := some lsn }

/-- What the pages have to take of a call, in terms of the row it finds. -/
def Takes (s : TreeStore z) (call : WriteCall κ δ) : Prop :=
  match call with
  | .insert txn tuple =>
    match s.tree.row tuple.id with
    | none => s.tree.InsertFits tuple.id (Db.stamped tuple txn)
    | some c => c.tombstoned = true → s.db.nextLsn.1.checkWriteConflict c txn = .ok () →
        s.tree.ReplaceFits tuple.id (revived txn s.db.nextLsn.2 tuple c)
  | .update txn tuple =>
    ∀ old, s.db.nextLsn.1.replacedVersion tuple.id txn (s.tree.row tuple.id) = .ok old →
      s.tree.ReplaceFits tuple.id (updated txn s.db.nextLsn.2 tuple old)
  | .remove txn key =>
    ∀ old, s.db.nextLsn.1.replacedVersion key txn (s.tree.row key) = .ok old →
      s.tree.WithinBudget (tombstone txn s.db.nextLsn.2 old) ∧
        s.tree.ReplaceFits key (tombstone txn s.db.nextLsn.2 old)

/-- A call is ready to be decided: its transaction is active, its tuple is
within the budget of a tree with its rows in its leaves, and its leaf has the
room it asks for. -/
def Ready (s : TreeStore z) (call : WriteCall κ δ) : Prop :=
  s.db.requireActive call.txn = .ok () ∧ s.tree.checkFits call = .ok () ∧
    s.tree.hasRoom call = true

/-- The pages take the call, if it gets as far as being decided. -/
def Fits (s : TreeStore z) (call : WriteCall κ δ) : Prop := s.Ready call → s.Takes call

variable {s : TreeStore z} {call : WriteCall κ δ}

/-- A call refused before it is decided leaves nothing. -/
theorem leavesNoTrace_of_not_decided
    (h : ∀ db d, s.Ready call →
      call.decideOn s.db.nextLsn.1 s.db.nextLsn.2 (s.tree.row call.key) ≠ .ok (db, d)) :
    s.LeavesNoTrace call := by
  intro e _ _
  unfold write
  cases hactive : s.db.requireActive call.txn with
  | error _ => exact ⟨rfl, rfl, rfl⟩
  | ok _ =>
    cases hfits : s.tree.checkFits call with
    | error _ => exact ⟨rfl, rfl, rfl⟩
    | ok _ =>
      simp only [writeVersionSized]
      cases hroom : s.tree.hasRoom call with
      | false => exact ⟨rfl, rfl, rfl⟩
      | true =>
        cases hdec : call.decideOn s.db.nextLsn.1 s.db.nextLsn.2 (s.tree.row call.key) with
        | error _ => exact ⟨rfl, rfl, rfl⟩
        | ok r => exact absurd hdec (h r.1 r.2 ⟨hactive, hfits, hroom⟩)

/-- A call that is decided is in the log, so that it leaves no trace only if it
does not fail. -/
theorem leavesNoTrace_iff_of_decided {op : Operation κ δ} {d : Decision κ δ} {fits : Prop}
    (hready : s.Ready call)
    (hdec : call.decideOn s.db.nextLsn.1 s.db.nextLsn.2 (s.tree.row call.key) =
      .ok (s.db.nextLsn.1.recordWrite s.db.nextLsn.2 op, d))
    (hsettled : SettledBy fits (s.tree.apply call.key d).2) :
    s.LeavesNoTrace call ↔ fits := by
  obtain ⟨hactive, hfits, hroom⟩ := hready
  have hversion : { s with db := s.db.nextLsn.1 }.writeVersionSized call s.db.nextLsn.2 =
      (⟨s.db.nextLsn.1.recordWrite s.db.nextLsn.2 op, (s.tree.apply call.key d).1⟩,
        (s.tree.apply call.key d).2) := by
    simp only [writeVersionSized, hroom, if_true, hdec]
  unfold LeavesNoTrace write
  simp only [hactive, hfits, hversion]
  cases hsettled with
  | taken hyes hr =>
    refine ⟨fun _ => hyes, fun _ e he href => ?_⟩
    rcases hr with hr | hr
    · rw [hr] at he
      nomatch he
    · rw [hr] at he
      obtain rfl := Except.error.inj he
      nomatch href
  | refused err hno hr herr =>
    refine ⟨fun h => ?_, fun hyes => absurd hyes hno⟩
    have hsame : afterWrite (s.db.nextLsn.1.recordWrite s.db.nextLsn.2 op) call.txn err =
        err := by
      unfold afterWrite
      split
      · nomatch herr
      · rfl
    rw [hr] at h
    obtain ⟨_, _, hlog⟩ :=
      h err (congrArg Except.error hsame) (StoreError.isRefusal_of_fromPage herr)
    have hlen := congrArg List.length hlog
    simp [Db.recordWrite, Db.logRecord, Db.nextLsn] at hlen

/-- A refused call that the log has grown by leaves a trace. -/
theorem not_leavesNoTrace {e : StoreError κ} (herror : (s.write call).2 = .error e)
    (hrefusal : e.isRefusal = true) (hlog : (s.write call).1.db.log.length ≠ s.db.log.length) :
    ¬ s.LeavesNoTrace call :=
  fun h => hlog (congrArg List.length (h e herror hrefusal).2.2)

/-- A row is found under its own key. -/
theorem row_id {id : κ} {c : Tuple κ δ} (h : s.tree.row id = some c) : c.id = id := by
  cases htree : s.tree with
  | leaves t =>
    rw [htree] at h
    exact SlottedTuples.get_id h
  | data t =>
    rw [htree] at h
    simp only [Tree.row, DataTree.row] at h
    split at h
    · nomatch h
    · exact SlottedTuples.get_id h

/-- An insert. -/
theorem insert_iff {txn : Nat} {tuple : Tuple κ δ} (hready : s.Ready (.insert txn tuple)) :
    s.LeavesNoTrace (.insert txn tuple) ↔ s.Takes (.insert txn tuple) := by
  simp only [Takes]
  cases hrow : s.tree.row tuple.id with
  | none =>
    have hdec : (WriteCall.insert txn tuple).decideOn s.db.nextLsn.1 s.db.nextLsn.2
        (s.tree.row tuple.id) = .ok (s.db.nextLsn.1.recordWrite s.db.nextLsn.2
          (.add txn (Db.stamped tuple txn)), .insert (Db.stamped tuple txn)) := by
      rw [hrow]
      rfl
    exact leavesNoTrace_iff_of_decided hready hdec
      (Tree.apply_insert_settledBy hready.2.2 hrow
        (Tree.withinBudget_insert hready.2.1 rfl rfl rfl))
  | some c =>
    by_cases hdecided : c.tombstoned = true ∧ s.db.nextLsn.1.checkWriteConflict c txn = .ok ()
    · obtain ⟨htomb, hcheck⟩ := hdecided
      have hid := row_id hrow
      have hdec : (WriteCall.insert txn tuple).decideOn s.db.nextLsn.1 s.db.nextLsn.2
          (s.tree.row tuple.id) = .ok (s.db.nextLsn.1.recordWrite s.db.nextLsn.2
            (.mod txn c (revived txn s.db.nextLsn.2 tuple c)),
            .replace (revived txn s.db.nextLsn.2 tuple c)) := by
        rw [hrow]
        simp only [WriteCall.decideOn, Db.insertDecision, htomb, hcheck, if_true, Db.stamped,
          revived]
      have hbudget : s.tree.WithinBudget (revived txn s.db.nextLsn.2 tuple c) :=
        Tree.withinBudget_insert hready.2.1 hid rfl rfl
      have hsettled := Tree.apply_replace_settledBy (revived txn s.db.nextLsn.2 tuple c) hid hrow
      rw [and_iff_right hbudget] at hsettled
      rw [leavesNoTrace_iff_of_decided hready hdec hsettled]
      exact ⟨fun h _ _ => h, fun h => h htomb hcheck⟩
    · refine iff_of_true ?_ fun htomb hcheck => absurd ⟨htomb, hcheck⟩ hdecided
      refine leavesNoTrace_of_not_decided fun db d _ hdec => hdecided ?_
      simp only [WriteCall.decideOn, WriteCall.key, hrow, Db.insertDecision] at hdec
      split at hdec
      · next htomb =>
          split at hdec
          · cases hdec
          · next hcheck => exact ⟨htomb, hcheck⟩
      · cases hdec

/-- An update or a remove, which replace the row they find: by `version`, logged
as `op`. -/
theorem replace_iff (txn : Nat) (op : Tuple κ δ → Operation κ δ)
    (version : Tuple κ δ → Tuple κ δ) (hready : s.Ready call)
    (hdec : call.decideOn s.db.nextLsn.1 s.db.nextLsn.2 (s.tree.row call.key) =
      match s.db.nextLsn.1.replacedVersion call.key txn (s.tree.row call.key) with
      | .error e => .error e
      | .ok old => .ok (s.db.nextLsn.1.recordWrite s.db.nextLsn.2 (op old),
          .replace (version old)))
    {fits : Tuple κ δ → Prop}
    (hsettled : ∀ old, s.db.nextLsn.1.replacedVersion call.key txn (s.tree.row call.key) = .ok old →
      s.tree.row call.key = some old →
      SettledBy (fits old) (s.tree.apply call.key (.replace (version old))).2) :
    s.LeavesNoTrace call ↔
      ∀ old, s.db.nextLsn.1.replacedVersion call.key txn (s.tree.row call.key) = .ok old →
        fits old := by
  cases hold : s.db.nextLsn.1.replacedVersion call.key txn (s.tree.row call.key) with
  | error e =>
    rw [hold] at hdec
    refine iff_of_true ?_ (fun old hok => nomatch hok)
    refine leavesNoTrace_of_not_decided fun db d _ hdec' => ?_
    rw [hdec] at hdec'
    nomatch hdec'
  | ok old =>
    rw [hold] at hdec
    rw [leavesNoTrace_iff_of_decided hready hdec
      (hsettled old hold (Db.replacedVersion_ok hold).1)]
    exact ⟨fun h _ hok => Except.ok.inj hok ▸ h, fun h => h old rfl⟩

theorem update_iff {txn : Nat} {tuple : Tuple κ δ} (hready : s.Ready (.update txn tuple)) :
    s.LeavesNoTrace (.update txn tuple) ↔ s.Takes (.update txn tuple) := by
  refine replace_iff txn (fun old => .mod txn old (updated txn s.db.nextLsn.2 tuple old)) _ hready
    rfl fun old _ hrow => ?_
  have hid : old.id = tuple.id := row_id hrow
  have hbudget : s.tree.WithinBudget (updated txn s.db.nextLsn.2 tuple old) :=
    Tree.withinBudget_update hready.2.1 hid rfl rfl
  have hsettled := Tree.apply_replace_settledBy (updated txn s.db.nextLsn.2 tuple old) hid hrow
  rwa [and_iff_right hbudget] at hsettled

theorem remove_iff {txn : Nat} {key : κ} (hready : s.Ready (.remove txn key)) :
    s.LeavesNoTrace (.remove txn key) ↔ s.Takes (.remove txn key) :=
  replace_iff txn (fun old => .del txn old) _ hready rfl fun old _ hrow =>
    have hid : old.id = key := row_id hrow
    Tree.apply_replace_settledBy _ hid hrow

/-- A failed write leaves no trace, exactly where the pages take what is
decided. -/
theorem failed_write_leaves_no_trace_iff (s : TreeStore z) (call : WriteCall κ δ) :
    s.LeavesNoTrace call ↔ s.Fits call := by
  by_cases hready : s.Ready call
  · rw [Fits, imp_iff_right hready]
    cases call with
    | insert txn tuple => exact insert_iff hready
    | update txn tuple => exact update_iff hready
    | remove txn key => exact remove_iff hready
  · exact iff_of_true (leavesNoTrace_of_not_decided fun _ _ h => absurd h hready)
      fun h => absurd h hready

/-! ## Failed inserts that are logged -/

/-- Pages of 4096 bytes, for keys that are byte strings and rows of which the
length is all that matters. -/
def bytePages : Sizing (List Nat) Nat where
  pageDataSize := 4096 - 112
  keyLen := fun key => 1 + varintLen key.length + key.length
  dataLen := id

/-- A table as `create_table` makes it, with the index entry size meant for row
ids, and two transactions that have begun. -/
def freshTable : TreeStore bytePages where
  db := (Db.begin (Db.begin Db.new .continueOnConflict).1 .continueOnConflict).1
  tree := .data
    { recordSize := some 48
      countCap := none
      nodesPerPage := 85
      leaf := .new _
      pages := ⟨fun _ => .new _, [4], 0, 5, [], by decide⟩ }

/-- A key of 90 bytes. -/
def longKey : Tuple (List Nat) Nat := ⟨List.replicate 90 0, 1, none, none, false⟩

/-- The insert returns `TupleTooLarge`, and its `Add` is in the log. -/
theorem oversized_key_is_logged :
    (freshTable.write (.insert 1 longKey)).2 = .error (.tupleTooLarge 98 48) ∧
      (freshTable.write (.insert 1 longKey)).1.db.log = [⟨3, .add 1 (Db.stamped longKey 1)⟩] ∧
      ¬ freshTable.LeavesNoTrace (.insert 1 longKey) := by
  have herror : (freshTable.write (.insert 1 longKey)).2 = .error (.tupleTooLarge 98 48) := by
    decide
  exact ⟨herror, by decide, not_leavesNoTrace herror rfl (by decide)⟩

/-- Transaction 1 has filled the table's page with a row of 3900 bytes and has
been rolled back.  The heap of the page then starts where it did, so that the
row of 500 bytes that transaction 2 writes gets a buffer of its own size. -/
def shrunkenTable : TreeStore bytePages :=
  let s := (freshTable.write (.insert 1 ⟨[1], 3900, none, none, false⟩)).1
  let s := { s with tree := (s.tree.apply [1] .delete).1 }
  (s.write (.insert 2 ⟨[2], 500, none, none, false⟩)).1

/-- `can_store` accepts the second row of transaction 2, the buffer has no room
for it, and its `Add` is in the log. -/
theorem row_for_shrunken_page_is_logged :
    (shrunkenTable.write (.insert 2 ⟨[3], 500, none, none, false⟩)).2 =
        .error .pageCapacityError ∧
      ¬ shrunkenTable.LeavesNoTrace (.insert 2 ⟨[3], 500, none, none, false⟩) := by
  have herror : (shrunkenTable.write (.insert 2 ⟨[3], 500, none, none, false⟩)).2 =
      .error .pageCapacityError := by decide
  exact ⟨herror, not_leavesNoTrace herror rfl (by decide)⟩

end TreeStore

end SquealDb.Store
