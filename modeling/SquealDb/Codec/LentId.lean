import SquealDb.Codec.TupleCodec

/-!
# Lent ids behave as owned ids

An id is lent as it is owned, or from a tuple's bytes in either form.  However two
ids are held, comparing, equality, hashing and the probes of a page search say of
them what `DBIdType` says.
-/

namespace SquealDb.Codec

open Lib KeyCode

/-- `r` lends `id`: it borrows the id, or was read from a tuple's bytes that hold
it in a form it can be kept in. -/
inductive Lends : IdRef → DBIdType → Prop
  | owned (id : DBIdType) : Lends (.owned id) id
  | wire (form : IdForm) (id : DBIdType) (hform : form.Allows id)
      (hlen : (form.bytes id).length < 2 ^ 64) : Lends (.wire (form.wireId id)) id

/-! ## What a lent id shows -/

variable {r s : IdRef} {a b : DBIdType}

theorem Lends.int {n : UInt64} (h : Lends r (.int n)) :
    r.keyValues = none ∧ r.asInt = some n := by
  cases h with
  | owned => exact ⟨rfl, rfl⟩
  | wire form => cases form <;> exact ⟨rfl, rfl⟩

theorem Lends.record {k : IndexKey} (h : Lends r (.record k)) :
    ∃ vs, r.keyValues = some vs ∧ IndexKey.tight vs = IndexKey.tight k := by
  cases h with
  | owned => exact ⟨k, rfl, rfl⟩
  | wire form id hform hlen => exact keyValues_wireId hform hlen

/-- Bytes are lent only of a record key, and are its fields'. -/
theorem Lends.storedBytes {id : DBIdType} (h : Lends r id) {x : List UInt8}
    (hx : r.storedBytes = some x) : ∃ k, id = .record k ∧ x = k.flatMap fieldBytes := by
  cases h with
  | owned => cases hx
  | wire form id hform hlen =>
    cases id with
    | int n => cases form <;> cases hx
    | record k =>
      cases form with
      | values => cases hx
      | stored => exact ⟨k, rfl, (Option.some.inj hx).symm⟩

/-- A probe's bytes, too. -/
theorem Lends.probeBytes {id : DBIdType} (h : Lends r id) {x : List UInt8}
    (hx : (Probe.mk r).bytes = some x) : ∃ k, id = .record k ∧ x = k.flatMap fieldBytes := by
  unfold Probe.bytes at hx
  split at hx
  · next bytes hbytes =>
      cases hx
      exact h.storedBytes hbytes
  · split at hx
    · next k hid =>
        split at hx
        · cases hx
          cases hid
          cases h
          exact ⟨k, rfl, stored_bytes k⟩
        · cases hx
    · cases hx

/-! ## Capacities do not matter -/

theorem cmpValues_tight (as bs : IndexKey) :
    cmpValues (IndexKey.tight as) (IndexKey.tight bs) = cmpValues as bs := by
  induction as generalizing bs with
  | nil => cases bs <;> rfl
  | cons a as ih =>
    cases bs with
    | nil => rfl
    | cons b bs =>
      have hrest := ih bs
      simp only [IndexKey.tight, List.map_cons, cmpValues, ValueItem.cmp_tight] at hrest ⊢
      rw [hrest]

theorem cmpValues_congr {as as' bs bs' : IndexKey} (ha : IndexKey.tight as = IndexKey.tight as')
    (hb : IndexKey.tight bs = IndexKey.tight bs') : cmpValues as bs = cmpValues as' bs' := by
  rw [← cmpValues_tight as, ha, hb, cmpValues_tight]

theorem eqValues_eq (as bs : IndexKey) : eqValues as bs = IndexKey.eq as bs := by
  induction as generalizing bs with
  | nil => cases bs <;> rfl
  | cons a as ih =>
    cases bs with
    | nil => rfl
    | cons b bs =>
      rw [eqValues, IndexKey.eq, ih]
      cases a.eq b <;> rfl

theorem IndexKey.eq_congr {as as' bs bs' : IndexKey}
    (ha : IndexKey.tight as = IndexKey.tight as') (hb : IndexKey.tight bs = IndexKey.tight bs') :
    IndexKey.eq as bs = IndexKey.eq as' bs' := by
  rw [Bool.eq_iff_iff, IndexKey.eq_iff_tight, IndexKey.eq_iff_tight, ha, hb]

/-- Two keys' stored bytes compare as the keys do. -/
theorem compare_stored (j k : IndexKey) :
    compare (j.flatMap fieldBytes) (k.flatMap fieldBytes) =
      (DBIdType.record j).cmp (.record k) := by
  rw [compare_fields, ← cmpValues_eq]
  rfl

theorem beq_stored (j k : IndexKey) :
    (j.flatMap fieldBytes == k.flatMap fieldBytes) = (DBIdType.record j).eq (.record k) := by
  rw [Bool.eq_iff_iff, beq_iff_eq, ← DBIdType.cmp_eq_iff, ← compare_stored, Std.compare_eq_iff_eq]

/-! ## Comparing -/

/-- Reading the values, two lent ids compare as the ids do. -/
theorem Lends.cmpRead (hr : Lends r a) (hs : Lends s b) :
    (match r.keyValues, s.keyValues with
      | some as, some bs => cmpValues as bs
      | none, none => compare r.asInt s.asInt
      | some _, none => .lt
      | none, some _ => .gt) = a.cmp b := by
  cases a with
  | int m =>
    obtain ⟨hvalues, hint⟩ := hr.int
    cases b with
    | int n =>
      obtain ⟨hvalues', hint'⟩ := hs.int
      simp only [hvalues, hvalues', hint, hint']
      rfl
    | record k =>
      obtain ⟨vs, hvalues', -⟩ := hs.record
      simp only [hvalues, hvalues']
      rfl
  | record j =>
    obtain ⟨us, hvalues, htight⟩ := hr.record
    cases b with
    | int n =>
      obtain ⟨hvalues', -⟩ := hs.int
      simp only [hvalues, hvalues']
      rfl
    | record k =>
      obtain ⟨vs, hvalues', htight'⟩ := hs.record
      simp only [hvalues, hvalues']
      exact cmpValues_congr htight htight'

theorem Lends.cmp (hr : Lends r a) (hs : Lends s b) :
    r.cmp s = a.cmp b := by
  unfold IdRef.cmp
  split
  · next x y hx hy =>
      obtain ⟨j, rfl, rfl⟩ := hr.storedBytes hx
      obtain ⟨k, rfl, rfl⟩ := hs.storedBytes hy
      exact compare_stored j k
  · exact hr.cmpRead hs

/-- Reading the values, two lent ids are equal exactly if the ids are. -/
theorem Lends.eqRead (hr : Lends r a) (hs : Lends s b) :
    r.eqRead s = a.eq b := by
  unfold IdRef.eqRead
  cases a with
  | int m =>
    obtain ⟨hvalues, hint⟩ := hr.int
    cases b with
    | int n =>
      obtain ⟨hvalues', hint'⟩ := hs.int
      simp only [hvalues, hvalues', hint, hint']
      rfl
    | record k =>
      obtain ⟨vs, hvalues', -⟩ := hs.record
      simp only [hvalues, hvalues']
      rfl
  | record j =>
    obtain ⟨us, hvalues, htight⟩ := hr.record
    cases b with
    | int n =>
      obtain ⟨hvalues', -⟩ := hs.int
      simp only [hvalues, hvalues']
      rfl
    | record k =>
      obtain ⟨vs, hvalues', htight'⟩ := hs.record
      simp only [hvalues, hvalues']
      rw [eqValues_eq]
      exact IndexKey.eq_congr htight htight'

/-- Keys lent as the same bytes have the same values. -/
theorem sameBytes_eq {r s : WireKey} (hr : Lends (.wire (.record r)) a)
    (hs : Lends (.wire (.record s)) b) (h : r.sameBytes s = true) : a.eq b = true := by
  have hsame : r = s := by
    obtain ⟨rc, rb⟩ := r
    obtain ⟨sc, sb⟩ := s
    simpa [WireKey.sameBytes] using h
  subst hsame
  have hread := hr.eqRead hs
  rw [← hread]
  simp only [IdRef.eqRead, IdRef.keyValues]
  rw [eqValues_eq, IndexKey.eq_iff_tight]

theorem Lends.eq (hr : Lends r a) (hs : Lends s b) :
    r.eq s = a.eq b := by
  have hread := hr.eqRead hs
  unfold IdRef.eq
  split
  · cases hr
    cases hs
    rfl
  · split
    · next hsame => exact (sameBytes_eq hr hs hsame).symm
    · exact hread
  · obtain ⟨j, rfl, hx⟩ := hr.storedBytes rfl
    obtain ⟨k, rfl, hy⟩ := hs.storedBytes rfl
    rw [hx, hy]
    exact beq_stored j k
  · exact hread

theorem Lends.hashed (hr : Lends r a) : r.hashed = a.hashed := by
  cases a with
  | int n =>
    obtain ⟨hvalues, hint⟩ := hr.int
    simp only [IdRef.hashed, hvalues, hint]
    rfl
  | record k =>
    obtain ⟨vs, hvalues, htight⟩ := hr.record
    simp only [IdRef.hashed, hvalues]
    rw [← IndexKey.hashRefs_tight vs, htight, IndexKey.hashRefs_tight]
    rfl

theorem Lends.cmpSlot (hr : Lends r a) (hs : Lends s b) :
    (Probe.mk r).cmpSlot s = b.cmp a := by
  unfold Probe.cmpSlot
  split
  · next x y hx hy =>
      obtain ⟨j, rfl, rfl⟩ := hs.storedBytes hx
      obtain ⟨k, rfl, rfl⟩ := hr.probeBytes hy
      exact compare_stored j k
  · exact hs.cmp hr

theorem Lends.isSlot (hr : Lends r a) (hs : Lends s b) :
    (Probe.mk r).isSlot s = b.eq a := by
  unfold Probe.isSlot
  split
  · next x y hx hy =>
      obtain ⟨j, rfl, rfl⟩ := hs.storedBytes hx
      obtain ⟨k, rfl, rfl⟩ := hr.probeBytes hy
      exact beq_stored j k
  · exact hs.eq hr

/-- Lent ids compare, equal, hash and are found as the ids they lend, in every
mixture of forms. -/
theorem lent_id_behaves {r s : IdRef} {a b : DBIdType} (hr : Lends r a) (hs : Lends s b) :
    r.cmp s = a.cmp b ∧ r.eq s = a.eq b ∧ (Probe.mk r).cmpSlot s = b.cmp a ∧
      (Probe.mk r).isSlot s = b.eq a ∧ r.hashed = a.hashed :=
  ⟨hr.cmp hs, hr.eq hs, hr.cmpSlot hs, hr.isSlot hs, hr.hashed⟩

/-- A key kept as bytes against one that has no such form. -/
theorem lent_id_behaves_mixed :
    (IdRef.wire (IdForm.stored.wireId (.record [.blob [1] 1]))).cmp
        (.wire (IdForm.values.wireId (.record [.blob [1, 0] 9]))) = .lt :=
  (lent_id_behaves
    (.wire .stored (.record [.blob [1] 1]) (show Storable [.blob [1] 1] by decide) (by decide))
    (.wire .values (.record [.blob [1, 0] 9]) trivial (by decide))).1

end SquealDb.Codec
