import SquealDb.Page.SlottedReload
import SquealDb.Page.Space

/-!
# A page that refuses a tuple

`add_tuple` and `replace_tuple` may move the records together before they find that
there is no room; `replace` takes the old slot away before it makes room for the new
tuple.  Where they refuse the tuple, the page shows what it showed: a replacement
checks first that the room will be found.
-/

namespace SquealDb.Space

open Lib Codec KeyCode SquealDb.Page

/-- The errors by which a page refuses a tuple. -/
def Refuses : StoreError → Prop
  | .tupleTooLarge _ _ | .pageCapacityError | .duplicateKey _ | .keyNotFound _ => True
  | _ => False

section Content

variable {p : SlottedPage} {rs : List (List UInt8)} {es : List Entry} {idx : Nat}
  {bad : StoreError → Prop} {e : StoreError} {t : Tuple}

/-- Room is made, or the records and their entries leave none. -/
theorem ensureRoom_cases (h : Shows p rs) (len : Nat) :
    (∃ p', SlottedPage.ensureRoom len p = (.ok (), p')) ∨
      ∃ p', SlottedPage.ensureRoom len p = (.error (.error .pageCapacityError), p') ∧
        Shows p' rs ∧ rs ≠ [] ∧ p.buf.length < dirOffset (rs.length + 1) + len + sizes rs := by
  by_cases hnil : rs = []
  · subst hnil
    exact Or.inl (ensureRoom_empty h len)
  · obtain ⟨p', hshows, -, -, -, hroom | ⟨hroom, hne, hfull⟩⟩ :=
      h.ensureRoom fun hnil' : rs = [] => absurd hnil' hnil
    · exact Or.inl ⟨p', hroom.1⟩
    · exact Or.inr ⟨p', hroom, hshows, hne, hfull⟩

/-- An addition that is refused leaves what the page shows, compacted or not. -/
theorem add_refused (h : Shows p rs) (hbad : ¬ bad malformed) (he : bad e)
    (hfail : (SlottedPage.add t p).1 = .error (.error e)) : Shows (SlottedPage.add t p).2 rs := by
  cases hplace : p.addPlace t.id with
  | error halt =>
    rw [add_error hplace]
    exact h
  | ok lo =>
    rcases ensureRoom_cases h (t.encodeInto []).length with
      ⟨p', hroom⟩ | ⟨p', hroom, hshows, -⟩
    · exact absurd hfail (add_avoids_of_room hbad hplace hroom e he)
    · unfold SlottedPage.add
      rw [Attempt.read_bind, hplace]
      dsimp only
      rw [Attempt.bind_error hroom]
      exact hshows

/-- The branch of `replace` that takes the old slot away is past all refusals. -/
theorem reinsert_refused (h : Shows p (es.map Entry.bytes)) (hidx : idx < es.length)
    {s : SlotEntry} (hs : p.slot idx = .ok s) (hbad : ¬ bad malformed) (he : bad e)
    {id : DBIdType} {encoded : List UInt8}
    (hfail : (SlottedPage.reinsert id idx s encoded p).1 = .error (.error e)) :
    (SlottedPage.reinsert id idx s encoded p).2 = p := by
  have hidx' : idx < (es.map Entry.bytes).length := by simpa using hidx
  by_cases hfull : (es.map Entry.bytes).length > 1 ∧
      p.heapStart - dirOffset (es.map Entry.bytes).length + p.deadHeapBytes + s.len.toNat <
        encoded.length
  · unfold SlottedPage.reinsert
    rw [Attempt.read_bind, h.checkReclaimable, if_pos hfull]
  · exfalso
    obtain ⟨p₀, hdelete, hshows, -, -, -, hbuf, -⟩ := h.deleteSlot hidx
    unfold SlottedPage.reinsert at hfail
    rw [Attempt.read_bind, h.checkReclaimable, if_neg hfull] at hfail
    dsimp only at hfail
    rw [Attempt.bind_ok hdelete] at hfail
    rcases ensureRoom_cases hshows encoded.length with ⟨p₁, hroom⟩ | ⟨p₁, -, -, hne, hnone⟩
    · rw [Attempt.bind_ok hroom] at hfail
      revert hfail
      refine (show Avoids bad _ from ?_) e he
      have hbound : Avoids bad (p₁.lowerBound id) := Avoids.search hbad p₁ _ _
      refine Avoids.attempt_read_bind hbound fun place => ?_
      refine Avoids.attempt_read_bind (idEnd_avoids hbad _) fun stop => ?_
      refine Avoids.attempt_bind (Avoids.attempt_update (Avoids.insertAt _ _ _ _ _)) ?_
      intro u p' _
      exact Avoids.ok _
    · -- the check has found the room
      have hcounted := h.room_of_reclaimable hidx' hs
        (by rw [List.eraseIdx_map]; exact hne) hfull
      rw [List.eraseIdx_map] at hcounted
      omega

/-- A replacement that is refused has changed nothing. -/
theorem replace_refused (h : Shows p (es.map Entry.bytes)) (hbad : ¬ bad malformed)
    (he : bad e) {id : DBIdType} (hfail : (SlottedPage.replace id t p).1 = .error (.error e)) :
    (SlottedPage.replace id t p).2 = p := by
  have hsafe := h.findExactRef_safe (.owned id)
  cases hfind : p.findExact id with
  | error halt => rw [replace_error hfind]
  | ok found =>
    cases found with
    | none => rw [replace_not_found hfind]
    | some idx =>
      have hidx : idx < es.length := by simpa using hsafe.1 _ hfind idx rfl
      rcases Nat.lt_or_ge es[idx].bytes.length (Entry.of t).bytes.length with hbig | hfits
      · obtain ⟨s, hs, hanew⟩ := h.replace_anew hfind hidx hbig
        rw [hanew] at hfail ⊢
        exact reinsert_refused h hidx hs hbad he hfail
      · obtain ⟨d, hok, -⟩ := h.replace_inPlace hfind hidx hfits
        rw [hok] at hfail
        cases hfail

end Content

/-! ## The contents a page can have -/

/-- What becomes of a page's content: an operation, or it is written out and read in. -/
inductive ContentStep where
  | op (op : PageOp)
  | reload

namespace ContentStep

def Fits : ContentStep → Prop
  | .op o => o.Fits
  | .reload => True

def step (p : SlottedPage) : ContentStep → SlottedPage
  | .op o => o.step p
  | .reload =>
    match SlottedPage.fromBytes p.toBytes with
    | .ok q => q
    | .error _ => p

end ContentStep

/-- The contents reached from a new one. -/
abbrev Content (capacity : Nat) : SlottedPage → Prop :=
  Reachable ContentStep.step (fun _ c => c.Fits) (SlottedPage.new capacity)

theorem shows_reload {p : SlottedPage} {es : List Entry} (h : Shows p (es.map Entry.bytes)) :
    Shows (ContentStep.step p .reload) (es.map Entry.bytes) := by
  obtain ⟨slots, hl, hrecords⟩ := h
  have hheap := hl.packed.floor_le
  have hdir := hl.dir_le
  obtain ⟨hsize, hbelow, hmet⟩ := lowestOffset_spec p.buf.length slots
  have hraise : p.heapStart ≤ lowestOffset p.buf.length slots := by
    rcases hmet with hmet | ⟨e, he, hmet⟩
    · omega
    · rw [hmet]
      exact (hl.inside he).1
  have hpacked := hl.packed.raise hraise hsize (by
    intro s hs
    obtain ⟨e, he, hspan⟩ := List.mem_map.mp hs
    rw [← hspan]
    exact hbelow e he)
  have hcount : slots.length = es.length := by
    have hlengths := congrArg List.length hrecords
    simpa using hlengths
  have hread := fromBytes_eq hl.dir (Nat.le_trans hdir hheap)
    (fun s hs => ⟨Nat.le_trans hdir (hl.inside hs).1, (hl.inside hs).2⟩) hrecords
  have hdead : Span.total (slots.map SlotEntry.span) = liveBytes slots := total_span_eq slots
  show Shows (match SlottedPage.fromBytes p.buf with | .ok q => q | .error _ => p) _
  rw [hread]
  refine ⟨slots, ⟨hl.small, hl.dir, Nat.le_trans hdir hraise, ?_, ?_, ?_⟩, hrecords⟩
  · have hsum := hpacked.dead_eq
    rw [hdead] at hsum
    rw [show p.buf.length - lowestOffset p.buf.length slots - liveBytes slots =
      p.deadHeapBytes - (lowestOffset p.buf.length slots - p.heapStart) by omega]
    exact hpacked
  · rw [List.length_map, hcount]
  · rw [List.length_map, hcount]

theorem Content.shows {capacity : Nat} (hcap : capacity < 2 ^ 32) {p : SlottedPage}
    (h : Content capacity p) : ∃ es : List Entry, Shows p (es.map Entry.bytes) := by
  refine Reachable.invariant (I := fun p => ∃ es : List Entry, Shows p (es.map Entry.bytes))
    ⟨[], shows_blank capacity hcap⟩ ?_ h
  intro p c hp hfits
  obtain ⟨es, hshows⟩ := hp
  cases c with
  | op o => exact (PageOp.kept hshows hfits).1
  | reload => exact ⟨es, shows_reload hshows⟩

/-! ## Pages -/

/-- A `Page` with its link and its bound, as the page's lock guards them together. -/
structure LinkedPage extends Page where
  nextPage : Nat
  highKey : Option DBIdType

namespace LinkedPage

/-- An operation that goes by the page's content and its space. -/
def onSpace {α : Type} (m : Page.Change α) : Attempt LinkedPage Halt α := fun pg =>
  ((m pg.toPage).1, { pg with toPage := (m pg.toPage).2 })

def addTuple (t : Tuple) : Attempt LinkedPage Halt Unit := onSpace (Page.addTuple t)

def replaceTuple (id : DBIdType) (t : Tuple) : Attempt LinkedPage Halt Tuple :=
  onSpace (Page.replaceTuple id t)

/-- What a reader of the page is told is the same. -/
structure Same (pg pg' : LinkedPage) : Prop where
  values : pg'.data.values = pg.data.values
  used : pg'.pageUsedSize = pg.pageUsedSize
  highKey : pg'.highKey = pg.highKey
  nextPage : pg'.nextPage = pg.nextPage

end LinkedPage

section Refused

variable {pg : Page} {es : List Entry} {bad : StoreError → Prop} {e : StoreError} {t : Tuple}

theorem addTuple_refused (h : Shows pg.data (es.map Entry.bytes)) (hbad : ¬ bad malformed)
    (he : bad e) (hfail : (Page.addTuple t pg).1 = .error (.error e)) :
    Shows (Page.addTuple t pg).2.data (es.map Entry.bytes) ∧
      (Page.addTuple t pg).2.pageUsedSize = pg.pageUsedSize := by
  unfold Page.addTuple at hfail ⊢
  by_cases hput : Within pg (size t) ∧ pg.canStoreLen (size t) = true
  · cases hadd : SlottedPage.add t pg.data with
    | mk r d =>
      cases r with
      | ok u =>
        rw [put_ok hput.1 hput.2 hadd] at hfail
        cases hfail
      | error halt =>
        rw [put_error hput.1 hput.2 hadd] at hfail ⊢
        have hkept := add_refused (t := t) h hbad he (by rw [hadd]; exact hfail)
        rw [hadd] at hkept
        exact ⟨hkept, rfl⟩
  · obtain ⟨e, hrefused, -⟩ := put_refused (m := SlottedPage.add t) hput
    rw [hrefused]
    exact ⟨h, rfl⟩

/-- Once the content is replaced, only the counter can fail. -/
theorem replaceTuple_counted {id : DBIdType} {old : Tuple} {d : SlottedPage}
    (hwithin : Within pg (size t)) (h : SlottedPage.replace id t pg.data = (.ok old, d))
    (hbad : ∀ what, ¬ bad (.unknownError what)) : Avoids bad (Page.replaceTuple id t pg).1 := by
  by_cases hle : size old ≤ pg.pageUsedSize
  · rw [replaceTuple_ok hwithin h hle]
    exact Avoids.ok _
  · unfold Page.replaceTuple
    rw [Attempt.read_bind, checkRecordSize_of_within hwithin]
    dsimp only
    rw [Attempt.bind_ok (onData_ok h), Attempt.read_bind]
    dsimp only
    rw [Attempt.update_bind, Page.giveBack, if_neg hle]
    intro e he heq
    cases heq
    exact hbad _ he

theorem replaceTuple_unchanged (h : Shows pg.data (es.map Entry.bytes)) (hbad : ¬ bad malformed)
    (hcount : ∀ what, ¬ bad (.unknownError what)) (he : bad e) {id : DBIdType}
    (hfail : (Page.replaceTuple id t pg).1 = .error (.error e)) :
    (Page.replaceTuple id t pg).2 = pg := by
  by_cases hwithin : Within pg (size t)
  · cases hreplace : SlottedPage.replace id t pg.data with
    | mk r d =>
      cases r with
      | ok old => exact absurd hfail (replaceTuple_counted hwithin hreplace hcount e he)
      | error halt =>
        rw [replaceTuple_error hwithin hreplace] at hfail ⊢
        have hfail' : (SlottedPage.replace id t pg.data).1 = .error (.error e) := by
          rw [hreplace]
          exact hfail
        have hsame := replace_refused h hbad he hfail'
        rw [hreplace] at hsame
        rw [show d = pg.data from hsame]
  · obtain ⟨e, hrefused, -⟩ := replaceTuple_refused id hwithin
    rw [hrefused]

end Refused

/-- A page that refuses a tuple tells its readers what it told them before. -/
theorem refusal_changes_nothing {capacity : Nat} (hcap : capacity < 2 ^ 32) {pg : LinkedPage}
    (h : Content capacity pg.data) {e : StoreError} (he : Refuses e) (t : Tuple) :
    ((LinkedPage.addTuple t pg).1 = .error (.error e) →
        LinkedPage.Same pg (LinkedPage.addTuple t pg).2) ∧
      ∀ id, (LinkedPage.replaceTuple id t pg).1 = .error (.error e) →
        LinkedPage.Same pg (LinkedPage.replaceTuple id t pg).2 := by
  obtain ⟨es, hshows⟩ := h.shows hcap
  constructor
  · intro hfail
    obtain ⟨hkept, hused⟩ := addTuple_refused hshows nofun he hfail
    exact ⟨by rw [hshows.values]; exact hkept.values, hused, rfl, rfl⟩
  · intro id hfail
    have hsame := replaceTuple_unchanged hshows nofun nofun he hfail
    have hpage : (LinkedPage.replaceTuple id t pg).2 = pg := by
      show { pg with toPage := (Page.replaceTuple id t pg.toPage).2 } = pg
      rw [hsame]
    rw [hpage]
    exact ⟨rfl, rfl, rfl, rfl⟩

/-- A page that was filled, emptied and begun anew, beside its link and its bound: its
buffer has room for one row only. -/
def shrunkPage : LinkedPage :=
  ⟨⟨run ContentStep.step (SlottedPage.new 48)
    [.op (.add (rowOf 1 24)), .op (.remove (.int 1)), .op (.add (rowOf 2 4))],
    size (rowOf 2 4) + entryOverhead, 48, none⟩, 7, some (.int 9)⟩

/-- It refuses a second row only after it was compacted. -/
theorem refusal_changes_nothing_compacted :
    LinkedPage.Same shrunkPage (LinkedPage.addTuple (rowOf 3 0) shrunkPage).2 := by
  have hcontent : Content 48 shrunkPage.data :=
    reachable_run _ ⟨show 16 + (Entry.of (rowOf 1 24)).bytes.length < 2 ^ 32 by decide, trivial,
      show 16 + (Entry.of (rowOf 2 4)).bytes.length < 2 ^ 32 by decide, trivial⟩
  exact (refusal_changes_nothing (by decide) hcontent (e := .pageCapacityError) trivial
    (rowOf 3 0)).1 (by decide +kernel)

end SquealDb.Space
