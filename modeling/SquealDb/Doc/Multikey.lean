import Mathlib.Data.List.Basic
import Mathlib.Logic.Function.Basic
import SquealDb.Lib.Run

/-!
# The multikey flag

`Inner::set_multikey` and `Inner::publish` of `sq-json/src/client.rs`, as the writers of a
collection come to them in `insert_entries` and `update_doc`, and `Client::start` after a
crash.  An index's flag is in memory and in the collection's catalog row: the writer that
first has a document with more than one key in the index sets it in memory and then
publishes the row, in a transaction of its own.
-/

namespace SquealDb.Doc.Multikey

open Lib

variable {ω ι δ : Type*}

/-! ## Writers -/

/-- A transaction: the documents it sees in the collection, and those it has written. -/
structure Txn (δ : Type*) where
  sees : List δ
  wrote : List δ

/-- How far a writer is. -/
inductive Writer (ι δ : Type*) where
  | idle
  /-- Its transaction is open, and no document is being written. -/
  | between (txn : Txn δ)
  /-- `insert_doc` or `update_doc`, with these indexes still to do. -/
  | writing (txn : Txn δ) (doc : δ) (todo : List ι)
  /-- `set_multikey` has set the flag, and is about to publish the collection. -/
  | swapped (txn : Txn δ) (doc : δ) (ix : ι) (todo : List ι)
  /-- `publish` holds `collections`, and commits this row. -/
  | publishing (txn : Txn δ) (doc : δ) (ix : ι) (todo : List ι) (entry : ι → Bool)
  /-- `set_multikey` has returned: the entries are written next. -/
  | entering (txn : Txn δ) (doc : δ) (ix : ι) (todo : List ι)
  /-- The operation has failed, and its transaction is rolled back next. -/
  | failed (txn : Txn δ)

/-- The transaction of a writer. -/
def Writer.txn : Writer ι δ → Option (Txn δ)
  | idle => none
  | between txn | writing txn _ _ | swapped txn _ _ _ | publishing txn _ _ _ _
  | entering txn _ _ _ | failed txn => some txn

/-- The client and the store below it. -/
structure State (ω ι δ : Type*) where
  /-- `IndexState::multikey`. -/
  flags : ι → Bool
  /-- The flags of the collection's row in the catalog. -/
  row : ι → Bool
  /-- Who holds `collections`. -/
  collections : Option ω
  /-- The documents that have been committed. -/
  committed : List δ
  writers : ω → Writer ι δ

/-- What happens next.  An operation fails on a key that is a duplicate or too large, on
parallel arrays or on a write conflict.  A commit of the catalog row fails before it is in the
log or after; a crash may come between the two as well, and it loses any of the documents whose
commits were not synced. -/
inductive Action (ω δ : Type*) where
  | begin (w : ω)
  | write (w : ω) (doc : δ)
  | proceed (w : ω)
  | fail (w : ω)
  | publishFails (w : ω) (logged : Bool)
  | commit (w : ω)
  | rollback (w : ω)
  | crash (logged : Bool) (survives : δ → Bool)

namespace State

/-- A collection without documents, just created. -/
def new : State ω ι δ where
  flags := fun _ => false
  row := fun _ => false
  collections := none
  committed := []
  writers := fun _ => .idle

variable [DecidableEq ω]

/-- Writer `w` goes on to `next`. -/
def goto (s : State ω ι δ) (w : ω) (next : Writer ι δ) : State ω ι δ :=
  { s with writers := Function.update s.writers w next }

variable [DecidableEq ι] (multikey : δ → ι → Bool)

/-- The next step of a writer's operation.  `multikey doc ix`: the document has more than one
key in the index. -/
def proceed (s : State ω ι δ) (w : ω) : State ω ι δ :=
  match s.writers w with
  | .writing txn doc [] => s.goto w (.between { txn with wrote := doc :: txn.wrote })
  | .writing txn doc (ix :: todo) =>
    if multikey doc ix then
      -- the flag is swapped: whoever finds it set does not publish it
      if s.flags ix then s.goto w (.entering txn doc ix todo)
      else
        { s with flags := Function.update s.flags ix true }.goto w (.swapped txn doc ix todo)
    else s.goto w (.entering txn doc ix todo)
  | .swapped txn doc ix todo =>
    match s.collections with
    | none =>
      { s with collections := some w }.goto w (.publishing txn doc ix todo s.flags)
    | some _ => s
  | .publishing txn doc ix todo entry =>
    { s with row := entry, collections := none }.goto w (.entering txn doc ix todo)
  | .entering txn doc _ todo => s.goto w (.writing txn doc todo)
  | _ => s

/-- The commit of the catalog row fails. -/
def publishFails (s : State ω ι δ) (w : ω) (logged : Bool) : State ω ι δ :=
  match s.writers w with
  | .publishing txn _ _ _ entry =>
    { s with row := if logged then entry else s.row, collections := none }.goto w
      (.failed txn)
  | _ => s

/-- The row that a crash leaves in the catalog. -/
def rowLeft (s : State ω ι δ) (logged : Bool) : ι → Bool :=
  match s.collections with
  | none => s.row
  | some w =>
    match s.writers w with
    | .publishing _ _ _ _ entry => if logged then entry else s.row
    | _ => s.row

/-- A crash, and then `Client::start`, which reads the flags from the catalog. -/
def crash (s : State ω ι δ) (logged : Bool) (survives : δ → Bool) : State ω ι δ where
  flags := s.rowLeft logged
  row := s.rowLeft logged
  collections := none
  committed := s.committed.filter survives
  writers := fun _ => .idle

/-- One step, of a collection with these indexes; one that cannot be taken changes
nothing. -/
def step (indexes : List ι) (s : State ω ι δ) : Action ω δ → State ω ι δ
  | .begin w =>
    match s.writers w with
    | .idle => s.goto w (.between ⟨s.committed, []⟩)
    | _ => s
  | .write w doc =>
    match s.writers w with
    | .between txn => s.goto w (.writing txn doc indexes)
    | _ => s
  | .proceed w => s.proceed multikey w
  | .fail w =>
    match s.writers w with
    | .writing txn _ _ | .entering txn _ _ _ => s.goto w (.failed txn)
    | _ => s
  | .publishFails w logged => s.publishFails w logged
  | .commit w =>
    match s.writers w with
    | .between txn => { s with committed := txn.wrote ++ s.committed }.goto w .idle
    | _ => s
  | .rollback w =>
    match s.writers w with
    | .between _ | .failed _ => s.goto w .idle
    | _ => s
  | .crash logged survives => s.crash logged survives

/-! ## The invariant -/

/-- A writer whose document has more than one key in an index finds its flag set in memory
only where the catalog has it too. -/
def Published (s : State ω ι δ) : Action ω δ → Prop
  | .proceed w =>
    match s.writers w with
    | .writing _ doc (ix :: _) =>
      multikey doc ix = true → s.flags ix = true → s.row ix = true
    | _ => True
  | _ => True

/-- The catalog has the flags of the document, but for these indexes. -/
def Flagged (indexes : List ι) (row : ι → Bool) (doc : δ) (todo : List ι) : Prop :=
  ∀ ix ∈ indexes, ix ∉ todo → multikey doc ix = true → row ix = true

/-- What holds of a writer in each of its phases. -/
def WriterOk (indexes : List ι) (s : State ω ι δ) (w : ω) : Writer ι δ → Prop
  | .writing _ doc todo => Flagged multikey indexes s.row doc todo
  | .swapped _ doc ix todo =>
    Flagged multikey indexes s.row doc (ix :: todo) ∧ s.flags ix = true
  | .publishing _ doc ix todo entry =>
    Flagged multikey indexes s.row doc (ix :: todo) ∧ entry ix = true ∧
      (∀ i, s.row i = true → entry i = true) ∧ (∀ i, entry i = true → s.flags i = true) ∧
      s.collections = some w
  | .entering _ doc _ todo => Flagged multikey indexes s.row doc todo
  | _ => True

/-- The catalog has the flags of all documents that are committed, seen or written. -/
structure Inv (indexes : List ι) (s : State ω ι δ) : Prop where
  flags : ∀ ix, s.row ix = true → s.flags ix = true
  committed : ∀ doc ∈ s.committed, Flagged multikey indexes s.row doc []
  txns : ∀ w txn, (s.writers w).txn = some txn →
    ∀ doc ∈ txn.sees ++ txn.wrote, Flagged multikey indexes s.row doc []
  writers : ∀ w, WriterOk multikey indexes s w (s.writers w)

variable {multikey} {indexes : List ι} {s : State ω ι δ}

omit [DecidableEq ι] in
theorem Flagged.mono {row row' : ι → Bool} {doc : δ} {todo : List ι}
    (h : Flagged multikey indexes row doc todo)
    (hrow : ∀ ix, row ix = true → row' ix = true) :
    Flagged multikey indexes row' doc todo :=
  fun ix hix hto hm => hrow ix (h ix hix hto hm)

/-- An index is done when the catalog has its flag. -/
theorem Flagged.done {row : ι → Bool} {doc : δ} {ix : ι} {todo : List ι}
    (h : Flagged multikey indexes row doc (ix :: todo))
    (hix : multikey doc ix = true → row ix = true) :
    Flagged multikey indexes row doc todo := by
  intro i hi hto hm
  by_cases hne : i = ix
  · rw [hne]
    exact hix (hne ▸ hm)
  · exact h i hi (by simp [hne, hto]) hm

omit [DecidableEq ω] [DecidableEq ι] in
/-- What a writer's phase says goes on holding while flags are set and nobody takes its
place at `collections`. -/
theorem WriterOk.mono {s' : State ω ι δ} {w : ω} {writer : Writer ι δ}
    (h : WriterOk multikey indexes s w writer)
    (hrow : ∀ ix, s.row ix = true → s'.row ix = true)
    (hflags : ∀ ix, s.flags ix = true → s'.flags ix = true)
    (hlock : s.collections = some w → s'.collections = some w ∧ s'.row = s.row) :
    WriterOk multikey indexes s' w writer := by
  cases writer with
  | idle => trivial
  | between txn => trivial
  | failed txn => trivial
  | writing txn doc todo => exact Flagged.mono h hrow
  | entering txn doc ix todo => exact Flagged.mono h hrow
  | swapped txn doc ix todo => exact ⟨h.1.mono hrow, hflags ix h.2⟩
  | publishing txn doc ix todo entry =>
    have hheld := hlock h.2.2.2.2
    exact ⟨h.1.mono hrow, h.2.1, fun i hi => h.2.2.1 i (hheld.2 ▸ hi),
      fun i hi => hflags i (h.2.2.2.1 i hi), hheld.1⟩

omit [DecidableEq ι] in
/-- A step that sets flags, and changes one writer. -/
theorem Inv.change {w : ω} {next : Writer ι δ} {s' : State ω ι δ}
    (h : Inv multikey indexes s)
    (hwriters : s'.writers = Function.update s.writers w next)
    (hrow : ∀ ix, s.row ix = true → s'.row ix = true)
    (hflags : ∀ ix, s.flags ix = true → s'.flags ix = true)
    (hlock : ∀ v ≠ w, s.collections = some v → s'.collections = some v ∧ s'.row = s.row)
    (hrowFlags : ∀ ix, s'.row ix = true → s'.flags ix = true)
    (hcommitted : ∀ doc ∈ s'.committed, Flagged multikey indexes s'.row doc [])
    (htxn : ∀ txn, next.txn = some txn →
      ∀ doc ∈ txn.sees ++ txn.wrote, Flagged multikey indexes s'.row doc [])
    (hnext : WriterOk multikey indexes s' w next) : Inv multikey indexes s' where
  flags := hrowFlags
  committed := hcommitted
  txns := by
    intro v txn hv
    rw [hwriters] at hv
    by_cases hvw : v = w
    · rw [hvw, Function.update_self] at hv
      exact htxn txn hv
    · rw [Function.update_of_ne hvw] at hv
      exact fun doc hdoc => (h.txns v txn hv doc hdoc).mono hrow
  writers := by
    intro v
    rw [hwriters]
    by_cases hvw : v = w
    · rw [hvw, Function.update_self]
      exact hnext
    · rw [Function.update_of_ne hvw]
      exact (h.writers v).mono hrow hflags (hlock v hvw)

omit [DecidableEq ι] in
/-- A step that changes one writer and nothing else. -/
theorem Inv.goto {w : ω} {next : Writer ι δ} (h : Inv multikey indexes s)
    (htxn : ∀ txn, next.txn = some txn → (s.writers w).txn = some txn)
    (hnext : WriterOk multikey indexes s w next) : Inv multikey indexes (s.goto w next) :=
  h.change rfl (fun _ h => h) (fun _ h => h) (fun _ _ h => ⟨h, rfl⟩) h.flags h.committed
    (fun txn ht => h.txns w txn (htxn txn ht))
    (hnext.mono (fun _ h => h) (fun _ h => h) fun h => ⟨h, rfl⟩)

omit [DecidableEq ω] [DecidableEq ι] in
theorem Inv.new : Inv multikey indexes (State.new : State ω ι δ) where
  flags := fun _ h => h
  committed := fun _ h => by simp [State.new] at h
  txns := fun _ _ h => by simp [State.new, Writer.txn] at h
  writers := fun _ => trivial

theorem Inv.proceed {w : ω} (h : Inv multikey indexes s)
    (hok : Published multikey s (.proceed w : Action ω δ)) :
    Inv multikey indexes (s.proceed multikey w) := by
  have hw := h.writers w
  have ht := h.txns w
  unfold State.proceed
  cases hphase : s.writers w with
  | idle => exact h
  | between txn => exact h
  | failed txn => exact h
  | writing txn doc todo =>
    rw [hphase] at hw ht
    cases todo with
    | nil =>
      have htxn := ht txn rfl
      refine h.change rfl (fun _ h => h) (fun _ h => h) (fun _ _ h => ⟨h, rfl⟩) h.flags
        h.committed ?_ trivial
      intro txn' heq d hd
      cases heq
      simp only [List.mem_append, List.mem_cons] at hd
      rcases hd with hd | rfl | hd
      · exact htxn d (List.mem_append_left _ hd)
      · exact hw
      · exact htxn d (List.mem_append_right _ hd)
    | cons ix todo =>
      simp only [Published, hphase] at hok
      by_cases hm : multikey doc ix = true
      · by_cases hf : s.flags ix = true
        · simp only [hm, hf, if_true]
          exact h.goto (by rw [hphase]; exact fun _ h => h)
            (Flagged.done hw fun _ => hok hm hf)
        · simp only [hm, hf, if_true]
          have hset : ∀ i, s.flags i = true →
              Function.update s.flags ix true i = true := by
            intro i hi
            by_cases hne : i = ix
            · rw [hne, Function.update_self]
            · rw [Function.update_of_ne hne]
              exact hi
          exact h.change rfl (fun _ h => h) hset (fun _ _ h => ⟨h, rfl⟩)
            (fun i hi => hset i (h.flags i hi)) h.committed ht
            ⟨hw, Function.update_self ..⟩
      · simp only [hm]
        exact h.goto (by rw [hphase]; exact fun _ h => h)
          (Flagged.done hw fun hyes => absurd hyes hm)
  | swapped txn doc ix todo =>
    rw [hphase] at hw ht
    cases hlock : s.collections with
    | some v => exact h
    | none =>
      refine h.change rfl (fun _ h => h) (fun _ h => h) ?_ h.flags h.committed ht
        ⟨hw.1, hw.2, h.flags, fun _ hi => hi, rfl⟩
      intro v hv hheld
      rw [hlock] at hheld
      cases hheld
  | publishing txn doc ix todo entry =>
    rw [hphase] at hw ht
    have hrow := hw.2.2.1
    refine h.change rfl hrow (fun _ h => h) ?_ hw.2.2.2.1
      (fun d hd => (h.committed d hd).mono hrow)
      (fun txn ht' d hd => (ht txn ht' d hd).mono hrow)
      (Flagged.done (hw.1.mono hrow) fun _ => hw.2.1)
    intro v hv hheld
    rw [hw.2.2.2.2] at hheld
    exact absurd (Option.some.inj hheld).symm hv
  | entering txn doc ix todo =>
    rw [hphase] at hw ht
    exact h.goto (by rw [hphase]; exact fun _ h => h) hw

omit [DecidableEq ι] in
theorem Inv.publishFails {w : ω} {logged : Bool} (h : Inv multikey indexes s) :
    Inv multikey indexes (s.publishFails w logged) := by
  have hw := h.writers w
  have ht := h.txns w
  unfold State.publishFails
  split
  · next txn doc ix todo entry hphase =>
      rw [hphase] at hw ht
      have hrow : ∀ i, s.row i = true → (if logged then entry else s.row) i = true := by
        cases logged
        · exact fun _ h => h
        · exact hw.2.2.1
      have hflags : ∀ i, (if logged then entry else s.row) i = true → s.flags i = true := by
        cases logged
        · exact h.flags
        · exact hw.2.2.2.1
      refine h.change rfl hrow (fun _ h => h) ?_ hflags
        (fun d hd => (h.committed d hd).mono hrow)
        (fun txn ht' d hd => (ht txn ht' d hd).mono hrow) trivial
      intro v hv hheld
      rw [hw.2.2.2.2] at hheld
      exact absurd (Option.some.inj hheld).symm hv
  · exact h

omit [DecidableEq ω] [DecidableEq ι] in
theorem Inv.crash {logged : Bool} {survives : δ → Bool} (h : Inv multikey indexes s) :
    Inv multikey indexes (s.crash logged survives) := by
  have hrow : ∀ i, s.row i = true → s.rowLeft logged i = true := by
    intro i hi
    cases hlock : s.collections with
    | none => simpa only [State.rowLeft, hlock] using hi
    | some w =>
      have hw := h.writers w
      cases hphase : s.writers w with
      | publishing txn doc ix todo entry =>
        rw [hphase] at hw
        cases logged with
        | false => simpa [State.rowLeft, hlock, hphase] using hi
        | true => simpa [State.rowLeft, hlock, hphase] using hw.2.2.1 i hi
      | idle => simpa only [State.rowLeft, hlock, hphase] using hi
      | between txn => simpa only [State.rowLeft, hlock, hphase] using hi
      | writing txn doc todo => simpa only [State.rowLeft, hlock, hphase] using hi
      | swapped txn doc ix todo => simpa only [State.rowLeft, hlock, hphase] using hi
      | entering txn doc ix todo => simpa only [State.rowLeft, hlock, hphase] using hi
      | failed txn => simpa only [State.rowLeft, hlock, hphase] using hi
  exact {
    flags := fun _ h => h
    committed := fun d hd => (h.committed d (List.mem_of_mem_filter hd)).mono hrow
    txns := fun w txn ht => by simp [State.crash, Writer.txn] at ht
    writers := fun _ => trivial }

theorem Inv.step {a : Action ω δ} (h : Inv multikey indexes s) (hok : Published multikey s a) :
    Inv multikey indexes (s.step multikey indexes a) := by
  cases a with
  | proceed w => exact h.proceed hok
  | publishFails w logged => exact h.publishFails
  | crash logged survives => exact h.crash
  | begin w =>
    simp only [State.step]
    split
    · refine h.change rfl (fun _ h => h) (fun _ h => h) (fun _ _ h => ⟨h, rfl⟩) h.flags
        h.committed ?_ trivial
      intro txn heq d hd
      cases heq
      exact h.committed d (by simpa using hd)
    · exact h
  | write w doc =>
    simp only [State.step]
    split
    · next txn hphase =>
        exact h.goto (by rw [hphase]; exact fun _ h => h) fun ix hix hto => absurd hix hto
    · exact h
  | fail w =>
    simp only [State.step]
    split
    · next hphase => exact h.goto (by rw [hphase]; exact fun _ h => h) trivial
    · next hphase => exact h.goto (by rw [hphase]; exact fun _ h => h) trivial
    · exact h
  | commit w =>
    simp only [State.step]
    split
    · next txn hphase =>
        have ht := h.txns w
        rw [hphase] at ht
        refine h.change rfl (fun _ h => h) (fun _ h => h) (fun _ _ h => ⟨h, rfl⟩) h.flags
          ?_ (fun txn heq => by cases heq) trivial
        intro d hd
        rcases List.mem_append.mp hd with hd | hd
        · exact ht txn rfl d (List.mem_append_right _ hd)
        · exact h.committed d hd
    · exact h
  | rollback w =>
    simp only [State.step]
    split
    · exact h.goto (fun txn heq => by cases heq) trivial
    · exact h.goto (fun txn heq => by cases heq) trivial
    · exact h

/-! ## The flag is there when it is needed -/

/-- After any crash that comes now, an index in which a surviving document has more than one
key is loaded as multikey. -/
def Durable (multikey : δ → ι → Bool) (indexes : List ι) (s : State ω ι δ) : Prop :=
  ∀ logged survives, ∀ doc ∈ (s.crash logged survives).committed, ∀ ix ∈ indexes,
    multikey doc ix = true → (s.crash logged survives).flags ix = true

/-- A find that reads an index's flag now, in any open transaction, finds it set if the
transaction's snapshot has a document with more than one key in the index. -/
def FoundSet (multikey : δ → ι → Bool) (indexes : List ι)
    (s : State ω ι δ) : Prop :=
  ∀ w txn, (s.writers w).txn = some txn → ∀ doc ∈ txn.sees ++ txn.wrote, ∀ ix ∈ indexes,
    multikey doc ix = true → s.flags ix = true

/-- In every run in which no writer goes on because it found the flag set in memory that
the catalog does not have yet, the flag is durable before the entries and every find
reads it. -/
theorem multikey_is_durable
    (h : Reachable (step multikey indexes) (Published multikey) State.new s) :
    Durable multikey indexes s ∧ FoundSet multikey indexes s := by
  have hinv : Inv multikey indexes s :=
    h.invariant Inv.new fun _ _ hs hok => hs.step hok
  constructor
  · intro logged survives doc hdoc ix hix hm
    have hleft : Inv multikey indexes (s.crash logged survives) := hinv.crash
    exact hleft.flags ix (hleft.committed doc hdoc ix hix (by simp) hm)
  · intro w txn htxn doc hdoc ix hix hm
    exact hinv.flags ix (hinv.txns w txn htxn doc hdoc ix hix (by simp) hm)

/-- A document with more than one key, whose writer publishes the flag first; then a second
writer, who finds the flag set. -/
def published : List (Action Nat Bool) :=
  [.begin 0, .write 0 true, .proceed 0, .proceed 0, .proceed 0, .proceed 0, .proceed 0,
    .commit 0, .begin 1, .write 1 true, .proceed 1, .proceed 1, .proceed 1, .commit 1]

theorem multikey_is_durable_second :
    (run (step (fun doc (_ : Unit) => doc) [()]) State.new published).committed = [true, true] ∧
      Durable (fun doc _ => doc) [()]
        (run (step (fun doc (_ : Unit) => doc) [()]) State.new published) ∧
      FoundSet (fun doc _ => doc) [()]
        (run (step (fun doc (_ : Unit) => doc) [()]) State.new published) :=
  ⟨rfl, multikey_is_durable (reachable_run published
    ⟨trivial, trivial, fun _ hset => absurd hset (by decide), trivial, trivial, trivial, trivial,
      trivial, trivial, trivial, fun _ _ => rfl, trivial, trivial, trivial, trivial⟩)⟩

/-- The first writer has set the flag and is about to publish it; a second one finds it set,
writes its entries and commits. -/
def raced : List (Action Nat Bool) :=
  [.begin 0, .write 0 true, .proceed 0, .begin 1, .write 1 true, .proceed 1, .proceed 1,
    .proceed 1, .commit 1]

/-- After a crash the second writer's document is there, and its index is loaded as one in
which every document has one key. -/
theorem flag_found_before_published :
    ¬ Durable (fun doc _ => doc) [()]
      (run (step (fun doc (_ : Unit) => doc) [()]) State.new raced) := by
  intro h
  have hset := h false (fun _ => true) true (by decide) () (by decide) rfl
  exact absurd hset (by decide)

end State

end SquealDb.Doc.Multikey
