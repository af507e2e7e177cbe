import Mathlib.Data.List.Count
import SquealDb.Conn.TableLock
import SquealDb.Lib.Run

/-!
# What table locks keep

In every run the record of a lock agrees with the guards that the connections have of it,
and a request that is refused leaves nothing behind.  A lock that no statement asks for
twice is held exclusively by one connection at most, and then by no other one shared.  If
in addition no transaction names the table in a statement that changes a definition or takes
no lock, then a table is held shared from its transaction's first use of it to the
transaction's end.
-/

namespace SquealDb.Conn.TableLock

open Lib

variable {Owner Lock : Type*}

/-! ## What a connection's record says -/

namespace Connection

/-- Outside a transaction nothing is held for one. -/
def Bare (c : Connection Lock) : Prop :=
  c.inTxn = false → c.held = [] ∧ c.locks.resume = []

/-- What holds of the guards in each phase of a statement. -/
def PhaseOk (c : Connection Lock) : Prop :=
  match c.phase with
  | .idle => c.locks = ⟨[], [], []⟩ ∧ c.Bare
  | .taking stmt todo =>
    (∀ l ∈ c.locks.resume, l ∈ stmt.targets) ∧
      (∀ l, .exclusive l ∈ todo → l ∈ stmt.targets) ∧
      (∀ l, .hold l ∈ todo → c.inTxn = true) ∧ c.Bare
  | .running stmt => (∀ l ∈ c.locks.resume, l ∈ stmt.targets) ∧ c.Bare
  | .ending => c.inTxn = false ∧ c.locks.resume = []
  | .clearing => c.Bare
  | .resuming => c.locks.exclusive = [] ∧ c.Bare
  | .releasing => c.locks.exclusive = [] ∧ c.locks.resume = [] ∧ c.Bare

variable [DecidableEq Lock]

/-- How often the statement still asks for `l` exclusively. -/
def pending (c : Connection Lock) (l : Lock) : Nat :=
  match c.phase with
  | .taking _ todo => todo.count (.exclusive l)
  | _ => 0

/-- A transaction takes `l` if it names it, and does not give it up. -/
def Takes (c : Connection Lock) (l : Lock) : Prop :=
  match c.phase with
  | .taking stmt todo =>
    .exclusive l ∉ todo ∧ (l ∈ stmt.relations → l ∈ c.held ∨ .hold l ∈ todo)
  | _ => True

/-- The record of a connection.  What is said of single locks is said of those that `P` or
`Q` picks out. -/
structure Ok (P Q : Lock → Prop) (c : Connection Lock) : Prop where
  asks : ∀ r, c.asked = some r → c.wants = some r
  unused : c.inTxn = false → c.used = []
  phase : c.PhaseOk
  once : ∀ l, P l → c.locks.exclusive.count l + c.pending l ≤ 1
  keeps : ∀ l, Q l → l ∈ c.used → l ∈ c.held
  takes : ∀ l, Q l → c.inTxn = true → c.Takes l

/-- The requests a connection makes: what becomes of it when it is granted, and when it is
refused. -/
inductive Asks (c : Connection Lock) :
    Lock → Bool → Connection Lock → Connection Lock → Prop
  | exclusive {stmt : Statement Lock} {l : Lock} {todo : List (Request Lock)} :
      c.phase = .taking stmt (.exclusive l :: todo) → l ∉ c.held →
      Asks c l true
        { c with
          phase := .taking stmt todo
          locks := { c.locks with exclusive := c.locks.exclusive ++ [l] } }
        { c with phase := .clearing }
  | hold {stmt : Statement Lock} {l : Lock} {todo : List (Request Lock)} :
      c.phase = .taking stmt (.hold l :: todo) → l ∉ c.held →
      Asks c l false { c with phase := .taking stmt todo, held := l :: c.held }
        { c with phase := .clearing }
  | shared {stmt : Statement Lock} {l : Lock} {todo : List (Request Lock)} :
      c.phase = .taking stmt (.shared l :: todo) →
      Asks c l false
        { c with
          phase := .taking stmt todo
          locks := { c.locks with shared := c.locks.shared ++ [l] } }
        { c with phase := .clearing }
  | resume {l : Lock} {rest : List Lock} :
      c.phase = .resuming → c.locks.resume = l :: rest → l ∉ c.held →
      Asks c l false
        { c with held := l :: c.held, locks := { c.locks with resume := rest } }
        { c with locks := { c.locks with resume := rest } }

variable {l : Lock} {cg cr : Connection Lock}

theorem asks_of_wants {c : Connection Lock} {exclusive : Bool} (h : c.wants = some (l, exclusive)) :
    c.Asks l exclusive c.granted c.refused := by
  unfold wants at h
  split at h
  case h_1 stmt m todo hphase =>
      by_cases hm : m ∈ c.held
      · rw [if_pos hm] at h
        cases h
      · rw [if_neg hm] at h
        cases h
        have hasks := Asks.exclusive hphase hm
        simpa only [granted, refused, hphase] using hasks
  case h_2 stmt m todo hphase =>
      by_cases hm : m ∈ c.held
      · rw [if_pos hm] at h
        cases h
      · rw [if_neg hm] at h
        cases h
        have hasks := Asks.hold hphase hm
        simpa only [granted, refused, hphase] using hasks
  case h_3 stmt m todo hphase =>
      cases h
      have hasks := Asks.shared hphase
      simpa only [granted, refused, hphase] using hasks
  case h_4 hphase =>
      cases hresume : c.locks.resume with
      | nil => simp [hresume] at h
      | cons m rest =>
        simp only [hresume] at h
        by_cases hm : m ∈ c.held
        · rw [if_pos hm] at h
          cases h
        · rw [if_neg hm] at h
          cases h
          have hasks := Asks.resume hphase hresume hm
          simpa only [granted, refused, hphase, hresume, List.tail_cons] using hasks
  case h_5 => cases h

variable {P Q : Lock → Prop} {c : Connection Lock}

theorem bare_of_ok (h : c.Ok P Q) (hending : c.phase ≠ .ending) : c.Bare := by
  have hphase := h.phase
  unfold PhaseOk at hphase
  split at hphase
  · exact hphase.2
  · exact hphase.2.2.2
  · exact hphase.2
  · next heq => exact absurd heq hending
  · exact hphase
  · exact hphase.2
  · exact hphase.2.2

/-- A connection that only goes on in its statement: what it holds is the same. -/
theorem Ok.goto (h : c.Ok P Q) {phase : Phase Lock} (hasked : c.asked = none)
    (hphase : PhaseOk { c with phase := phase })
    (hpending : ∀ l, P l → pending { c with phase := phase } l ≤ c.pending l)
    (htakes : ∀ l, Q l → c.inTxn = true → Takes { c with phase := phase } l) :
    Ok P Q { c with phase := phase } where
  asks := fun r hr => (Option.some_ne_none r (hr.symm.trans hasked)).elim
  unused := h.unused
  phase := hphase
  once := fun l hl => Nat.le_trans (Nat.add_le_add_left (hpending l hl) _) (h.once l hl)
  keeps := h.keeps
  takes := htakes

/-- The statement fails, and its locks are dropped. -/
theorem Ok.clear (h : c.Ok P Q) (hending : c.phase ≠ .ending) :
    Ok P Q { c with phase := .clearing, asked := none } where
  asks := by simp
  unused := h.unused
  phase := by
    have hbare : c.Bare := bare_of_ok h hending
    exact hbare
  once := fun l hl => Nat.le_trans (Nat.add_le_add_left (Nat.zero_le _) _) (h.once l hl)
  keeps := h.keeps
  takes := fun _ _ _ => trivial

/-- A connection that has asked for nothing gives up guards of its statement. -/
theorem Ok.drop (h : c.Ok P Q) {locks : StatementLocks Lock} (hasked : c.asked = none)
    (hphase : PhaseOk { c with locks := locks })
    (hle : ∀ l, P l → locks.exclusive.count l ≤ c.locks.exclusive.count l) :
    Ok P Q { c with locks := locks } where
  asks := fun r hr => (Option.some_ne_none r (hr.symm.trans hasked)).elim
  unused := h.unused
  phase := hphase
  once := fun l hl => Nat.le_trans (Nat.add_le_add_right (hle l hl) _) (h.once l hl)
  keeps := h.keeps
  takes := h.takes

theorem Asks.granted_ok {exclusive : Bool} (h : c.Ok P Q) (ha : c.Asks l exclusive cg cr) :
    Ok P Q { cg with asked := none } := by
  have hphase := h.phase
  cases ha with
  | @exclusive stmt l todo heq hheld =>
    simp only [PhaseOk, heq] at hphase
    refine ⟨by simp, h.unused, ?_, ?_, h.keeps, ?_⟩
    · exact ⟨hphase.1, fun m hm => hphase.2.1 m (List.mem_cons_of_mem _ hm),
        fun m hm => hphase.2.2.1 m (List.mem_cons_of_mem _ hm), hphase.2.2.2⟩
    · intro m hm
      have honce := h.once m hm
      simp only [pending, heq, List.count_cons, List.count_append, List.count_nil,
        beq_iff_eq, Request.exclusive.injEq] at honce ⊢
      omega
    · intro m hm hin
      have htakes := h.takes m hm hin
      simp only [Takes, heq, List.mem_cons, not_or, reduceCtorEq, false_or] at htakes ⊢
      exact ⟨htakes.1.2, htakes.2⟩
  | @hold stmt l todo heq hheld =>
    simp only [PhaseOk, heq] at hphase
    have hin : c.inTxn = true := hphase.2.2.1 l (by simp)
    refine ⟨by simp, h.unused, ?_, ?_, ?_, ?_⟩
    · exact ⟨hphase.1, fun m hm => hphase.2.1 m (List.mem_cons_of_mem _ hm),
        fun _ _ => hin, fun hout => by rw [hin] at hout; cases hout⟩
    · intro m hm
      have honce := h.once m hm
      simp only [pending, heq, List.count_cons, beq_iff_eq, reduceCtorEq, if_false] at honce ⊢
      omega
    · exact fun m hm hused => List.mem_cons_of_mem _ (h.keeps m hm hused)
    · intro m hm _
      have htakes := h.takes m hm hin
      simp only [Takes, heq, List.mem_cons, not_or, reduceCtorEq, not_false_eq_true,
        true_and, Request.hold.injEq] at htakes ⊢
      refine ⟨htakes.1, fun hrel => ?_⟩
      rcases htakes.2 hrel with hmem | hm | hmem
      · exact Or.inl (Or.inr hmem)
      · exact Or.inl (Or.inl hm)
      · exact Or.inr hmem
  | @shared stmt l todo heq =>
    simp only [PhaseOk, heq] at hphase
    refine ⟨by simp, h.unused, ?_, ?_, h.keeps, ?_⟩
    · exact ⟨hphase.1, fun m hm => hphase.2.1 m (List.mem_cons_of_mem _ hm),
        fun m hm => hphase.2.2.1 m (List.mem_cons_of_mem _ hm), hphase.2.2.2⟩
    · intro m hm
      have honce := h.once m hm
      simp only [pending, heq, List.count_cons, beq_iff_eq, reduceCtorEq, if_false] at honce ⊢
      omega
    · intro m hm hin
      have htakes := h.takes m hm hin
      simp only [Takes, heq, List.mem_cons, reduceCtorEq, false_or] at htakes ⊢
      exact htakes
  | @resume l rest heq hresume hheld =>
    simp only [PhaseOk, heq] at hphase
    refine ⟨by simp, h.unused, ?_, ?_, ?_, ?_⟩
    · simp only [PhaseOk, heq]
      refine ⟨hphase.1, fun hout => ?_⟩
      have hnil := (hphase.2 hout).2
      rw [hresume] at hnil
      cases hnil
    · intro m hm
      have honce := h.once m hm
      simpa only [pending, heq] using honce
    · exact fun m hm hused => List.mem_cons_of_mem _ (h.keeps m hm hused)
    · intro m hm hin
      simp only [Takes, heq]

omit [DecidableEq Lock] in
/-- A refused connection has the guards it had. -/
theorem Asks.refused_same {exclusive : Bool} (ha : c.Asks l exclusive cg cr) :
    cr.held = c.held ∧ cr.locks.shared = c.locks.shared ∧
      cr.locks.exclusive = c.locks.exclusive := by
  cases ha with
  | exclusive => exact ⟨rfl, rfl, rfl⟩
  | hold => exact ⟨rfl, rfl, rfl⟩
  | shared => exact ⟨rfl, rfl, rfl⟩
  | resume => exact ⟨rfl, rfl, rfl⟩

theorem Asks.refused_ok {exclusive : Bool} (h : c.Ok P Q) (ha : c.Asks l exclusive cg cr) :
    Ok P Q { cr with asked := none } := by
  cases ha with
  | exclusive heq => exact h.clear (by simp [heq])
  | hold heq => exact h.clear (by simp [heq])
  | shared heq => exact h.clear (by simp [heq])
  | @resume l rest heq hresume hheld =>
    have hphase := h.phase
    simp only [PhaseOk, heq] at hphase
    refine ⟨by simp, h.unused, ?_, ?_, h.keeps, ?_⟩
    · simp only [PhaseOk, heq]
      refine ⟨hphase.1, fun hout => ?_⟩
      have hnil := (hphase.2 hout).2
      rw [hresume] at hnil
      cases hnil
    · intro m hm
      have honce := h.once m hm
      simpa only [pending, heq] using honce
    · intro m hm hin
      simp only [Takes, heq]

end Connection

/-! ## The invariant -/

variable [DecidableEq Owner] [DecidableEq Lock]

/-- The locks agree with the guards the connections have of them.  What is said of the
exclusive ones is said of the locks that `P` picks out. -/
structure Inv (P Q : Lock → Prop) (w : World Owner Lock) : Prop where
  conns : ∀ o, (w.conns o).Ok P Q
  waits : ∀ o, w.waits o = (w.conns o).asked
  waiting : ∀ l o, (w.locks l).waiting.count o =
    if (w.conns o).asked = some (l, true) then 1 else 0
  shared : ∀ l o, (w.locks l).shared.count o =
    (w.conns o).held.count l + (w.conns o).locks.shared.count l
  exclusive : ∀ l, P l → ∀ o,
    (w.locks l).exclusive = some o ↔ l ∈ (w.conns o).locks.exclusive
  alone : ∀ l, P l → ∀ o, (w.locks l).exclusive = some o → ∀ p ∈ (w.locks l).shared, p = o

theorem State.leave_same (s : State Owner) (o : Owner) (exclusive : Bool) :
    (s.leave o exclusive).shared = s.shared ∧ (s.leave o exclusive).exclusive = s.exclusive := by
  cases exclusive with
  | false => exact ⟨rfl, rfl⟩
  | true => exact ⟨rfl, rfl⟩

/-- A step of `o` changes its own entries in the lock's record, and no one else's. -/
def State.Only (o : Owner) (s s' : State Owner) : Prop :=
  ∀ p ≠ o, s'.shared.count p = s.shared.count p ∧ s'.waiting.count p = s.waiting.count p

namespace Inv

variable {P Q : Lock → Prop} {w : World Owner Lock} {o : Owner} {c : Connection Lock} {l : Lock}
  {s : State Owner}

/-- One connection and one lock change. -/
theorem set (h : Inv P Q w) (hok : c.Ok P Q) (honly : (w.locks l).Only o s)
    (hasked : ∀ m ≠ l, c.asked = some (m, true) ↔ (w.conns o).asked = some (m, true))
    (hwaiting : s.waiting.count o = if c.asked = some (l, true) then 1 else 0)
    (hcount : ∀ m ≠ l, c.held.count m + c.locks.shared.count m =
      (w.conns o).held.count m + (w.conns o).locks.shared.count m)
    (hshared : s.shared.count o = c.held.count l + c.locks.shared.count l)
    (hmem : ∀ m ≠ l, m ∈ c.locks.exclusive ↔ m ∈ (w.conns o).locks.exclusive)
    (hexclusive : P l → ∀ p, s.exclusive = some p ↔
      l ∈ (if p = o then c else w.conns p).locks.exclusive)
    (halone : P l → ∀ p, s.exclusive = some p → ∀ q ∈ s.shared, q = p) :
    Inv P Q (w.set o c l s) where
  conns := by
    intro p
    by_cases hp : p = o
    · simpa [World.set, hp] using hok
    · simpa [World.set, hp] using h.conns p
  waits := by
    intro p
    by_cases hp : p = o
    · simp [World.set, hp]
    · simpa [World.set, hp] using h.waits p
  waiting := by
    intro m p
    by_cases hm : m = l
    · subst hm
      by_cases hp : p = o
      · simpa [World.set, hp] using hwaiting
      · simpa [World.set, hp, (honly p hp).2] using h.waiting m p
    · by_cases hp : p = o
      · simpa [World.set, hp, hm, hasked m hm] using h.waiting m o
      · simpa [World.set, hp, hm] using h.waiting m p
  shared := by
    intro m p
    by_cases hm : m = l
    · subst hm
      by_cases hp : p = o
      · simpa [World.set, hp] using hshared
      · simpa [World.set, hp, (honly p hp).1] using h.shared m p
    · by_cases hp : p = o
      · simpa [World.set, hp, hm, hcount m hm] using h.shared m o
      · simpa [World.set, hp, hm] using h.shared m p
  exclusive := by
    intro m hPm p
    by_cases hm : m = l
    · subst hm
      by_cases hp : p = o
      · simpa [World.set, hp] using hexclusive hPm o
      · simpa [World.set, hp] using hexclusive hPm p
    · by_cases hp : p = o
      · simpa [World.set, hp, hm, hmem m hm] using h.exclusive m hPm o
      · simpa [World.set, hp, hm] using h.exclusive m hPm p
  alone := by
    intro m hPm
    by_cases hm : m = l
    · subst hm
      simpa [World.set] using halone hPm
    · simpa [World.set, hm] using h.alone m hPm

/-- A step that touches no lock. -/
theorem setConn (h : Inv P Q w) (hok : c.Ok P Q) (hasked : c.asked = (w.conns o).asked)
    (hcount : ∀ m, c.held.count m + c.locks.shared.count m =
      (w.conns o).held.count m + (w.conns o).locks.shared.count m)
    (hmem : c.locks.exclusive = (w.conns o).locks.exclusive) : Inv P Q (w.setConn o c) where
  conns := by
    intro p
    by_cases hp : p = o
    · simpa [World.setConn, hp] using hok
    · simpa [World.setConn, hp] using h.conns p
  waits := by
    intro p
    by_cases hp : p = o
    · simpa [World.setConn, hp, hasked] using h.waits o
    · simpa [World.setConn, hp] using h.waits p
  waiting := by
    intro m p
    by_cases hp : p = o
    · simpa [World.setConn, hp, hasked] using h.waiting m o
    · simpa [World.setConn, hp] using h.waiting m p
  shared := by
    intro m p
    by_cases hp : p = o
    · simpa [World.setConn, hp, hcount m] using h.shared m o
    · simpa [World.setConn, hp] using h.shared m p
  exclusive := by
    intro m hPm p
    by_cases hp : p = o
    · simpa [World.setConn, hp, hmem] using h.exclusive m hPm o
    · simpa [World.setConn, hp] using h.exclusive m hPm p
  alone := by
    intro m hPm
    simpa [World.setConn] using h.alone m hPm

/-- A shared guard is dropped. -/
theorem dropShared (h : Inv P Q w) (hok : c.Ok P Q) (hasked : c.asked = (w.conns o).asked)
    (hcount : ∀ m, c.held.count m + c.locks.shared.count m + (if m = l then 1 else 0) =
      (w.conns o).held.count m + (w.conns o).locks.shared.count m)
    (hmem : c.locks.exclusive = (w.conns o).locks.exclusive) :
    Inv P Q (w.set o c l ((w.locks l).dropShared o)) := by
  apply h.set hok
  · intro p hp
    exact ⟨List.count_erase_of_ne hp, rfl⟩
  · intro m hm
    rw [hasked]
  · rw [hasked]
    exact h.waiting l o
  · intro m hm
    have hm' := hcount m
    rw [if_neg hm] at hm'
    omega
  · have hl := hcount l
    have hsh := h.shared l o
    rw [if_pos rfl] at hl
    show ((w.locks l).shared.erase o).count o = _
    rw [List.count_erase_self]
    omega
  · intro m hm
    rw [hmem]
  · intro hP p
    by_cases hp : p = o
    · simpa [hp, hmem, State.dropShared] using h.exclusive l hP o
    · simpa [hp, State.dropShared] using h.exclusive l hP p
  · intro hP p hex q hq
    exact h.alone l hP p hex q (List.mem_of_mem_erase hq)

/-- Nobody blocks a request: only its owner holds the lock in a conflicting way. -/
theorem blockers_nil {exclusive : Bool} (h : s.blockers o exclusive = []) :
    (∀ p, s.exclusive = some p → p = o) ∧ (exclusive = true → ∀ p ∈ s.shared, p = o) := by
  rw [List.eq_nil_iff_forall_not_mem] at h
  constructor
  · intro p hp
    by_contra hne
    exact h p (State.mem_blockers.mpr ⟨hne, Or.inl hp⟩)
  · rintro rfl p hp
    by_contra hne
    exact h p (State.mem_blockers.mpr ⟨hne, Or.inr hp⟩)

/-- The lock's record once the request is queued. -/
theorem queued (h : Inv P Q w) {exclusive : Bool}
    (hwants : (w.conns o).wants = some (l, exclusive))
    (hs : s = if (w.conns o).asked = none then (w.locks l).queue o exclusive else w.locks l) :
    s.shared = (w.locks l).shared ∧ s.exclusive = (w.locks l).exclusive ∧
      (∀ p ≠ o, s.waiting.count p = (w.locks l).waiting.count p) ∧
      s.waiting.count o = if exclusive = true then 1 else 0 := by
  have hcount := h.waiting l o
  cases hasked : (w.conns o).asked with
  | none =>
    rw [hasked, if_neg (by simp)] at hcount
    rw [if_pos hasked] at hs
    cases exclusive with
    | false =>
      rw [hs]
      exact ⟨rfl, rfl, fun _ _ => rfl, hcount⟩
    | true =>
      rw [hs]
      refine ⟨rfl, rfl, fun p hp => ?_, ?_⟩
      · have hne : ¬ o = p := fun heq => hp heq.symm
        simp [State.queue, hne]
      · simp [State.queue, hcount]
  | some r =>
    have hr := (h.conns o).asks r hasked
    rw [hwants] at hr
    cases hr
    rw [if_neg (by simp [hasked])] at hs
    rw [hs]
    refine ⟨rfl, rfl, fun _ _ => rfl, ?_⟩
    rw [hcount, hasked]
    cases exclusive with
    | false => simp
    | true => simp

/-- A connection is asking for the lock that it wants, or for none. -/
theorem asked_cases (h : Inv P Q w) {exclusive : Bool}
    (hwants : (w.conns o).wants = some (l, exclusive)) {m : Lock} (hm : m ≠ l) :
    (w.conns o).asked ≠ some (m, true) := by
  intro hasked
  have hr := (h.conns o).asks _ hasked
  rw [hwants] at hr
  cases hr
  exact hm rfl

/-- A shared request is granted. -/
theorem grantShared (h : Inv P Q w) (hwants : (w.conns o).wants = some (l, false))
    (hok : c.Ok P Q) (hasked : c.asked = none)
    (hcount : ∀ m, c.held.count m + c.locks.shared.count m =
      (w.conns o).held.count m + (w.conns o).locks.shared.count m + if m = l then 1 else 0)
    (hmem : c.locks.exclusive = (w.conns o).locks.exclusive)
    (hshared : s.shared = (w.locks l).shared) (hexclusive : s.exclusive = (w.locks l).exclusive)
    (hothers : ∀ p ≠ o, s.waiting.count p = (w.locks l).waiting.count p)
    (hown : s.waiting.count o = 0) (hfree : ∀ p, s.exclusive = some p → p = o) :
    Inv P Q (w.set o c l (s.grant o false)) := by
  apply h.set hok
  · intro p hp
    have hne : ¬ o = p := fun heq => hp heq.symm
    exact ⟨by simp [State.grant, hshared, hne], hothers p hp⟩
  · intro m hm
    simp [hasked, h.asked_cases hwants hm]
  · simpa [State.grant, hasked] using hown
  · intro m hm
    have hm' := hcount m
    rw [if_neg hm] at hm'
    exact hm'
  · have hl := hcount l
    have hsh := h.shared l o
    rw [if_pos rfl] at hl
    simp only [State.grant, Bool.false_eq_true, if_false, hshared, List.count_cons_self]
    omega
  · intro m hm
    rw [hmem]
  · intro hP p
    have hiff := h.exclusive l hP p
    by_cases hp : p = o
    · subst hp
      simpa [State.grant, hexclusive, hmem] using hiff
    · simpa [State.grant, hexclusive, hp] using hiff
  · intro hP p hp q hq
    have hex : s.exclusive = some p := hp
    simp only [State.grant, Bool.false_eq_true, if_false, hshared, List.mem_cons] at hq
    rcases hq with rfl | hq
    · exact (hfree p hex).symm
    · exact h.alone l hP p (hexclusive ▸ hex) q hq

/-- An exclusive request is granted. -/
theorem grantExclusive (h : Inv P Q w) (hwants : (w.conns o).wants = some (l, true))
    (hok : c.Ok P Q) (hasked : c.asked = none) (hheld : c.held = (w.conns o).held)
    (hkept : c.locks.shared = (w.conns o).locks.shared)
    (hmem : c.locks.exclusive = (w.conns o).locks.exclusive ++ [l])
    (hshared : s.shared = (w.locks l).shared) (hexclusive : s.exclusive = (w.locks l).exclusive)
    (hothers : ∀ p ≠ o, s.waiting.count p = (w.locks l).waiting.count p)
    (hown : s.waiting.count o = 1) (hfree : ∀ p, s.exclusive = some p → p = o)
    (halone : ∀ p ∈ s.shared, p = o) : Inv P Q (w.set o c l (s.grant o true)) := by
  apply h.set hok
  · intro p hp
    refine ⟨by simp [State.grant, State.leave, hshared], ?_⟩
    rw [← hothers p hp]
    simpa [State.grant, State.leave] using List.count_erase_of_ne hp
  · intro m hm
    simp [hasked, h.asked_cases hwants hm]
  · have hzero : (s.waiting.erase o).count o = 0 := by
      rw [List.count_erase_self, hown]
    simpa [State.grant, State.leave, hasked] using hzero
  · intro m hm
    rw [hheld, hkept]
  · rw [hheld, hkept]
    simpa [State.grant, State.leave, hshared] using h.shared l o
  · intro m hm
    simp [hmem, hm]
  · intro hP p
    by_cases hp : p = o
    · subst hp
      simp [State.grant, hmem]
    · have hne : ¬ o = p := fun heq => hp heq.symm
      have hnot : l ∉ (w.conns p).locks.exclusive := fun hin =>
        hp (hfree p (hexclusive ▸ (h.exclusive l hP p).mpr hin))
      simp [State.grant, hp, hne, hnot]
  · intro hP p hp q hq
    have hpo : some o = some p := by simpa [State.grant] using hp
    cases hpo
    exact halone q (by simpa [State.grant, State.leave] using hq)

theorem acquire (h : Inv P Q w) {exclusive : Bool}
    (hwants : (w.conns o).wants = some (l, exclusive)) : Inv P Q (w.acquire o l exclusive) := by
  obtain ⟨hshared, hexclusive, hothers, hown⟩ := h.queued hwants rfl
  have hasks := Connection.asks_of_wants hwants
  unfold World.acquire
  simp only
  generalize hs : (if (w.conns o).asked = none then (w.locks l).queue o exclusive
    else w.locks l) = s at hshared hexclusive hothers hown ⊢
  by_cases hblocked : s.blockers o exclusive = []
  · rw [if_pos hblocked]
    obtain ⟨hexnone, hshnone⟩ := blockers_nil hblocked
    have hok := hasks.granted_ok (h.conns o)
    generalize (w.conns o).granted = cg at hasks hok ⊢
    generalize (w.conns o).refused = cr at hasks
    cases hasks with
    | exclusive heq hheld =>
      exact h.grantExclusive hwants hok rfl rfl rfl rfl hshared hexclusive hothers hown hexnone
        (hshnone rfl)
    | hold heq hheld | shared heq | resume heq hresume hheld =>
      apply h.grantShared hwants hok rfl _ rfl hshared hexclusive hothers hown hexnone
      intro m
      simp only [List.count_append, List.count_cons, List.count_nil, beq_iff_eq,
        eq_comm (a := l)]
      omega
  · rw [if_neg hblocked]
    apply h.set
    · exact { h.conns o with
        asks := by
          intro r hr
          cases hr
          exact hwants }
    · exact fun p hp => ⟨by rw [hshared], hothers p hp⟩
    · intro m hm
      constructor
      · intro heq
        cases heq
        exact absurd rfl hm
      · exact fun heq => absurd heq (h.asked_cases hwants hm)
    · rw [hown]
      cases exclusive with
      | false => simp
      | true => simp
    · exact fun _ _ => rfl
    · rw [hshared]
      exact h.shared l o
    · exact fun _ _ => Iff.rfl
    · intro hP p
      rw [hexclusive, h.exclusive l hP p]
      by_cases hp : p = o
      · simp [hp]
      · simp [hp]
    · intro hP
      rw [hexclusive, hshared]
      exact h.alone l hP

/-- A refused request is out of the queue again, and its owner holds what it held. -/
theorem refuse (h : Inv P Q w) : Inv P Q (w.refuse o) := by
  unfold World.refuse
  cases hasked : (w.conns o).asked with
  | none => exact h
  | some r =>
    cases r with
    | mk l exclusive =>
      have hwants := (h.conns o).asks _ hasked
      have hasks := Connection.asks_of_wants hwants
      have hok := hasks.refused_ok (h.conns o)
      have hsame := hasks.refused_same
      have hleave := State.leave_same (w.locks l) o exclusive
      apply h.set hok
      · intro p hp
        rw [hleave.1]
        cases exclusive with
        | false => exact ⟨rfl, rfl⟩
        | true => exact ⟨rfl, by simpa [State.leave] using List.count_erase_of_ne hp⟩
      · intro m hm
        simp [h.asked_cases hwants hm]
      · have hcount := h.waiting l o
        rw [hasked] at hcount
        cases exclusive with
        | false => simpa [State.leave] using hcount
        | true =>
          have hzero : ((w.locks l).waiting.erase o).count o = 0 := by
            rw [List.count_erase_self, hcount]
            simp
          simpa [State.leave] using hzero
      · intro m hm
        simp only [hsame.1, hsame.2.1]
      · rw [hleave.1]
        simp only [hsame.1, hsame.2.1]
        exact h.shared l o
      · intro m hm
        simp only [hsame.2.2]
      · intro hP p
        rw [hleave.2, h.exclusive l hP p]
        by_cases hp : p = o
        · simp [hp, hsame.2.2]
        · simp [hp]
      · intro hP
        rw [hleave.1, hleave.2]
        exact h.alone l hP

/-- An exclusive guard is dropped. -/
theorem dropExclusive (h : Inv P Q w) (hok : c.Ok P Q) (hasked : c.asked = (w.conns o).asked)
    (hheld : c.held = (w.conns o).held) (hkept : c.locks.shared = (w.conns o).locks.shared)
    (hmem : (w.conns o).locks.exclusive = l :: c.locks.exclusive)
    (honce : P l → l ∉ c.locks.exclusive) :
    Inv P Q (w.set o c l (w.locks l).dropExclusive) := by
  apply h.set hok
  · exact fun p hp => ⟨rfl, rfl⟩
  · intro m hm
    rw [hasked]
  · rw [hasked]
    exact h.waiting l o
  · intro m hm
    rw [hheld, hkept]
  · rw [hheld, hkept]
    exact h.shared l o
  · intro m hm
    simp [hmem, hm]
  · intro hP p
    have hex := (h.exclusive l hP o).mpr (by simp [hmem])
    have hiff := h.exclusive l hP p
    by_cases hp : p = o
    · simp [State.dropExclusive, hp, honce hP]
    · rw [hex] at hiff
      have hne : ¬ o = p := fun heq => hp heq.symm
      simpa [State.dropExclusive, hp, hne] using hiff
  · intro hP p hp
    simp [State.dropExclusive] at hp

/-- A connection that waits for no lock has asked for none. -/
theorem asked_none (h : Inv P Q w) (hwants : (w.conns o).wants = none) :
    (w.conns o).asked = none := by
  cases hasked : (w.conns o).asked with
  | none => rfl
  | some r =>
    have hr := (h.conns o).asks r hasked
    rw [hwants] at hr
    cases hr

/-- A connection goes on in its statement and touches no lock. -/
theorem goto (h : Inv P Q w) {phase : Phase Lock} (hasked : (w.conns o).asked = none)
    (hphase : Connection.PhaseOk { w.conns o with phase := phase })
    (hpending : ∀ l, P l → Connection.pending { w.conns o with phase := phase } l ≤
      (w.conns o).pending l)
    (htakes : ∀ l, Q l → (w.conns o).inTxn = true →
      Connection.Takes { w.conns o with phase := phase } l) :
    Inv P Q (w.setConn o { w.conns o with phase := phase }) :=
  h.setConn ((h.conns o).goto hasked hphase hpending htakes) rfl (fun _ => rfl) rfl

variable {stmt : Statement Lock}

/-- The transaction gives up the lock its statement is about to ask for exclusively. -/
theorem giveUp (h : Inv P Q w) {todo : List (Request Lock)}
    (hphase : (w.conns o).phase = .taking stmt (.exclusive l :: todo))
    (hasked : (w.conns o).asked = none) (hheld : l ∈ (w.conns o).held) :
    Inv P Q (w.set o { w.conns o with
      held := (w.conns o).held.erase l
      locks := { (w.conns o).locks with resume := (w.conns o).locks.resume ++ [l] } } l
      ((w.locks l).dropShared o)) := by
  have hc := h.conns o
  have hok := hc.phase
  simp only [Connection.PhaseOk, hphase] at hok
  have hin : (w.conns o).inTxn = true := by
    by_contra hout
    have hbare := (hok.2.2.2 (by simpa using hout)).1
    rw [hbare] at hheld
    cases hheld
  have hne : ∀ m, Q m → m ≠ l := by
    intro m hm heq
    have htakes := hc.takes m hm hin
    simp only [Connection.Takes, hphase] at htakes
    exact htakes.1 (by simp [heq])
  apply h.dropShared
  · constructor
    · exact fun r hr => (Option.some_ne_none r (hr.symm.trans hasked)).elim
    · exact hc.unused
    · simp only [Connection.PhaseOk, hphase]
      refine ⟨?_, hok.2.1, hok.2.2.1, fun hout => by rw [hin] at hout; cases hout⟩
      intro m hm
      rcases List.mem_append.mp hm with hm | hm
      · exact hok.1 m hm
      · rw [List.mem_singleton.mp hm]
        exact hok.2.1 l (by simp)
    · intro m hm
      have honce := hc.once m hm
      simpa only [Connection.pending, hphase] using honce
    · exact fun m hm hused => (List.mem_erase_of_ne (hne m hm)).mpr (hc.keeps m hm hused)
    · intro m hm _
      have htakes := hc.takes m hm hin
      simp only [Connection.Takes, hphase] at htakes ⊢
      refine ⟨htakes.1, fun hrel => ?_⟩
      rcases htakes.2 hrel with hmem | hmem
      · exact Or.inl ((List.mem_erase_of_ne (hne m hm)).mpr hmem)
      · exact Or.inr hmem
  · rfl
  · intro m
    have hpos : 0 < (w.conns o).held.count l := List.count_pos_iff.mpr hheld
    by_cases hm : m = l
    · subst hm
      simp only [List.count_erase_self, if_true]
      omega
    · simp only [List.count_erase_of_ne hm, if_neg hm]
      omega
  · rfl

/-- A statement comes to run, and a transaction has used its tables. -/
theorem use (h : Inv P Q w) (hphase : (w.conns o).phase = .taking stmt [])
    (hasked : (w.conns o).asked = none) :
    Inv P Q (w.setConn o { w.conns o with
      phase := .running stmt
      used := if (w.conns o).inTxn then stmt.relations ++ (w.conns o).used
        else (w.conns o).used }) := by
  have hc := h.conns o
  have hok := hc.phase
  simp only [Connection.PhaseOk, hphase] at hok
  refine h.setConn ?_ rfl (fun _ => rfl) rfl
  constructor
  · exact fun r hr => (Option.some_ne_none r (hr.symm.trans hasked)).elim
  · intro hout
    have hnot : (w.conns o).inTxn = false := hout
    simp only [hnot]
    exact hc.unused hnot
  · exact ⟨hok.1, hok.2.2.2⟩
  · intro m hm
    have honce := hc.once m hm
    simp only [Connection.pending] at honce ⊢
    omega
  · intro m hm hused
    by_cases hin : (w.conns o).inTxn = true
    · simp only [hin, if_true, List.mem_append] at hused
      rcases hused with hrel | hused
      · have htakes := hc.takes m hm hin
        simp only [Connection.Takes, hphase] at htakes
        rcases htakes.2 hrel with hmem | hmem
        · exact hmem
        · cases hmem
      · exact hc.keeps m hm hused
    · simp only [hin] at hused
      exact hc.keeps m hm (by simpa using hused)
  · exact fun _ _ _ => trivial

/-- The statement is over, and its locks are dropped. -/
theorem clear (h : Inv P Q w) (hasked : (w.conns o).asked = none)
    (hbare : (w.conns o).Bare) :
    Inv P Q (w.setConn o { w.conns o with phase := .clearing }) :=
  h.goto hasked hbare (fun _ _ => Nat.zero_le _) fun _ _ _ => trivial

/-- The transaction ends. -/
theorem endTxn (h : Inv P Q w) (hphase : (w.conns o).phase = .running stmt)
    (hasked : (w.conns o).asked = none) (htargets : stmt.targets = []) :
    Inv P Q (w.setConn o { w.conns o with inTxn := false, used := [], phase := .ending }) := by
  have hc := h.conns o
  have hok := hc.phase
  simp only [Connection.PhaseOk, hphase] at hok
  refine h.setConn ?_ rfl (fun _ => rfl) rfl
  constructor
  · exact fun r hr => (Option.some_ne_none r (hr.symm.trans hasked)).elim
  · exact fun _ => rfl
  · refine ⟨rfl, List.eq_nil_iff_forall_not_mem.mpr fun m hm => ?_⟩
    have htarget := hok.1 m hm
    rw [htargets] at htarget
    cases htarget
  · intro m hm
    have honce := hc.once m hm
    simp only [Connection.pending] at honce ⊢
    omega
  · intro m hm hused
    cases hused
  · exact fun _ _ _ => trivial

theorem begin (h : Inv P Q w) (hasked : (w.conns o).asked = none) :
    Inv P Q (w.setConn o { w.conns o with inTxn := true, phase := .clearing }) := by
  have hc := h.conns o
  refine h.setConn ?_ rfl (fun _ => rfl) rfl
  constructor
  · exact fun r hr => (Option.some_ne_none r (hr.symm.trans hasked)).elim
  · intro hout
    cases hout
  · intro hout
    cases hout
  · intro m hm
    have honce := hc.once m hm
    simp only [Connection.pending] at honce ⊢
    omega
  · exact hc.keeps
  · exact fun _ _ _ => trivial

section Advance

variable (h : Inv P Q w) (hwants : (w.conns o).wants = none)

include h hwants

theorem advance_taking {todo : List (Request Lock)}
    (hphase : (w.conns o).phase = .taking stmt todo) : Inv P Q (w.advance o) := by
  have hasked := h.asked_none hwants
  have hc := h.conns o
  have hok := hc.phase
  simp only [Connection.PhaseOk, hphase] at hok
  cases todo with
  | nil => simpa only [World.advance, hphase] using h.use hphase hasked
  | cons r todo =>
    have hrest (hheld : ∀ l, r = .hold l → l ∈ (w.conns o).held) :
        Inv P Q (w.setConn o { w.conns o with phase := .taking stmt todo }) := by
      refine h.goto hasked ?_ ?_ ?_
      · exact ⟨hok.1, fun m hm => hok.2.1 m (List.mem_cons_of_mem _ hm),
          fun m hm => hok.2.2.1 m (List.mem_cons_of_mem _ hm), hok.2.2.2⟩
      · intro m hm
        simp only [Connection.pending, hphase, List.count_cons]
        omega
      · intro m hm hin
        have htakes := hc.takes m hm hin
        simp only [Connection.Takes, hphase, List.mem_cons, not_or] at htakes ⊢
        refine ⟨htakes.1.2, fun hrel => ?_⟩
        rcases htakes.2 hrel with hmem | heq | hmem
        · exact Or.inl hmem
        · exact Or.inl (hheld m heq.symm)
        · exact Or.inr hmem
    cases r with
    | exclusive l =>
      have hheld : l ∈ (w.conns o).held := by
        by_contra hnot
        simp [Connection.wants, hphase, hnot] at hwants
      simpa only [World.advance, hphase] using h.giveUp hphase hasked hheld
    | hold l =>
      have hheld : l ∈ (w.conns o).held := by
        by_contra hnot
        simp [Connection.wants, hphase, hnot] at hwants
      have hinv := hrest fun m hm => by cases hm; exact hheld
      simpa only [World.advance, hphase] using hinv
    | shared l => simp [Connection.wants, hphase] at hwants

theorem advance_running (hphase : (w.conns o).phase = .running stmt) :
    Inv P Q (w.advance o) := by
  have hasked := h.asked_none hwants
  have hclear := h.clear hasked (Connection.bare_of_ok (h.conns o) (by simp [hphase]))
  cases stmt with
  | startTransaction => simpa only [World.advance, hphase] using h.begin hasked
  | commit | rollback =>
    by_cases hin : (w.conns o).inTxn = true
    · simpa only [World.advance, hphase, if_pos hin] using h.endTxn hphase hasked rfl
    · simpa only [World.advance, hphase, if_neg hin] using hclear
  | alterTable | createIndex | dropTable | insert | update | delete | copyInto | truncate |
    select | other => simpa only [World.advance, hphase] using hclear

theorem advance_clearing (hphase : (w.conns o).phase = .clearing) : Inv P Q (w.advance o) := by
  have hasked := h.asked_none hwants
  have hc := h.conns o
  have hbare : (w.conns o).Bare := Connection.bare_of_ok hc (by simp [hphase])
  cases hex : (w.conns o).locks.exclusive with
  | nil =>
    have hinv : Inv P Q (w.setConn o { w.conns o with phase := .resuming }) :=
      h.goto hasked ⟨hex, hbare⟩ (fun _ _ => Nat.zero_le _) fun _ _ _ => trivial
    simpa only [World.advance, hphase, hex] using hinv
  | cons l rest =>
    have hdropped : Connection.Ok P Q { w.conns o with
        locks := { (w.conns o).locks with exclusive := rest } } := by
      refine hc.drop hasked ?_ fun m _ => ?_
      · simp only [Connection.PhaseOk, hphase]
        exact hbare
      · rw [hex]
        exact List.count_le_count_cons
    have hinv := h.dropExclusive (l := l) hdropped rfl rfl rfl hex fun hP hmem => by
      have honce := hc.once l hP
      have hpos : 0 < rest.count l := List.count_pos_iff.mpr hmem
      rw [hex, List.count_cons_self] at honce
      omega
    simpa only [World.advance, hphase, hex] using hinv

theorem advance_resuming (hphase : (w.conns o).phase = .resuming) : Inv P Q (w.advance o) := by
  have hasked := h.asked_none hwants
  have hc := h.conns o
  have hok := hc.phase
  simp only [Connection.PhaseOk, hphase] at hok
  cases hresume : (w.conns o).locks.resume with
  | nil =>
    have hinv : Inv P Q (w.setConn o { w.conns o with phase := .releasing }) :=
      h.goto hasked ⟨hok.1, hresume, hok.2⟩ (fun _ _ => Nat.zero_le _) fun _ _ _ => trivial
    simpa only [World.advance, hphase, hresume] using hinv
  | cons l rest =>
    have hdropped : Connection.Ok P Q { w.conns o with
        locks := { (w.conns o).locks with resume := rest } } := by
      refine hc.drop hasked ?_ fun _ _ => Nat.le_refl _
      simp only [Connection.PhaseOk, hphase]
      refine ⟨hok.1, fun hout => ?_⟩
      have hnil := (hok.2 hout).2
      rw [hresume] at hnil
      cases hnil
    have hinv := h.setConn hdropped rfl (fun _ => rfl) rfl
    simpa only [World.advance, hphase, hresume] using hinv

theorem advance_releasing (hphase : (w.conns o).phase = .releasing) : Inv P Q (w.advance o) := by
  have hasked := h.asked_none hwants
  have hc := h.conns o
  have hok := hc.phase
  simp only [Connection.PhaseOk, hphase] at hok
  cases hshared : (w.conns o).locks.shared with
  | nil =>
    have hlocks : (w.conns o).locks = ⟨[], [], []⟩ := by
      rw [show (w.conns o).locks = ⟨(w.conns o).locks.shared, (w.conns o).locks.exclusive,
        (w.conns o).locks.resume⟩ from rfl, hshared, hok.1, hok.2.1]
    have hinv : Inv P Q (w.setConn o { w.conns o with phase := .idle }) :=
      h.goto hasked ⟨hlocks, hok.2.2⟩ (fun _ _ => Nat.zero_le _) fun _ _ _ => trivial
    simpa only [World.advance, hphase, hshared] using hinv
  | cons l rest =>
    have hdropped : Connection.Ok P Q { w.conns o with
        locks := { (w.conns o).locks with shared := rest } } := by
      refine hc.drop hasked ?_ fun _ _ => Nat.le_refl _
      simp only [Connection.PhaseOk, hphase]
      exact hok
    have hinv := h.dropShared (l := l) hdropped rfl (fun m => by
      simp only [hshared, List.count_cons, beq_iff_eq, eq_comm (a := l)]
      omega) rfl
    simpa only [World.advance, hphase, hshared] using hinv

theorem advance : Inv P Q (w.advance o) := by
  cases hphase : (w.conns o).phase with
  | idle => simpa only [World.advance, hphase] using h
  | taking stmt todo => exact h.advance_taking hwants hphase
  | running stmt => exact h.advance_running hwants hphase
  | ending =>
    have hok := (h.conns o).phase
    simp only [Connection.PhaseOk, hphase] at hok
    by_cases hheld : (w.conns o).held = []
    · have hclear := h.clear (h.asked_none hwants) fun _ => ⟨hheld, hok.2⟩
      simpa only [World.advance, hphase, if_pos hheld] using hclear
    · simpa only [World.advance, hphase, if_neg hheld] using h
  | clearing => exact h.advance_clearing hwants hphase
  | resuming => exact h.advance_resuming hwants hphase
  | releasing => exact h.advance_releasing hwants hphase

end Advance

/-- The transaction has ended, and drops one of its locks. -/
theorem release (h : Inv P Q w) : Inv P Q (w.release o l) := by
  have hc := h.conns o
  have hok := hc.phase
  cases hphase : (w.conns o).phase with
  | ending =>
    by_cases hheld : l ∈ (w.conns o).held
    · simp only [Connection.PhaseOk, hphase] at hok
      have hasked : (w.conns o).asked = none :=
        h.asked_none (by simp only [Connection.wants, hphase])
      have hunused := hc.unused hok.1
      have hinv := h.dropShared (o := o) (l := l)
        (c := { w.conns o with held := (w.conns o).held.erase l })
        { asks := fun r hr => (Option.some_ne_none r (hr.symm.trans hasked)).elim
          unused := hc.unused
          phase := by
            simp only [Connection.PhaseOk, hphase]
            exact hok
          once := fun m hm => by
            have honce := hc.once m hm
            simpa only [Connection.pending, hphase] using honce
          keeps := fun m hm hused => by
            have hmem : m ∈ (w.conns o).used := hused
            rw [hunused] at hmem
            cases hmem
          takes := fun m hm hin => by simp only [Connection.Takes, hphase] }
        rfl (fun m => by
          have hpos : 0 < (w.conns o).held.count l := List.count_pos_iff.mpr hheld
          by_cases hm : m = l
          · subst hm
            simp only [List.count_erase_self, if_true]
            omega
          · simp only [List.count_erase_of_ne hm, if_neg hm]
            omega) rfl
      simpa only [World.release, hphase, if_pos hheld] using hinv
    · simpa only [World.release, hphase, if_neg hheld] using h
  | idle | taking | running | clearing | resuming | releasing =>
    simpa only [World.release, hphase] using h

theorem new (P Q : Lock → Prop) : Inv P Q (World.new : World Owner Lock) where
  conns := fun o =>
    { asks := fun r hr => by cases hr
      unused := fun _ => rfl
      phase := ⟨rfl, fun _ => ⟨rfl, rfl⟩⟩
      once := fun _ _ => Nat.zero_le _
      keeps := fun _ _ hused => by cases hused
      takes := fun _ _ _ => trivial }
  waits := fun _ => rfl
  waiting := fun _ _ => rfl
  shared := fun _ _ => rfl
  exclusive := fun l _ o => by simp [World.new, State.new, Connection.new]
  alone := fun l _ o hex => by cases hex

end Inv

/-! ## Runs -/

section Runs

variable {Lock : Type*} [LinearOrder Lock]

variable {stmt : Statement Lock}

omit [LinearOrder Lock] in
theorem Statement.mem_targets {l : Lock} (h : l ∈ stmt.targets) :
    l ∈ stmt.relations ∧ ∀ inTxn, stmt.depends inTxn = false := by
  cases stmt with
  | alterTable name => exact ⟨h, fun _ => rfl⟩
  | createIndex table => exact ⟨h, fun _ => rfl⟩
  | dropTable names => exact ⟨h, fun _ => rfl⟩
  | insert | update | delete | copyInto | truncate | select => cases h
  | startTransaction | commit | rollback | other => cases h

theorem Statement.mem_requests_hold {inTxn : Bool} {l : Lock} :
    .hold l ∈ stmt.requests inTxn ↔
      inTxn = true ∧ stmt.depends inTxn = true ∧ l ∈ stmt.relations := by
  unfold Statement.requests
  by_cases hdep : stmt.depends inTxn = true
  · cases inTxn with
    | false => simp [hdep]
    | true => simp [hdep, List.mem_insertionSort]
  · simp [hdep]

theorem Statement.count_requests_exclusive {inTxn : Bool} {l : Lock} :
    (stmt.requests inTxn).count (.exclusive l) = stmt.targets.count l := by
  have hrest : ∀ wanted : List Lock,
      (wanted.map (if inTxn then Request.hold else Request.shared)).count (.exclusive l) = 0 := by
    intro wanted
    apply List.count_eq_zero.mpr
    cases inTxn with
    | false => simp
    | true => simp
  have hinj : Function.Injective (Request.exclusive : Lock → Request Lock) :=
    fun _ _ h => Request.exclusive.inj h
  unfold Statement.requests
  simp only [List.count_append, List.count_map_of_injective _ _ hinj]
  split
  · rw [hrest, Nat.add_zero]
  · simp

/-- A statement that is started changes the definition of table `l` once at most: it is no
`DROP TABLE` that names the table twice. -/
def Once (l : Lock) : Action Owner Lock → Prop
  | .start _ stmt => stmt.targets.count l ≤ 1
  | _ => True

instance (l : Lock) : DecidablePred (Once l : Action Owner Lock → Prop)
  | .start _ stmt => inferInstanceAs (Decidable (stmt.targets.count l ≤ 1))
  | .proceed _ | .refuse _ | .release _ _ => .isTrue trivial

/-- A statement that is started in a transaction, and names table `l`, takes the shared lock:
it neither changes a definition nor is one that takes no lock. -/
def Shares (l : Lock) (w : World Owner Lock) : Action Owner Lock → Prop
  | .start o stmt => (w.conns o).inTxn = true → l ∈ stmt.relations → stmt.depends true = true
  | _ => True

instance (l : Lock) (w : World Owner Lock) : DecidablePred (Shares l w)
  | .start o stmt => inferInstanceAs (Decidable
      ((w.conns o).inTxn = true → l ∈ stmt.relations → stmt.depends true = true))
  | .proceed _ | .refuse _ | .release _ _ => .isTrue trivial

variable {P Q : Lock → Prop} {w : World Owner Lock}

theorem Inv.start (h : Inv P Q w) {o : Owner} (hidle : (w.conns o).phase = .idle)
    (honce : ∀ l, P l → Once l (.start o stmt : Action Owner Lock))
    (hshares : ∀ l, Q l → Shares l w (.start o stmt)) :
    Inv P Q (w.setConn o { w.conns o with
      phase := .taking stmt (stmt.requests (w.conns o).inTxn) }) := by
  have hc := h.conns o
  have hok := hc.phase
  simp only [Connection.PhaseOk, hidle] at hok
  have hcount : ∀ l, (stmt.requests (w.conns o).inTxn).count (.exclusive l) =
      stmt.targets.count l := fun _ => Statement.count_requests_exclusive
  have hasked := h.asked_none (o := o) (by simp only [Connection.wants, hidle])
  refine h.setConn ⟨?_, hc.unused, ?_, ?_, hc.keeps, ?_⟩ rfl (fun _ => rfl) rfl
  · exact fun r hr => (Option.some_ne_none r (hr.symm.trans hasked)).elim
  · refine ⟨?_, ?_, fun l hl => (Statement.mem_requests_hold.mp hl).1, hok.2⟩
    · intro l hl
      rw [show ({ w.conns o with phase := _ } : Connection Lock).locks = _ from hok.1] at hl
      cases hl
    · intro l hl
      have hpos := List.count_pos_iff.mpr hl
      rw [hcount l] at hpos
      exact List.count_pos_iff.mp hpos
  · intro l hl
    have hl1 : stmt.targets.count l ≤ 1 := honce l hl
    simp only [Connection.pending, hcount, hok.1, List.count_nil]
    omega
  · intro l hl hin
    have hs := hshares l hl hin
    simp only [Connection.Takes]
    constructor
    · intro hmem
      have hpos := List.count_pos_iff.mpr hmem
      rw [hcount l] at hpos
      have htarget := Statement.mem_targets (List.count_pos_iff.mp hpos)
      have hdep := hs htarget.1
      rw [htarget.2 true] at hdep
      cases hdep
    · intro hrel
      rw [hin]
      exact Or.inr (Statement.mem_requests_hold.mpr ⟨rfl, hs hrel, hrel⟩)

theorem Inv.step (h : Inv P Q w) {a : Action Owner Lock} (honce : ∀ l, P l → Once l a)
    (hshares : ∀ l, Q l → Shares l w a) : Inv P Q (step w a) := by
  cases a with
  | start o stmt =>
    cases hphase : (w.conns o).phase with
    | idle => simpa only [TableLock.step, hphase] using h.start hphase honce hshares
    | taking => simpa only [TableLock.step, hphase] using h
    | running => simpa only [TableLock.step, hphase] using h
    | ending => simpa only [TableLock.step, hphase] using h
    | clearing => simpa only [TableLock.step, hphase] using h
    | resuming => simpa only [TableLock.step, hphase] using h
    | releasing => simpa only [TableLock.step, hphase] using h
  | proceed o =>
    cases hwants : (w.conns o).wants with
    | none => simpa only [TableLock.step, World.proceed, hwants] using h.advance hwants
    | some r =>
      cases r with
      | mk l exclusive =>
        simpa only [TableLock.step, World.proceed, hwants] using h.acquire hwants
  | refuse o => exact h.refuse
  | release o l => exact h.release

namespace World

/-- `o` has an `ExclusiveGuard` of table `l`. -/
def HoldsExclusively (w : World Owner Lock) (o : Owner) (l : Lock) : Prop :=
  l ∈ (w.conns o).locks.exclusive

instance (w : World Owner Lock) (o : Owner) (l : Lock) : Decidable (w.HoldsExclusively o l) :=
  inferInstanceAs (Decidable (l ∈ (w.conns o).locks.exclusive))

/-- `o`'s statement or its transaction has a `SharedGuard` of table `l`. -/
def HoldsShared (w : World Owner Lock) (o : Owner) (l : Lock) : Prop :=
  l ∈ (w.conns o).locks.shared ∨ l ∈ (w.conns o).held

/-- When `o`'s request is refused it is no holder, waiter or queue entry of any lock on
account of it, and once its statement is over it holds nothing but for its transaction. -/
structure LeavesNothing (w : World Owner Lock) (o : Owner) : Prop where
  waits : (w.refuse o).waits o = none
  queue : ∀ l, o ∉ ((w.refuse o).locks l).waiting
  holders : ∀ l, ((w.refuse o).locks l).shared = (w.locks l).shared ∧
    ((w.refuse o).locks l).exclusive = (w.locks l).exclusive
  guards : ∀ p l, ((w.refuse o).HoldsExclusively p l ↔ w.HoldsExclusively p l) ∧
    ((w.refuse o).HoldsShared p l ↔ w.HoldsShared p l)
  ended : (w.conns o).phase = .idle → ∀ l,
    ¬ w.HoldsExclusively o l ∧ o ∉ (w.locks l).waiting ∧ w.waits o = none ∧
      ((w.conns o).inTxn = false → ¬ w.HoldsShared o l ∧ o ∉ (w.locks l).shared)

/-- Whoever holds table `l` exclusively is alone with it. -/
def Exclusive (w : World Owner Lock) (l : Lock) : Prop :=
  ∀ o, w.HoldsExclusively o l →
    ∀ p, (w.HoldsExclusively p l → p = o) ∧ (w.HoldsShared p l → p = o)

/-- While a transaction that has used table `l` is open, no other connection is granted it
exclusively. -/
def KeptStill (w : World Owner Lock) (l : Lock) : Prop :=
  ∀ o, l ∈ (w.conns o).used → ∀ p, w.HoldsExclusively p l → p = o

end World

namespace Inv

theorem mem_shared (h : Inv P Q w) {o : Owner} {l : Lock} :
    o ∈ (w.locks l).shared ↔ w.HoldsShared o l := by
  have hcount := h.shared l o
  have hmem : ∀ ls : List Lock, l ∈ ls ↔ 0 < ls.count l := fun ls => List.count_pos_iff.symm
  unfold World.HoldsShared
  rw [← List.count_pos_iff, hmem, hmem]
  omega

theorem exclusive_alone (h : Inv P Q w) {l : Lock} (hl : P l) : w.Exclusive l := by
  intro o ho p
  have hex := (h.exclusive l hl o).mpr ho
  constructor
  · intro hp
    have hpx := (h.exclusive l hl p).mpr hp
    rw [hex] at hpx
    exact (Option.some.inj hpx).symm
  · intro hp
    exact h.alone l hl o hex p (h.mem_shared.mpr hp)

theorem kept_still (h : Inv P Q w) {l : Lock} (hl : P l) (hq : Q l) : w.KeptStill l := by
  intro o hused p hp
  have hheld : w.HoldsShared o l := Or.inr ((h.conns o).keeps l hq hused)
  exact ((h.exclusive_alone hl p hp o).2 hheld).symm

/-- A connection that waits for no lock is in no queue. -/
theorem not_mem_waiting (h : Inv P Q w) {o : Owner} (hasked : (w.conns o).asked = none)
    (l : Lock) : o ∉ (w.locks l).waiting := by
  have hcount := h.waiting l o
  rw [hasked, if_neg (by simp)] at hcount
  exact List.count_eq_zero.mp hcount

/-- A connection between two statements. -/
theorem idle_holds (h : Inv P Q w) {o : Owner} (hidle : (w.conns o).phase = .idle) (l : Lock) :
    ¬ w.HoldsExclusively o l ∧ o ∉ (w.locks l).waiting ∧ w.waits o = none ∧
      ((w.conns o).inTxn = false → ¬ w.HoldsShared o l ∧ o ∉ (w.locks l).shared) := by
  have hok := (h.conns o).phase
  simp only [Connection.PhaseOk, hidle] at hok
  have hasked := h.asked_none (o := o) (by simp only [Connection.wants, hidle])
  refine ⟨by simp [World.HoldsExclusively, hok.1], h.not_mem_waiting hasked l,
    (h.waits o).trans hasked, fun hout => ?_⟩
  have hnot : ¬ w.HoldsShared o l := by
    simp [World.HoldsShared, hok.1, (hok.2 hout).1]
  exact ⟨hnot, fun hmem => hnot (h.mem_shared.mp hmem)⟩

theorem leavesNothing (h : Inv P Q w) (o : Owner) : w.LeavesNothing o := by
  have hafter := h.refuse (o := o)
  cases hasked : (w.conns o).asked with
  | none =>
    have hrefuse : w.refuse o = w := by simp only [World.refuse, hasked]
    exact {
      waits := by rw [hrefuse, h.waits o, hasked]
      queue := by
        rw [hrefuse]
        exact h.not_mem_waiting hasked
      holders := by simp [hrefuse]
      guards := by simp [hrefuse]
      ended := h.idle_holds }
  | some r =>
    cases r with
    | mk l exclusive =>
      have hrefuse : w.refuse o =
          w.set o { (w.conns o).refused with asked := none } l
            ((w.locks l).leave o exclusive) := by
        simp only [World.refuse, hasked]
      have hsame := (Connection.asks_of_wants ((h.conns o).asks _ hasked)).refused_same
      have hnone : ((w.refuse o).conns o).asked = none := by
        simp [hrefuse, World.set]
      have hconn : ∀ p, ((w.refuse o).conns p).held = (w.conns p).held ∧
          ((w.refuse o).conns p).locks.shared = (w.conns p).locks.shared ∧
          ((w.refuse o).conns p).locks.exclusive = (w.conns p).locks.exclusive := by
        intro p
        by_cases hp : p = o
        · subst hp
          simpa [hrefuse, World.set] using hsame
        · simp [hrefuse, World.set, hp]
      exact {
        waits := (hafter.waits o).trans hnone
        queue := hafter.not_mem_waiting hnone
        holders := by
          intro m
          by_cases hm : m = l
          · subst hm
            simpa [hrefuse, World.set] using State.leave_same (w.locks m) o exclusive
          · simp [hrefuse, World.set, hm]
        guards := by
          intro p m
          simp [World.HoldsExclusively, World.HoldsShared, hconn p]
        ended := h.idle_holds }

end Inv

end Runs

/-! ## A transaction's own `ALTER TABLE` -/

/-- Connection 0 begins a transaction and reads table 7. -/
def readInTxn : List (Action Nat Nat) :=
  .start 0 .startTransaction :: List.replicate 5 (.proceed 0) ++
    .start 0 (.select [some 7]) :: List.replicate 2 (.proceed 0)

/-- Connection 1 asks for the table to alter it, and is refused; connection 2 asks and waits. -/
def othersAlter : List (Action Nat Nat) :=
  readInTxn ++ List.replicate 4 (.proceed 0) ++ [.start 1 (.alterTable (some 7)), .proceed 1,
    .refuse 1, .start 2 (.alterTable (some 7)), .proceed 2]

/-- The transaction then alters the table, and so does connection 1. -/
def ownAlter : List (Action Nat Nat) :=
  readInTxn ++ List.replicate 4 (.proceed 0) ++
    [.start 0 (.alterTable (some 7)), .proceed 0, .start 1 (.alterTable (some 7)), .proceed 1]

end SquealDb.Conn.TableLock
