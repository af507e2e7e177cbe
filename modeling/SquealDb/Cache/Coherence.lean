import SquealDb.Cache.PageCache

/-!
# The page cache is coherent, where upgraded pages are

A page that was read from the file is cached only if no writer has published into its
shard meanwhile.  A page that a reader upgraded from a `Weak` entry is cached whatever
has happened meanwhile, if the cache has none: when the page was published again as
another page, written by a checkpoint and evicted, the old one comes back.

The invariant keeps, for every page, which version the cache, the file, a checkpoint's
copies and the threads may have of it.  It holds in every run in which no such page is
cached.
-/

namespace SquealDb.Cache

open Lib

/-- The number of the page an entry refers to. -/
def PageEntry.arc : PageEntry → Nat
  | .strong a => a
  | .weak a => a

namespace PageCache

variable {τ : Type}

section Invariant

variable (s : PageCache τ)

/-- A page of this number is there, and is a copy of `p`. -/
def IsPage (arc : Nat) (p : PageId) : Prop := arc < s.nextArc ∧ (s.arcs arc).page = p

/-- A copy of `p` that is not older than the version published last. -/
def Current (p : PageId) (arc : Nat) : Prop :=
  s.IsPage arc p ∧ s.published p ≤ (s.arcs arc).ver

/-- What is known of a call under way. -/
def CallOk (t : τ) (c : Call) : Prop :=
  c.since ≤ s.published c.page ∧ (c.forWrite = true → s.locks c.page = some t)

/-- Where nothing was published since, the file has the version published last. -/
def FileOk (p : PageId) (epoch : Nat) : Prop :=
  epoch ≤ s.writeEpoch p ∧ (s.writeEpoch p = epoch → s.file p = s.published p)

/-- What is known of a thread. -/
def ThreadOk (t : τ) : Thread → Prop
  | .idle => True
  | .looking c => s.CallOk t c
  | .sawWeak c a epoch seen =>
    s.CallOk t c ∧ s.FileOk c.page epoch ∧ s.IsPage a c.page ∧ seen ≤ (s.arcs a).ver
  | .upgraded c a seen => s.CallOk t c ∧ s.IsPage a c.page ∧ seen ≤ (s.arcs a).ver
  | .pruning c epoch => s.CallOk t c ∧ s.FileOk c.page epoch
  | .reading c epoch => s.CallOk t c ∧ s.FileOk c.page epoch
  | .loaded c ver epoch =>
    s.CallOk t c ∧ ver ≤ s.file c.page ∧ epoch ≤ s.writeEpoch c.page ∧
      (s.writeEpoch c.page = epoch → ver = s.published c.page)
  | .returned c a => s.IsPage a c.page ∧ c.since ≤ (s.arcs a).ver
  | .holding p a => s.locks p = some t ∧ s.Current p a

/-- A version of `p` that is published, or that the holder of the lock is making. -/
def Known (p : PageId) (ver : Nat) : Prop :=
  ver ≤ s.published p ∨
    ∃ t b, s.locks p = some t ∧ s.threads t = .holding p b ∧ ver ≤ (s.arcs b).ver

end Invariant

/-- The cache's invariant. -/
structure Inv (s : PageCache τ) : Prop where
  entries : ∀ p e, s.entries p = some e → s.Current p e.arc
  latest : ∀ p a, s.latest p = some a → s.Current p a
  /-- Every copy's version is known, and the file has what a copy was flushed with. -/
  known : ∀ a < s.nextArc, s.Known (s.arcs a).page (s.arcs a).ver
  flushed : ∀ a < s.nextArc, (s.arcs a).flushedVersion ≤ (s.arcs a).dirtyVersion ∧
    (s.arcs a).ver + (s.arcs a).flushedVersion ≤ s.file (s.arcs a).page + (s.arcs a).dirtyVersion
  file_le : ∀ p, s.file p ≤ s.published p
  /-- What the cache does not hold, the file has. -/
  file_eq : ∀ p, (∀ a, s.entries p ≠ some (.strong a)) → s.file p = s.published p
  captured : ∀ c ∈ s.toWrite ++ s.toMark, s.IsPage c.live c.page ∧ c.copy ≤ s.published c.page ∧
    (s.arcs c.live).ver + c.version = c.copy + (s.arcs c.live).dirtyVersion ∧
    c.version ≤ (s.arcs c.live).dirtyVersion
  toWrite : ∀ c ∈ s.toWrite, s.file c.page ≤ c.copy
  same : ∀ c ∈ s.toWrite, ∀ d ∈ s.toWrite, c.page = d.page → c.copy = d.copy
  toMark : ∀ c ∈ s.toMark, c.copy ≤ s.file c.page
  threads : ∀ t, s.ThreadOk t (s.threads t)

/-! ## Time passes for a thread -/

/-- Nothing goes back between `s` and `s'`, and where the epoch stands still nothing is
published. -/
structure Later (s s' : PageCache τ) : Prop where
  nextArc : s.nextArc ≤ s'.nextArc
  page : ∀ a < s.nextArc, (s'.arcs a).page = (s.arcs a).page
  ver : ∀ a < s.nextArc, (s.arcs a).ver ≤ (s'.arcs a).ver
  published : ∀ p, s.published p ≤ s'.published p
  epoch : ∀ p, s.writeEpoch p ≤ s'.writeEpoch p
  unpublished : ∀ p, s'.writeEpoch p = s.writeEpoch p → s'.published p = s.published p
  file : ∀ p, s.file p ≤ s'.file p

variable {s s' : PageCache τ} {p : PageId} {a : Nat} {t : τ}

theorem IsPage.later (h : s.IsPage a p) (hl : Later s s') : s'.IsPage a p :=
  ⟨Nat.lt_of_lt_of_le h.1 hl.nextArc, (hl.page a h.1).trans h.2⟩

theorem Current.later (h : s.Current p a) (hl : Later s s')
    (hp : s'.published p = s.published p) : s'.Current p a := by
  refine ⟨h.1.later hl, ?_⟩
  rw [hp]
  exact Nat.le_trans h.2 (hl.ver a h.1.1)

theorem FileOk.later {epoch : Nat} (h : s.FileOk p epoch) (hl : Later s s')
    (hfile : s'.file p ≤ s'.published p) : s'.FileOk p epoch := by
  have hepoch := hl.epoch p
  refine ⟨Nat.le_trans h.1 hepoch, ?_⟩
  intro heq
  have hle := h.1
  have hsame := hl.unpublished p (by omega)
  have hwas := h.2 (by omega)
  have hmore := hl.file p
  omega

theorem CallOk.later {c : Call} (h : s.CallOk t c) (hl : Later s s')
    (hlocks : ∀ p, s.locks p = some t → s'.locks p = some t) : s'.CallOk t c :=
  ⟨Nat.le_trans h.1 (hl.published c.page), fun hw => hlocks _ (h.2 hw)⟩

/-- What is known of a thread stays so, if it keeps its locks and no other publishes the
pages it has locked. -/
theorem ThreadOk.later {th : Thread} (h : s.ThreadOk t th) (hl : Later s s')
    (hfile : ∀ p, s'.file p ≤ s'.published p)
    (hlocks : ∀ p, s.locks p = some t → s'.locks p = some t ∧ s'.published p = s.published p) :
    s'.ThreadOk t th := by
  have hlocks' : ∀ p, s.locks p = some t → s'.locks p = some t := fun p hp => (hlocks p hp).1
  cases th with
  | idle => trivial
  | looking c => exact CallOk.later h hl hlocks'
  | sawWeak c a epoch seen =>
    obtain ⟨hcall, hepoch, hpage, hseen⟩ := h
    exact ⟨hcall.later hl hlocks', hepoch.later hl (hfile _), hpage.later hl,
      Nat.le_trans hseen (hl.ver a hpage.1)⟩
  | upgraded c a seen =>
    obtain ⟨hcall, hpage, hseen⟩ := h
    exact ⟨hcall.later hl hlocks', hpage.later hl, Nat.le_trans hseen (hl.ver a hpage.1)⟩
  | pruning c epoch => exact ⟨h.1.later hl hlocks', h.2.later hl (hfile _)⟩
  | reading c epoch => exact ⟨h.1.later hl hlocks', h.2.later hl (hfile _)⟩
  | loaded c ver epoch =>
    obtain ⟨hcall, hread, hle, hver⟩ := h
    have hepoch := hl.epoch c.page
    refine ⟨hcall.later hl hlocks', Nat.le_trans hread (hl.file c.page),
      Nat.le_trans hle hepoch, ?_⟩
    intro heq
    rw [hl.unpublished c.page (by omega)]
    exact hver (by omega)
  | returned c a => exact ⟨h.1.later hl, Nat.le_trans h.2 (hl.ver a h.1.1)⟩
  | holding p a =>
    obtain ⟨hlock, hcur⟩ := h
    exact ⟨(hlocks p hlock).1, hcur.later hl (hlocks p hlock).2⟩

/-! ## The small steps -/

theorem arcs_setReferenced (a : Nat) (r : Bool) (x : Nat) :
    (s.setArc a { s.arcs a with referenced := r }).arcs x =
      { s.arcs x with referenced := if x = a then r else (s.arcs x).referenced } := by
  by_cases hx : x = a
  · subst hx
    simp [setArc]
  · simp [setArc, hx]

theorem later_setReferenced (a : Nat) (r : Bool) :
    Later s (s.setArc a { s.arcs a with referenced := r }) := by
  refine ⟨Nat.le_refl _, ?_, ?_, fun _ => Nat.le_refl _, fun _ => Nat.le_refl _, fun _ _ => rfl,
    fun _ => Nat.le_refl _⟩
  · intro x _
    rw [arcs_setReferenced]
  · intro x _
    rw [arcs_setReferenced]

/-- What `install` leaves alone. -/
theorem install_frame (s : PageCache τ) (p : PageId) (a : Nat) :
    (s.install p a).threads = s.threads ∧ (s.install p a).locks = s.locks ∧
      (s.install p a).published = s.published := by
  unfold install
  split
  · exact ⟨rfl, rfl, rfl⟩
  · exact ⟨rfl, rfl, rfl⟩

/-- A version stays known while the locks and their holders stay. -/
theorem Known.later {v : Nat} (h : s.Known p v) (hinv : Inv s) (hl : Later s s')
    (hlocks : s'.locks = s.locks) (hthreads : s'.threads = s.threads) : s'.Known p v := by
  rcases h with hle | ⟨t, b, hlock, hth, hle⟩
  · exact Or.inl (Nat.le_trans hle (hl.published p))
  · have hb := hinv.threads t
    rw [hth] at hb
    refine Or.inr ⟨t, b, by rw [hlocks]; exact hlock, by rw [hthreads]; exact hth, ?_⟩
    exact Nat.le_trans hle (hl.ver b hb.2.1.1)

namespace Inv

/-- A copy's flag may be set or cleared. -/
theorem setReferenced (h : Inv s) (a : Nat) (r : Bool) :
    Inv (s.setArc a { s.arcs a with referenced := r }) := by
  have hlater := later_setReferenced (s := s) a r
  refine ⟨fun p e he => (h.entries p e he).later hlater rfl,
    fun p a ha => (h.latest p a ha).later hlater rfl, ?_, ?_, h.file_le, h.file_eq, ?_, h.toWrite,
    h.same, h.toMark, fun t => (h.threads t).later hlater h.file_le fun p hp => ⟨hp, rfl⟩⟩
  · intro x hx
    rw [arcs_setReferenced]
    exact (h.known x hx).later h hlater rfl rfl
  · intro x hx
    rw [arcs_setReferenced]
    exact h.flushed x hx
  · intro c hc
    obtain ⟨hpage, hrest⟩ := h.captured c hc
    refine ⟨hpage.later hlater, ?_⟩
    rw [arcs_setReferenced]
    exact hrest

/-- An entry may be set to a current copy, or taken out where the file has the page. -/
theorem setEntry (h : Inv s) {entry : Option PageEntry}
    (hentry : ∀ e, entry = some e → s.Current p e.arc)
    (hfile : (∀ a, entry ≠ some (.strong a)) → s.file p = s.published p) :
    Inv (s.setEntry p entry) := by
  have hcases : ∀ q, (s.setEntry p entry).entries q = if q = p then entry else s.entries q := by
    intro q
    exact Function.update_apply s.entries p entry q
  refine ⟨?_, h.latest, h.known, h.flushed, h.file_le, ?_, h.captured, h.toWrite, h.same, h.toMark,
    h.threads⟩
  · intro q e he
    rw [hcases] at he
    split at he
    · next hq =>
        subst hq
        exact hentry e he
    · exact h.entries q e he
  · intro q hq
    simp only [hcases] at hq
    split at hq
    · next hqp =>
        subst hqp
        exact hfile hq
    · exact h.file_eq q hq

/-- A copy may be made of a version that is known. -/
theorem alloc (h : Inv s) {c : CachedPage} (hknown : s.Known c.page c.ver)
    (hflushed : c.flushedVersion ≤ c.dirtyVersion ∧
      c.ver + c.flushedVersion ≤ s.file c.page + c.dirtyVersion) : Inv (s.alloc c) := by
  have hold : ∀ x < s.nextArc, (s.alloc c).arcs x = s.arcs x := fun x hx =>
    Function.update_of_ne (Nat.ne_of_lt hx) _ _
  have hnew : (s.alloc c).arcs s.nextArc = c := Function.update_self _ _ _
  have hlater : Later s (s.alloc c) := by
    refine ⟨Nat.le_succ _, ?_, ?_, fun _ => Nat.le_refl _, fun _ => Nat.le_refl _, fun _ _ => rfl,
      fun _ => Nat.le_refl _⟩
    · intro x hx
      rw [hold x hx]
    · intro x hx
      rw [hold x hx]
  refine ⟨fun p e he => (h.entries p e he).later hlater rfl,
    fun p a ha => (h.latest p a ha).later hlater rfl, ?_, ?_, h.file_le, h.file_eq, ?_, h.toWrite,
    h.same, h.toMark, fun t => (h.threads t).later hlater h.file_le fun p hp => ⟨hp, rfl⟩⟩
  · intro x hx
    rcases Nat.lt_succ_iff_lt_or_eq.mp hx with hx | rfl
    · rw [hold x hx]
      exact (h.known x hx).later h hlater rfl rfl
    · rw [hnew]
      exact hknown.later h hlater rfl rfl
  · intro x hx
    rcases Nat.lt_succ_iff_lt_or_eq.mp hx with hx | rfl
    · rw [hold x hx]
      exact h.flushed x hx
    · rw [hnew]
      exact hflushed
  · intro d hd
    obtain ⟨hpage, hrest⟩ := h.captured d hd
    refine ⟨hpage.later hlater, ?_⟩
    rw [hold _ hpage.1]
    exact hrest

/-- A thread that holds no lock's page may go on to any state that is right. -/
theorem setThread [DecidableEq τ] (h : Inv s) {th : Thread} (hth : s.ThreadOk t th)
    (hfree : ∀ p a, s.threads t ≠ .holding p a) : Inv (s.setThread t th) := by
  have hknown : ∀ p v, s.Known p v → (s.setThread t th).Known p v := by
    rintro p v (hle | ⟨u, b, hlock, hu, hle⟩)
    · exact Or.inl hle
    · refine Or.inr ⟨u, b, hlock, ?_, hle⟩
      have hne : u ≠ t := fun heq => hfree p b (heq ▸ hu)
      exact (Function.update_of_ne hne _ _).trans hu
  refine ⟨h.entries, h.latest, fun a ha => hknown _ _ (h.known a ha), h.flushed, h.file_le,
    h.file_eq,
    h.captured, h.toWrite, h.same, h.toMark, ?_⟩
  intro u
  show s.ThreadOk u (Function.update s.threads t th u)
  by_cases hu : u = t
  · subst hu
    rw [Function.update_self]
    exact hth
  · rw [Function.update_of_ne hu]
    exact h.threads u

/-! ## `get_page` -/

/-- `install`, where the page is cached already or the copy is current: what is cached
then is. -/
theorem install (h : Inv s) (ha : (∃ b, s.entries p = some (.strong b)) ∨ s.Current p a) :
    Inv (s.install p a) ∧ (s.install p a).Current p (s.installed p a) := by
  unfold PageCache.install PageCache.installed
  split
  · next b hb =>
      exact ⟨h.setReferenced b true, (h.entries p _ hb).later (later_setReferenced b true) rfl⟩
  · next hnot =>
      have hcur : s.Current p a := by
        rcases ha with ⟨b, hb⟩ | ha
        · exact absurd hb (hnot b)
        · exact ha
      have hcur' : (s.markReferenced a).Current p a := hcur.later (later_setReferenced a true) rfl
      refine ⟨(h.setReferenced a true).setEntry ?_ ?_, hcur'⟩
      · intro e he
        cases he
        exact hcur'
      · intro hstrong
        exact absurd rfl (hstrong a)

/-- A call prunes the tombstone. -/
theorem prune [Fintype τ] (h : Inv s) (p : PageId) : Inv (s.prune p) := by
  unfold PageCache.prune
  split
  · next a ha =>
      split
      · exact h
      · refine h.setEntry (fun e he => nomatch he) fun _ => ?_
        exact h.file_eq p (by rw [ha]; exact fun _ => nofun)
  · exact h

theorem prune_frame [Fintype τ] (s : PageCache τ) (p : PageId) (th : Thread) :
    (s.prune p).ThreadOk t th = s.ThreadOk t th ∧ (s.prune p).threads = s.threads := by
  unfold PageCache.prune
  split
  · split
    · exact ⟨rfl, rfl⟩
    · constructor
      · cases th <;> rfl
      · rfl
  · exact ⟨rfl, rfl⟩

variable [DecidableEq τ]

theorem answer (h : Inv s) {c : Call} (hcall : s.CallOk t c) (hcur : s.Current c.page a)
    (hfree : ∀ p a, s.threads t ≠ .holding p a) : Inv (s.answer t c a) := by
  apply h.setThread _ hfree
  cases hw : c.forWrite with
  | true => exact ⟨hcall.2 hw, hcur⟩
  | false => exact ⟨hcur.1, Nat.le_trans hcall.1 hcur.2⟩

/-- `install` and return what is cached then. -/
theorem install_answer (h : Inv s) {c : Call} (hcall : s.CallOk t c)
    (ha : (∃ b, s.entries c.page = some (.strong b)) ∨ s.Current c.page a)
    (hfree : ∀ p a, s.threads t ≠ .holding p a) :
    Inv ((s.install c.page a).answer t c (s.installed c.page a)) := by
  obtain ⟨hinv, hcur⟩ := h.install ha
  obtain ⟨hthreads, hlocks, hpublished⟩ := install_frame s c.page a
  refine hinv.answer ?_ hcur ?_
  · rw [CallOk, hlocks, hpublished]
    exact hcall
  · rw [hthreads]
    exact hfree

/-- A call sees the entry. -/
theorem advance_looking (h : Inv s) {c : Call} (hth : s.threads t = .looking c) [Fintype τ] :
    Inv (s.advance t) := by
  have hcall : s.CallOk t c := by
    have hok := h.threads t
    rw [hth] at hok
    exact hok
  have hfree : ∀ p a, s.threads t ≠ .holding p a := by
    rw [hth]
    exact fun _ _ => nofun
  simp only [PageCache.advance, hth]
  split
  · next a ha =>
      have hcur := h.entries c.page _ ha
      exact (h.setReferenced a true).answer hcall
        (hcur.later (later_setReferenced a true) rfl) hfree
  · next a ha =>
      have hcur := h.entries c.page _ ha
      have hfile := h.file_eq c.page (by rw [ha]; exact fun _ => nofun)
      exact h.setThread ⟨hcall, ⟨Nat.le_refl _, fun _ => hfile⟩, hcur.1, hcur.2⟩ hfree
  · next hnone =>
      have hfile := h.file_eq c.page (by rw [hnone]; exact fun _ => nofun)
      exact h.setThread ⟨hcall, ⟨Nat.le_refl _, fun _ => hfile⟩⟩ hfree

variable [Fintype τ]

/-- The next step of a call.  A page that was upgraded is cached only if the cache has the
page, or if none newer was published than the call saw, or it is what was published. -/
theorem advance (h : Inv s)
    (hup : ∀ c a seen, s.threads t = .upgraded c a seen →
      (∃ b, s.entries c.page = some (.strong b)) ∨ s.published c.page = seen ∨
        s.latest c.page = some a) : Inv (s.advance t) := by
  have hok := h.threads t
  by_cases hfree : ∀ p a, s.threads t ≠ .holding p a
  swap
  · simp only [ne_eq, not_forall, Classical.not_not] at hfree
    obtain ⟨p, a, hth⟩ := hfree
    simp only [PageCache.advance, hth]
    exact h
  cases hth : s.threads t with
  | looking c => exact h.advance_looking hth
  | sawWeak c a epoch seen =>
    rw [hth] at hok
    obtain ⟨hcall, hepoch, hpage, hseen⟩ := hok
    simp only [PageCache.advance, hth]
    split
    · exact h.setThread ⟨hcall, hpage, hseen⟩ hfree
    · exact h.setThread ⟨hcall, hepoch⟩ hfree
  | upgraded c a seen =>
    rw [hth] at hok
    obtain ⟨hcall, hpage, hseen⟩ := hok
    simp only [PageCache.advance, hth]
    refine h.install_answer hcall ?_ hfree
    rcases hup c a seen hth with hstrong | hsame | hlatest
    · exact Or.inl hstrong
    · exact Or.inr ⟨hpage, by rw [hsame]; exact hseen⟩
    · exact Or.inr (h.latest c.page a hlatest)
  | pruning c epoch =>
    rw [hth] at hok
    obtain ⟨hframe, hthreads⟩ := prune_frame (t := t) s c.page (.reading c epoch)
    simp only [PageCache.advance, hth]
    refine (h.prune c.page).setThread ?_ (by rw [hthreads]; exact hfree)
    rw [hframe]
    exact hok
  | reading c epoch =>
    rw [hth] at hok
    obtain ⟨hcall, hle, hfile⟩ := hok
    simp only [PageCache.advance, hth]
    exact h.setThread ⟨hcall, Nat.le_refl _, hle, hfile⟩ hfree
  | loaded c ver epoch =>
    rw [hth] at hok
    obtain ⟨hcall, hread, hle, hver⟩ := hok
    simp only [PageCache.advance, hth]
    split
    · exact h.setThread hcall hfree
    · next heq =>
        have hsame := hver (Classical.not_not.mp heq)
        have hnew : (s.alloc ⟨c.page, ver, 0, 0, false⟩).arcs s.nextArc =
            ⟨c.page, ver, 0, 0, false⟩ := Function.update_self _ _ _
        have halloc : Inv (s.alloc ⟨c.page, ver, 0, 0, false⟩) :=
          h.alloc (Or.inl (Nat.le_of_eq hsame)) ⟨Nat.le_refl _, hread⟩
        refine halloc.install_answer hcall (Or.inr ⟨⟨Nat.lt_succ_self _, ?_⟩, ?_⟩) hfree
        · rw [hnew]
        · rw [hnew]
          exact Nat.le_of_eq hsame.symm
  | idle =>
    simp only [PageCache.advance, hth]
    exact h
  | returned c a =>
    simp only [PageCache.advance, hth]
    exact h
  | holding p a => exact absurd hth (hfree p a)

end Inv

/-! ## Writers -/

section Writers

theorem arcs_setArc (a : Nat) (c : CachedPage) (x : Nat) :
    (s.setArc a c).arcs x = if x = a then c else s.arcs x :=
  Function.update_apply s.arcs a c x

/-- A copy may be replaced by one of the same page that is not older. -/
theorem later_setArc {c : CachedPage} (hpage : c.page = (s.arcs a).page)
    (hver : (s.arcs a).ver ≤ c.ver) : Later s (s.setArc a c) := by
  refine ⟨Nat.le_refl _, ?_, ?_, fun _ => Nat.le_refl _, fun _ => Nat.le_refl _, fun _ _ => rfl,
    fun _ => Nat.le_refl _⟩
  · intro x _
    rw [arcs_setArc]
    split
    · next hx => rw [hx, hpage]
    · rfl
  · intro x _
    rw [arcs_setArc]
    split
    · next hx =>
        rw [hx]
        exact hver
    · exact Nat.le_refl _

namespace Inv

/-- A copy may be replaced by one whose version is known, and that the file and the
captured copies agree with. -/
theorem setArc (h : Inv s) {c : CachedPage} (hpage : c.page = (s.arcs a).page)
    (hver : (s.arcs a).ver ≤ c.ver) (hknown : (s.setArc a c).Known c.page c.ver)
    (hflushed : a < s.nextArc → c.flushedVersion ≤ c.dirtyVersion ∧
      c.ver + c.flushedVersion ≤ s.file c.page + c.dirtyVersion)
    (hdirty : c.ver + (s.arcs a).dirtyVersion = (s.arcs a).ver + c.dirtyVersion) :
    Inv (s.setArc a c) := by
  have hlater := later_setArc hpage hver
  refine ⟨fun p e he => (h.entries p e he).later hlater rfl,
    fun p a ha => (h.latest p a ha).later hlater rfl, ?_, ?_, h.file_le, h.file_eq, ?_, h.toWrite,
    h.same, h.toMark, fun t => (h.threads t).later hlater h.file_le fun p hp => ⟨hp, rfl⟩⟩
  · intro x hx
    rw [arcs_setArc]
    split
    · exact hknown
    · exact (h.known x hx).later h hlater rfl rfl
  · intro x hx
    rw [arcs_setArc]
    split
    · next hxa => exact hflushed (hxa ▸ hx)
    · exact h.flushed x hx
  · intro d hd
    obtain ⟨hisPage, hcopy, hage, hle⟩ := h.captured d hd
    refine ⟨hisPage.later hlater, hcopy, ?_⟩
    rw [arcs_setArc]
    split
    · next hda =>
        rw [hda] at hage hle
        omega
    · exact ⟨hage, hle⟩

theorem holding (h : Inv s) (hth : s.threads t = .holding p a) :
    s.locks p = some t ∧ s.Current p a := by
  have hok := h.threads t
  rw [hth] at hok
  exact hok

theorem mutate (h : Inv s) : Inv (s.mutate t) := by
  unfold PageCache.mutate
  split
  · next p a hth =>
      obtain ⟨hlock, ⟨hlt, hpage⟩, hcur⟩ := h.holding hth
      refine h.setArc rfl (Nat.le_succ _) (Or.inr ⟨t, a, ?_, ?_, ?_⟩) ?_ ?_
      · show s.locks (s.arcs a).page = some t
        rw [hpage]
        exact hlock
      · show s.threads t = .holding (s.arcs a).page a
        rw [hpage]
        exact hth
      · rw [arcs_setArc, if_pos rfl]
      · intro hlt
        obtain ⟨hfl, hfile⟩ := h.flushed a hlt
        dsimp only
        omega
      · dsimp only
        omega
  · exact h

/-- A version of a page that a thread has locked is no newer than the thread's copy. -/
theorem ver_le_holding (h : Inv s) (hth : s.threads t = .holding p a) {v : Nat}
    (hv : s.Known p v) : v ≤ (s.arcs a).ver := by
  obtain ⟨hlock, -, hcur⟩ := h.holding hth
  rcases hv with hle | ⟨u, b, hulock, hu, hle⟩
  · exact Nat.le_trans hle hcur
  · obtain rfl : t = u := Option.some.inj (hlock.symm.trans hulock)
    obtain ⟨-, rfl⟩ := Thread.holding.inj (hth.symm.trans hu)
    exact hle

/-- A version of another page than the one `t` has locked is known without `t`. -/
theorem known_of_ne {q : PageId} {v : Nat} (hth : s.threads t = .holding p a) (hq : q ≠ p)
    (hv : s.Known q v) (hlocks : s'.locks q = s.locks q) (hpub : s'.published q = s.published q)
    (hthreads : ∀ u, u ≠ t → s'.threads u = s.threads u)
    (hver : ∀ b, (s'.arcs b).ver = (s.arcs b).ver) : s'.Known q v := by
  rcases hv with hle | ⟨u, b, hulock, hu, hle⟩
  · exact Or.inl (by rw [hpub]; exact hle)
  · have hut : u ≠ t := by
      rintro rfl
      exact hq (Thread.holding.inj (hu.symm.trans hth)).1
    exact Or.inr ⟨u, b, by rw [hlocks]; exact hulock, by rw [hthreads u hut]; exact hu,
      by rw [hver]; exact hle⟩

variable [DecidableEq τ]

/-- The copy that `make_mut` makes takes the place of the one it was made of. -/
theorem makeMut (h : Inv s) : Inv (s.makeMut t) := by
  unfold PageCache.makeMut
  split
  · next p a hth =>
      obtain ⟨hlock, ⟨hlt, hpage⟩, hcur⟩ := h.holding hth
      have halloc : Inv (s.alloc (s.arcs a)) := h.alloc (h.known a hlt) (h.flushed a hlt)
      have hnew : (s.alloc (s.arcs a)).arcs s.nextArc = s.arcs a := Function.update_self _ _ _
      have hold : ∀ x < s.nextArc, (s.alloc (s.arcs a)).arcs x = s.arcs x := fun x hx =>
        Function.update_of_ne (Nat.ne_of_lt hx) _ _
      refine ⟨halloc.entries, halloc.latest, ?_, halloc.flushed, halloc.file_le, halloc.file_eq,
        halloc.captured, halloc.toWrite, halloc.same, halloc.toMark, ?_⟩
      · intro x hx
        rcases halloc.known x hx with hle | ⟨u, b, hulock, hu, hle⟩
        · exact Or.inl hle
        · right
          by_cases hut : u = t
          · -- the holder now has the new copy, of the same version
            subst hut
            have hsame : Thread.holding p a = .holding _ b := hth.symm.trans hu
            obtain ⟨hp, hb⟩ := Thread.holding.inj hsame
            refine ⟨u, s.nextArc, hulock, ?_, ?_⟩
            · show Function.update s.threads u _ u = _
              rw [Function.update_self]
              exact congrArg (Thread.holding · s.nextArc) hp
            · show _ ≤ ((s.alloc (s.arcs a)).arcs s.nextArc).ver
              rw [hnew]
              rw [← hb, hold a hlt] at hle
              exact hle
          · refine ⟨u, b, hulock, ?_, hle⟩
            show Function.update s.threads t _ u = _
            rw [Function.update_of_ne hut]
            exact hu
      · intro u
        show (s.alloc (s.arcs a)).ThreadOk u (Function.update s.threads t _ u)
        by_cases hut : u = t
        · subst hut
          rw [Function.update_self]
          refine ⟨hlock, ⟨Nat.lt_succ_self _, ?_⟩, ?_⟩
          · rw [hnew]
            exact hpage
          · rw [hnew]
            exact hcur
        · rw [Function.update_of_ne hut]
          exact halloc.threads u
  · exact h

theorem later_overwrite (hcur : s.published p ≤ (s.arcs a).ver) : Later s (s.overwrite t p a) := by
  have hpub : ∀ q, (s.overwrite t p a).published q =
      if q = p then (s.arcs a).ver else s.published q := Function.update_apply s.published p _
  have hepoch : ∀ q, (s.overwrite t p a).writeEpoch q =
      if shardIndex q = shardIndex p then s.writeEpoch p + 1 else s.writeEpoch q := by
    intro q
    simp only [writeEpoch, overwrite, Function.update_apply]
  have hsame : ∀ q, shardIndex q = shardIndex p → s.writeEpoch q = s.writeEpoch p := fun q hq =>
    congrArg s.writeEpochs hq
  have hflag := later_setReferenced (s := s) a true
  refine ⟨Nat.le_refl _, hflag.page, hflag.ver, ?_, ?_, ?_, fun _ => Nat.le_refl _⟩
  · intro q
    rw [hpub]
    split
    · next hq =>
        rw [hq]
        exact hcur
    · exact Nat.le_refl _
  · intro q
    rw [hepoch]
    split
    · next hq =>
        rw [hsame q hq]
        exact Nat.le_succ _
    · exact Nat.le_refl _
  · intro q hq
    rw [hepoch] at hq
    split at hq
    · next hshard =>
        rw [hsame q hshard] at hq
        omega
    · next hshard =>
        rw [hpub, if_neg fun heq => hshard (congrArg shardIndex heq)]

theorem publish (h : Inv s) : Inv (s.publish t) := by
  unfold PageCache.publish
  split
  swap
  · exact h
  next p a hth =>
  obtain ⟨hlock, hisPage, hcur⟩ := h.holding hth
  have hlater : Later s (s.overwrite t p a) := later_overwrite hcur
  have harc : ∀ x, (s.overwrite t p a).arcs x =
      { s.arcs x with referenced := if x = a then true else (s.arcs x).referenced } :=
    arcs_setReferenced a true
  have hpub : ∀ q, (s.overwrite t p a).published q =
      if q = p then (s.arcs a).ver else s.published q := Function.update_apply s.published p _
  have hself : (s.overwrite t p a).Current p a := by
    refine ⟨hisPage.later hlater, ?_⟩
    rw [hpub, if_pos rfl, harc]
  -- another page's copies are as current as they were
  have hother : ∀ q x, q ≠ p → s.Current q x → (s.overwrite t p a).Current q x := by
    intro q x hq hx
    exact hx.later hlater (by rw [hpub, if_neg hq])
  have hentry : ∀ q, (s.overwrite t p a).entries q =
      if q = p then some (.strong a) else s.entries q := Function.update_apply s.entries p _
  have hlatest : ∀ q, (s.overwrite t p a).latest q = if q = p then some a else s.latest q :=
    Function.update_apply s.latest p _
  have hfile : ∀ q, (s.overwrite t p a).file q ≤ (s.overwrite t p a).published q := fun q =>
    Nat.le_trans (h.file_le q) (hlater.published q)
  refine ⟨?_, ?_, ?_, ?_, hfile, ?_, ?_, h.toWrite, h.same, h.toMark, ?_⟩
  · intro q e he
    rw [hentry] at he
    split at he
    · next hq =>
        cases he
        rw [hq]
        exact hself
    · next hq => exact hother q _ hq (h.entries q e he)
  · intro q x hx
    rw [hlatest] at hx
    split at hx
    · next hq =>
        cases hx
        rw [hq]
        exact hself
    · next hq => exact hother q x hq (h.latest q x hx)
  · intro x hx
    rw [harc]
    by_cases hq : (s.arcs x).page = p
    · have hknown := h.known x hx
      rw [hq] at hknown
      refine Or.inl ?_
      dsimp only
      rw [hq, hpub, if_pos rfl]
      exact h.ver_le_holding hth hknown
    · refine known_of_ne hth hq (h.known x hx) ?_ ?_ ?_ ?_
      · exact Function.update_of_ne hq _ _
      · rw [hpub, if_neg hq]
      · exact fun u hu => Function.update_of_ne hu _ _
      · intro b
        rw [harc]
  · intro x hx
    rw [harc]
    exact h.flushed x hx
  · intro q hq
    simp only [hentry] at hq
    split at hq
    · exact absurd rfl (hq a)
    · next hne =>
        rw [hpub, if_neg hne]
        exact h.file_eq q hq
  · intro c hc
    obtain ⟨hpage, hcopy, hrest⟩ := h.captured c hc
    refine ⟨hpage.later hlater, Nat.le_trans hcopy (hlater.published c.page), ?_⟩
    rw [harc]
    exact hrest
  · intro u
    show (s.overwrite t p a).ThreadOk u (Function.update s.threads t .idle u)
    by_cases hu : u = t
    · rw [hu, Function.update_self]
      trivial
    · rw [Function.update_of_ne hu]
      refine (h.threads u).later hlater hfile ?_
      intro q hq
      have hne : q ≠ p := by
        rintro rfl
        exact hu (Option.some.inj (hq.symm.trans hlock))
      exact ⟨(Function.update_of_ne hne _ _).trans hq, by rw [hpub, if_neg hne]⟩

theorem giveBack (h : Inv s) : Inv (s.giveBack t) := by
  unfold PageCache.giveBack
  split
  swap
  · exact h
  next p a hth =>
  split
  swap
  · exact h
  next hsame =>
  obtain ⟨hlock, -⟩ := h.holding hth
  refine ⟨h.entries, h.latest, ?_, h.flushed, h.file_le, h.file_eq, h.captured, h.toWrite, h.same,
    h.toMark, ?_⟩
  · intro x hx
    by_cases hq : (s.arcs x).page = p
    · have hknown := h.known x hx
      rw [hq] at hknown
      refine Or.inl ?_
      show (s.arcs x).ver ≤ s.published (s.arcs x).page
      rw [hq, ← hsame]
      exact h.ver_le_holding hth hknown
    · exact known_of_ne hth hq (h.known x hx) (Function.update_of_ne hq _ _) rfl
        (fun u hu => Function.update_of_ne hu _ _) fun _ => rfl
  · intro u
    show ThreadOk _ u (Function.update s.threads t .idle u)
    by_cases hu : u = t
    · rw [hu, Function.update_self]
      trivial
    · rw [Function.update_of_ne hu]
      refine (h.threads u).later ⟨Nat.le_refl _, fun _ _ => rfl, fun _ _ => Nat.le_refl _,
        fun _ => Nat.le_refl _, fun _ => Nat.le_refl _, fun _ _ => rfl, fun _ => Nat.le_refl _⟩
        h.file_le ?_
      intro q hq
      have hne : q ≠ p := by
        rintro rfl
        exact hu (Option.some.inj (hq.symm.trans hlock))
      exact ⟨(Function.update_of_ne hne _ _).trans hq, rfl⟩

theorem getPageMut (h : Inv s) (hth : s.threads t = .idle) (hlock : s.locks p = none) :
    Inv { s.setThread t (.looking ⟨p, true, s.published p⟩) with
      locks := Function.update s.locks p (some t) } := by
  have hne : ∀ q u, s.locks q = some u → q ≠ p := by
    rintro q u hq rfl
    rw [hlock] at hq
    cases hq
  refine ⟨h.entries, h.latest, ?_, h.flushed, h.file_le, h.file_eq, h.captured, h.toWrite, h.same,
    h.toMark, ?_⟩
  · intro x hx
    rcases h.known x hx with hle | ⟨u, b, hulock, hu, hle⟩
    · exact Or.inl hle
    · refine Or.inr ⟨u, b, (Function.update_of_ne (hne _ u hulock) _ _).trans hulock, ?_, hle⟩
      refine (Function.update_of_ne ?_ _ _).trans hu
      rintro rfl
      rw [hth] at hu
      cases hu
  · intro u
    show ThreadOk _ u (Function.update s.threads t _ u)
    by_cases hu : u = t
    · rw [hu, Function.update_self]
      exact ⟨Nat.le_refl _, fun _ => Function.update_self _ _ _⟩
    · rw [Function.update_of_ne hu]
      refine (h.threads u).later ⟨Nat.le_refl _, fun _ _ => rfl, fun _ _ => Nat.le_refl _,
        fun _ => Nat.le_refl _, fun _ => Nat.le_refl _, fun _ _ => rfl, fun _ => Nat.le_refl _⟩
        h.file_le ?_
      intro q hq
      exact ⟨(Function.update_of_ne (hne q u hq) _ _).trans hq, rfl⟩

end Inv

end Writers

/-! ## Eviction and checkpoints -/

namespace Inv

/-- A clean page that is cached is in the file as it was published. -/
theorem clean (h : Inv s) (he : s.entries p = some (.strong a))
    (hclean : (s.arcs a).isDirty = false) : s.file p = s.published p := by
  obtain ⟨⟨hlt, hpage⟩, hcur⟩ := h.entries p _ he
  obtain ⟨-, hfile⟩ := h.flushed a hlt
  have hle := h.file_le p
  have hsame : (s.arcs a).dirtyVersion = (s.arcs a).flushedVersion := by
    simpa [CachedPage.isDirty] using hclean
  dsimp only [PageEntry.arc] at hlt hpage hcur
  rw [hpage] at hfile
  omega

theorem evictOne (h : Inv s) : Inv (s.evictOne p) := by
  unfold PageCache.evictOne
  split
  swap
  · exact h
  next a ha =>
  split
  · exact h.setReferenced a false
  · split
    · exact h
    · next hclean =>
        refine h.setEntry ?_ fun _ => h.clean ha (by simpa using hclean)
        intro e he
        cases he
        exact h.entries p (.strong a) ha

theorem mem_captured {c : CapturedPage} {pages : List PageId}
    (hc : c ∈ pages.filterMap s.capturedPage) :
    s.entries c.page = some (.strong c.live) ∧ c.copy = (s.arcs c.live).ver ∧
      c.version = (s.arcs c.live).dirtyVersion := by
  obtain ⟨q, -, hq⟩ := List.mem_filterMap.mp hc
  unfold capturedPage at hq
  split at hq
  · next a ha =>
      split at hq
      · cases hq
        exact ⟨ha, rfl, rfl⟩
      · cases hq
  · cases hq

theorem captureDirtyPages [Fintype τ] (h : Inv s) (pages : List PageId) :
    Inv (s.captureDirtyPages pages) := by
  unfold PageCache.captureDirtyPages
  split
  swap
  · exact h
  next hidle =>
  obtain ⟨hwriting, -, hmark⟩ := hidle
  -- with no writer at work every copy's version is published
  have hpublished : ∀ x < s.nextArc, (s.arcs x).ver ≤ s.published (s.arcs x).page := by
    intro x hx
    rcases h.known x hx with hle | ⟨u, b, -, hu, -⟩
    · exact hle
    · have hnot := hwriting u
      rw [hu] at hnot
      cases hnot
  refine ⟨h.entries, h.latest, h.known, h.flushed, h.file_le, h.file_eq, ?_, ?_, ?_, h.toMark,
    h.threads⟩
  · intro c hc
    dsimp only at hc
    rw [hmark, List.append_nil] at hc
    obtain ⟨he, hcopy, hversion⟩ := mem_captured hc
    obtain ⟨hpage, -⟩ := h.entries _ _ he
    have hle := hpublished _ hpage.1
    dsimp only [PageEntry.arc] at hpage hle
    rw [hpage.2] at hle
    refine ⟨hpage, ?_, ?_, Nat.le_of_eq hversion⟩
    · rw [hcopy]
      exact hle
    · show (s.arcs c.live).ver + c.version = c.copy + (s.arcs c.live).dirtyVersion
      rw [hcopy, hversion]
  · intro c hc
    obtain ⟨he, hcopy, -⟩ := mem_captured hc
    rw [hcopy]
    exact Nat.le_trans (h.file_le _) (h.entries _ _ he).2
  · intro c hc d hd hpage
    obtain ⟨he, hcopy, -⟩ := mem_captured hc
    obtain ⟨he', hcopy', -⟩ := mem_captured hd
    rw [hpage, he'] at he
    have hlive : d.live = c.live := PageEntry.strong.inj (Option.some.inj he)
    rw [hcopy, hcopy', hlive]

theorem writeCaptured (h : Inv s) : Inv s.writeCaptured := by
  unfold PageCache.writeCaptured
  split
  · exact h
  next c rest hlist =>
  have hmem : c ∈ s.toWrite := by
    rw [hlist]
    exact List.mem_cons_self
  have hrest : ∀ d ∈ rest, d ∈ s.toWrite := by
    intro d hd
    rw [hlist]
    exact List.mem_cons_of_mem c hd
  have hcopy := (h.captured c (List.mem_append_left _ hmem)).2.1
  have hgrows := h.toWrite c hmem
  have hfile : ∀ q, Function.update s.file c.page c.copy q = if q = c.page then c.copy else
    s.file q :=
    Function.update_apply s.file c.page c.copy
  have hmono : ∀ q, s.file q ≤ Function.update s.file c.page c.copy q := by
    intro q
    rw [hfile]
    split
    · next hq =>
        rw [hq]
        exact hgrows
    · exact Nat.le_refl _
  have hle : ∀ q, Function.update s.file c.page c.copy q ≤ s.published q := by
    intro q
    rw [hfile]
    split
    · next hq =>
        rw [hq]
        exact hcopy
    · exact h.file_le q
  refine ⟨h.entries, h.latest, h.known, ?_, hle, ?_, ?_, ?_, ?_, ?_, ?_⟩
  · intro x hx
    obtain ⟨hfl, hage⟩ := h.flushed x hx
    exact ⟨hfl, Nat.le_trans hage (Nat.add_le_add_right (hmono _) _)⟩
  · intro q hq
    have heq := h.file_eq q hq
    exact Nat.le_antisymm (hle q) (heq ▸ hmono q)
  · intro d hd
    apply h.captured d
    rw [hlist]
    simp only [List.mem_append, List.mem_cons] at hd ⊢
    tauto
  · intro d hd
    show Function.update s.file c.page c.copy d.page ≤ d.copy
    rw [hfile]
    split
    · next hq => exact Nat.le_of_eq (h.same c hmem d (hrest d hd) hq.symm)
    · exact h.toWrite d (hrest d hd)
  · exact fun d hd e he => h.same d (hrest d hd) e (hrest e he)
  · intro d hd
    show d.copy ≤ Function.update s.file c.page c.copy d.page
    rcases List.mem_append.mp hd with hd | hd
    · exact Nat.le_trans (h.toMark d hd) (hmono _)
    · rw [List.mem_singleton.mp hd, Function.update_self]
  · intro u
    exact (h.threads u).later ⟨Nat.le_refl _, fun _ _ => rfl, fun _ _ => Nat.le_refl _,
      fun _ => Nat.le_refl _, fun _ => Nat.le_refl _, fun _ _ => rfl, hmono⟩ hle
      fun q hq => ⟨hq, rfl⟩

theorem markFlushed (h : Inv s) : Inv s.markFlushed := by
  unfold PageCache.markFlushed
  split
  swap
  · exact h
  next c rest hwrite hmark =>
  have hmem : c ∈ s.toMark := by
    rw [hmark]
    exact List.mem_cons_self
  have hrest : ∀ d ∈ rest, d ∈ s.toMark := by
    intro d hd
    rw [hmark]
    exact List.mem_cons_of_mem c hd
  obtain ⟨⟨hlt, hpage⟩, hcopy, hage, hversion⟩ := h.captured c (List.mem_append_right _ hmem)
  have hwritten := h.toMark c hmem
  have hinv : Inv (s.setArc c.live { s.arcs c.live with
      flushedVersion := max (s.arcs c.live).flushedVersion c.version }) := by
    refine h.setArc rfl (Nat.le_refl _) ?_ ?_ rfl
    · exact (h.known _ hlt).later h (later_setArc rfl (Nat.le_refl _)) rfl rfl
    · intro _
      obtain ⟨hfl, hfile⟩ := h.flushed _ hlt
      dsimp only
      rw [hpage] at hfile ⊢
      omega
  refine ⟨hinv.entries, hinv.latest, hinv.known, hinv.flushed, hinv.file_le, hinv.file_eq, ?_,
    hinv.toWrite, hinv.same, fun d hd => hinv.toMark d (hrest d hd), hinv.threads⟩
  intro d hd
  apply hinv.captured d
  rcases List.mem_append.mp hd with hd | hd
  · exact List.mem_append_left _ hd
  · exact List.mem_append_right _ (hrest d hd)

theorem checkpointFails (h : Inv s) : Inv { s with toWrite := [], toMark := [] } := by
  refine ⟨h.entries, h.latest, h.known, h.flushed, h.file_le, h.file_eq, ?_, ?_, ?_, ?_, h.threads⟩
  · intro c hc
    cases hc
  · intro c hc
    cases hc
  · intro c hc
    cases hc
  · intro c hc
    cases hc

end Inv

/-! ## Every run -/

/-- The cache holds the page. -/
def cached (s : PageCache τ) (p : PageId) : Bool :=
  match s.entries p with
  | some (.strong _) => true
  | _ => false

theorem exists_strong_of_cached (h : s.cached p = true) : ∃ b, s.entries p = some (.strong b) := by
  unfold cached at h
  split at h
  · next b hb => exact ⟨b, hb⟩
  · cases h

/-- A reader that comes to cache a page it upgraded finds the page in the cache, or no
version newer than it saw the entry with was published, or it has the page that was
published last. -/
def InTime (s : PageCache τ) : Thread → Prop
  | .upgraded c a seen =>
    s.cached c.page = true ∨ s.published c.page = seen ∨ s.latest c.page = some a
  | _ => True

instance (s : PageCache τ) : (th : Thread) → Decidable (s.InTime th)
  | .upgraded _ _ _ => inferInstanceAs (Decidable (_ ∨ _ ∨ _))
  | .idle | .looking _ | .sawWeak _ _ _ _ | .pruning _ _ | .reading _ _ | .loaded _ _ _
  | .returned _ _ | .holding _ _ => .isTrue trivial

def Meets (s : PageCache τ) : CacheAction τ → Prop
  | .advance t => s.InTime (s.threads t)
  | _ => True

instance (s : PageCache τ) : (action : CacheAction τ) → Decidable (s.Meets action)
  | .advance t => inferInstanceAs (Decidable (s.InTime (s.threads t)))
  | .getPage _ _ | .getPageMut _ _ | .mutate _ | .makeMut _ | .publish _ | .giveBack _
  | .release _ | .evictOne _ | .captureDirtyPages _ | .writeCaptured | .markFlushed
  | .checkpointFails => .isTrue trivial

theorem inv_init : Inv (init : PageCache τ) where
  entries _ _ he := nomatch he
  latest _ _ ha := nomatch ha
  known _ ha := absurd ha (Nat.not_lt_zero _)
  flushed _ ha := absurd ha (Nat.not_lt_zero _)
  file_le _ := Nat.le_refl _
  file_eq _ _ := rfl
  captured _ hc := nomatch hc
  toWrite _ hc := nomatch hc
  same _ hc := nomatch hc
  toMark _ hc := nomatch hc
  threads _ := trivial

variable [DecidableEq τ] [Fintype τ]

/-- One step. -/
theorem Inv.step (h : Inv s) {action : CacheAction τ} (hmeets : s.Meets action) :
    Inv (s.step action) := by
  cases action with
  | getPage t p =>
    simp only [PageCache.step]
    split
    · next hth =>
        exact h.setThread ⟨Nat.le_refl _, fun hw => nomatch hw⟩
          (by rw [hth]; exact fun _ _ => nofun)
    · exact h
  | getPageMut t p =>
    simp only [PageCache.step]
    split
    · next hidle => exact h.getPageMut hidle.1 hidle.2
    · exact h
  | advance t =>
    apply h.advance
    intro c a seen hth
    simp only [Meets, hth, InTime] at hmeets
    exact hmeets.imp_left exists_strong_of_cached
  | mutate t => exact h.mutate
  | makeMut t => exact h.makeMut
  | publish t => exact h.publish
  | giveBack t => exact h.giveBack
  | release t =>
    simp only [PageCache.step]
    split
    · next c a hth => exact h.setThread trivial (by rw [hth]; exact fun _ _ => nofun)
    · exact h
  | evictOne p => exact h.evictOne
  | captureDirtyPages pages => exact h.captureDirtyPages pages
  | writeCaptured => exact h.writeCaptured
  | markFlushed => exact h.markFlushed
  | checkpointFails => exact h.checkpointFails

/-- The cache has the version published last, or that with the change its writer is
making; and a call that has returned has the version that was published last when it was
made, or a later one. -/
structure Coherent (s : PageCache τ) : Prop where
  cached : ∀ p a, s.entries p = some (.strong a) → (s.arcs a).page = p ∧
    s.published p ≤ (s.arcs a).ver ∧ (s.locks p = none → (s.arcs a).ver = s.published p)
  returned : ∀ t c a, s.threads t = .returned c a → c.since ≤ (s.arcs a).ver
  holding : ∀ t p a, s.threads t = .holding p a → s.published p ≤ (s.arcs a).ver

omit [DecidableEq τ] [Fintype τ] in
theorem Inv.coherent (h : Inv s) : Coherent s where
  cached p a ha := by
    obtain ⟨⟨hlt, hpage⟩, hcur⟩ := h.entries p _ ha
    refine ⟨hpage, hcur, fun hfree => ?_⟩
    rcases h.known _ hlt with hle | ⟨u, b, hlock, -⟩
    · rw [hpage] at hle
      exact Nat.le_antisymm hle hcur
    · rw [hpage, hfree] at hlock
      cases hlock
  returned t c a hth := by
    have hok := h.threads t
    rw [hth] at hok
    exact hok.2
  holding t p a hth := (h.holding hth).2.2

/-- Every run in which no reader caches a page it upgraded before another version of it
was published. -/
theorem coherent_of_run {actions : List (CacheAction τ)}
    (hmeets : Allowed PageCache.step Meets init actions) :
    Coherent (run PageCache.step (init : PageCache τ) actions) :=
  (Reachable.invariant (I := Inv) inv_init (fun _ _ h hok => h.step hok)
    (reachable_run actions hmeets)).coherent

/-- A reader keeps page 7, which is evicted and changed by a writer in place. -/
def upgradeInTime : List (CacheAction (Fin 2)) :=
  [.getPage 0 7, .advance 0, .advance 0, .advance 0, .evictOne 7, .evictOne 7,
    .getPageMut 1 7, .advance 1, .advance 1, .advance 1, .mutate 1, .publish 1]

theorem coherent_of_run_upgradeInTime :
    Coherent (run PageCache.step (init : PageCache (Fin 2)) upgradeInTime) :=
  coherent_of_run (by decide +kernel)

/-- A second reader upgrades the evicted page; a writer publishes another copy of it,
which a checkpoint writes and the sweep evicts; then the reader caches the page it has,
and a third call is given it. -/
def upgradeTooLate : List (CacheAction (Fin 3)) :=
  [.getPage 0 7, .advance 0, .advance 0, .advance 0, .evictOne 7, .evictOne 7,
    .getPage 1 7, .advance 1, .advance 1,
    .getPageMut 2 7, .advance 2, .advance 2, .advance 2, .makeMut 2, .mutate 2, .publish 2,
    .captureDirtyPages [7], .writeCaptured, .markFlushed, .evictOne 7, .evictOne 7,
    .advance 1, .getPage 2 7, .advance 2]

/-- The old version is in the cache, and is what a call made after the publication gets. -/
theorem old_version_returns :
    let s := run PageCache.step (init : PageCache (Fin 3)) upgradeTooLate
    (∃ a, s.entries 7 = some (.strong a) ∧ (s.arcs a).ver = 0) ∧ s.published 7 = 1 ∧
      (∃ c a, s.threads 2 = .returned c a ∧ c.since = 1 ∧ (s.arcs a).ver = 0) ∧ ¬ Coherent s := by
  intro s
  have hentry : s.entries 7 = some (.strong 0) := by decide +kernel
  have hver : (s.arcs 0).ver = 0 := by decide +kernel
  have hpublished : s.published 7 = 1 := by decide +kernel
  refine ⟨⟨0, hentry, hver⟩, hpublished, ⟨⟨7, false, 1⟩, 0, by decide +kernel, rfl, hver⟩, ?_⟩
  intro h
  have hle := (h.cached 7 0 hentry).2.1
  rw [hver, hpublished] at hle
  exact absurd hle (by decide)

end PageCache

end SquealDb.Cache
