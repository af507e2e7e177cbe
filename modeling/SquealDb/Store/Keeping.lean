import SquealDb.Store.Server

/-!
# What the committed rows keep

A property of rows that every statement keeps once it has succeeded, from the rows it began with,
and that passes from what a transaction sees to what it commits, holds of the committed rows in
every run in which no transaction is committed that a statement failed in after it had written.
-/

namespace SquealDb.Store

open Lib

/-- An event of the same kind, with its statement changed. -/
def Event.map {κ δ σ τ : Type} (f : σ → τ) : Event κ δ σ → Event κ δ τ
  | .begin => .begin
  | .start txn statement => .start txn (f statement)
  | .autocommit statement => .autocommit (f statement)
  | .call txn rows failsAfter => .call txn rows failsAfter
  | .commit txn => .commit txn
  | .rollback txn failsAfter => .rollback txn failsAfter
  | .maintain upkeep => .maintain upkeep

/-- The statements that meet a condition. -/
def Language.only {κ δ ν ε σ : Type} (lang : Language κ δ ν ε σ) (P : σ → Prop) :
    Language κ δ ν ε {st // P st} where
  calls := fun st => lang.calls st.1
  ofStore := lang.ofStore
  missingKey := lang.missingKey

namespace Server

variable {κ δ ν ε σ : Type} [DecidableEq κ] [DecidableEq ν]

/-- A property that statements keep and commits pass on. -/
structure Keeps (lang : Language κ δ ν ε σ) (C : (κ → Option δ) → Prop) : Prop where
  statement : ∀ st m, C m → (lang.calls st).Ensures (fun _ => C) m
  commit : ∀ writes seen current, C seen → C (overlay writes seen) → C current →
    (∀ key, writes key ≠ none → current key = seen key) → C (overlay writes current)

theorem step_only (lang : Language κ δ ν ε σ) (P : σ → Prop) (s : Server κ δ ν ε)
    (e : Event κ δ {st // P st}) :
    s.step (lang.only P) e = s.step lang (Event.map Subtype.val e) := by
  cases e with
  | _ => rfl

/-- No transaction is committed that a statement failed in once it had written. A statement that
selects rows is given rows its transaction sees, each once. -/
def CommitsWhole (s : Server κ δ ν ε) : Event κ δ σ → Prop
  | .commit txn => (s.sessions txn).all (fun session => !session.spoiled) = true
  | .call txn rows _ =>
    ∀ session ∈ s.sessions txn, ∀ script ∈ session.running,
      script.Answered (s.db.view txn) rows
  | _ => True

instance [DecidableEq δ] (s : Server κ δ ν ε) : DecidablePred (s.CommitsWhole : Event κ δ σ → Prop)
  | .commit _ => instDecidableEqBool _ _
  | .call txn rows _ =>
    inferInstanceAs (Decidable (∀ session ∈ s.sessions txn, ∀ script ∈ session.running,
      script.Answered (s.db.view txn) rows))
  | .start _ _ => .isTrue trivial
  | .begin => .isTrue trivial
  | .autocommit _ => .isTrue trivial
  | .rollback _ _ => .isTrue trivial
  | .maintain _ => .isTrue trivial

variable {lang : Language κ δ ν ε σ} {s : Server κ δ ν ε} {txn : Nat} {db : Db κ δ}
  {session : Session κ δ ν ε}

/-- What a call leaves of a promise. -/
theorem call_ensures (h : DbInv s.db)
    (ht : s.db.txMgr.states txn = some (.active .continueOnConflict)) {rows : List (κ × δ)}
    {script : Script κ δ ν ε PUnit} {post : PUnit → (κ → Option δ) → Prop}
    (hens : script.Ensures post (s.db.view txn)) (hrows : script.Answered (s.db.view txn) rows) :
    (s.call lang txn rows script).rest.Ensures post
    ((s.call lang txn rows script).db.view txn) := by
  have hspec := Server.call_spec lang h ht rows script
  cases script with
  | done r => exact hens
  | find key next =>
    obtain ⟨row, hfind, hview⟩ := Db.find_view h ht key
    simp only [Server.call, hfind]
    have hsome : row.isSome = (s.db.view txn key).isSome := by
      rw [← hview, Option.isSome_map]
    rw [hsome]
    exact hens
  | insert key data next =>
    have hview := Db.insert_view h ht ⟨key, data, none, none, false⟩
    have hseen := hspec.seen
    simp only [Server.call] at hseen ⊢
    split at hseen
    · next db' u heq =>
        rw [heq] at hview
        rcases hview with ⟨e, he, -⟩ | ⟨-, hnone, hown⟩
        · cases he
        · have hafter : db'.view txn = Function.update (s.db.view txn) key (some data) := by
            rw [Db.view, hown, hseen, overlay_update]
            rfl
          dsimp only
          rw [hafter]
          exact hens hnone
    · trivial
  | update key data next =>
    have hview := Db.update_view h ht ⟨key, data, none, none, false⟩
    have hseen := hspec.seen
    simp only [Server.call] at hseen ⊢
    split at hseen
    · next db' u heq =>
        rw [heq] at hview
        rcases hview with ⟨e, he, -⟩ | ⟨-, hsome, hown⟩
        · cases he
        · have hafter : db'.view txn = Function.update (s.db.view txn) key (some data) := by
            rw [Db.view, hown, hseen, overlay_update]
            rfl
          dsimp only
          rw [hafter]
          exact hens hsome
    · trivial
  | remove key next =>
    have hview := Db.remove_view h ht key
    have hseen := hspec.seen
    simp only [Server.call] at hseen ⊢
    split at hseen
    · next db' old heq =>
        rw [heq] at hview
        rcases hview with ⟨e, he, -⟩ | ⟨-, hsome, hown⟩
        · cases he
        · have hafter : db'.view txn = Function.update (s.db.view txn) key none := by
            rw [Db.view, hown, hseen, overlay_update]
            rfl
          dsimp only
          rw [hafter]
          exact hens hsome
    · trivial
  | genKey name next =>
    simp only [Server.call]
    split
    · exact hens _
    · trivial
  | select on next => exact hens rows hrows

/-- What holds of a transaction that a connection has open. -/
structure Whole (C : (κ → Option δ) → Prop) (db : Db κ δ) (t : Nat) (session : Session κ δ ν ε) :
    Prop where
  active : db.txMgr.states t = some (.active .continueOnConflict)
  begun : C (db.seenRow t)
  whole : session.spoiled = false → session.running = none ∨ session.wrote = false → C (db.view t)
  under : session.spoiled = false → ∀ script, session.running = some script →
    script.Ensures (fun _ => C) (db.view t)
  own : session.explicit = false → session.spoiled = false

structure KeepsInv (C : (κ → Option δ) → Prop) (s : Server κ δ ν ε) : Prop where
  db : DbInv s.db
  committed : C s.db.committedRow
  sessions : ∀ t session, s.sessions t = some session → Whole C s.db t session

variable {C : (κ → Option δ) → Prop}

omit [DecidableEq ν] in
theorem Whole.frame {db' : Db κ δ} {t : Nat} (h : Whole C db t session) (hu : Untouched db db' t) :
    Whole C db' t session where
  active := hu.active
  begun := hu.seen ▸ h.begun
  whole hs hr := hu.view ▸ h.whole hs hr
  under hs script hr := hu.view ▸ h.under hs script hr
  own := h.own

omit [DecidableEq ν] in
/-- One transaction's session changes, and the store as far as others go on. -/
theorem KeepsInv.update (h : KeepsInv C s) {sequences : ν → Option UInt64}
    {session : Option (Session κ δ ν ε)} (hdb : DbInv db) (hcommitted : C db.committedRow)
    (hothers : ∀ t, t ≠ txn → s.db.txMgr.states t = some (.active .continueOnConflict) →
      Untouched s.db db t) (hsession : ∀ ss, session = some ss → Whole C db txn ss) :
    KeepsInv C ⟨db, sequences, Function.update s.sessions txn session⟩ where
  db := hdb
  committed := hcommitted
  sessions := by
    intro t ss ht
    by_cases htxn : t = txn
    · subst htxn
      have hnew : Function.update s.sessions t session t = some ss := ht
      rw [Function.update_self] at hnew
      exact hsession ss hnew
    · have hkept : Function.update s.sessions txn session t = some ss := ht
      rw [Function.update_of_ne htxn] at hkept
      have hold := h.sessions t ss hkept
      exact hold.frame (hothers t htxn hold.active)

omit [DecidableEq ν] in
theorem KeepsInv.ended (h : KeepsInv C s) {a : Action κ δ} (hw : a.writer = none)
    (he : a.ends = some txn) (hcommitted : C (s.db.step a).committedRow) :
    KeepsInv C ⟨s.db.step a, s.sequences, Function.update s.sessions txn none⟩ := by
  refine h.update (Db.inv_step _ a h.db) hcommitted ?_ nofun
  intro t hne ht
  refine untouched_step h.db a ht ?_ ?_
  · rw [hw]
    exact nofun
  · rw [he]
    exact fun heq => hne (Option.some.inj heq).symm

omit [DecidableEq ν] in
theorem KeepsInv.aborted (h : KeepsInv C s) (txn : Nat) (failsAfter : Option Nat) :
    KeepsInv C ⟨s.db.abort txn failsAfter, s.sequences, Function.update s.sessions txn none⟩ := by
  refine h.ended (a := .abort txn failsAfter) rfl rfl ?_
  rw [Tracked.aborted_committedRow h.db]
  exact h.committed

omit [DecidableEq ν] in
/-- A transaction that sees what has the property commits it. -/
theorem KeepsInv.committing (hkeeps : Keeps lang C) (h : KeepsInv C s)
    (hs : s.sessions txn = some session) (hview : C (s.db.view txn)) :
    KeepsInv C ⟨(s.db.commit txn).1, s.sequences, Function.update s.sessions txn none⟩ := by
  have hwhole := h.sessions txn session hs
  refine h.ended (a := .commit txn) rfl rfl ?_
  show C (s.db.commit txn).1.committedRow
  rw [Db.commit_committedRow h.db hwhole.active]
  exact hkeeps.commit _ _ _ hwhole.begun hview h.committed fun key hkey =>
    Db.committedRow_eq_seenRow h.db hwhole.active hkey

omit [DecidableEq ν] in
theorem KeepsInv.opened (h : KeepsInv C s) (hspoiled : session.spoiled = false)
    (hscript : ∀ script, session.running = some script →
      script.Ensures (fun _ => C) s.db.committedRow) : KeepsInv C (s.opened session) := by
  obtain ⟨hseen, hown⟩ := Db.begin_view h.db .continueOnConflict
  have hview : (s.db.begin .continueOnConflict).1.view (s.db.begin .continueOnConflict).2 =
      s.db.committedRow := by
    rw [Db.view, hseen, hown, overlay_none]
  have hsame : (s.db.step (.begin .continueOnConflict)).committedRow = s.db.committedRow :=
    funext fun key => Db.committedRow_step h.db (.begin .continueOnConflict) (fun _ => nofun) key
  refine h.update (Db.inv_step s.db (.begin .continueOnConflict) h.db) ?_ ?_ ?_
  · show C (s.db.step (.begin .continueOnConflict)).committedRow
    rw [hsame]
    exact h.committed
  · intro t _ ht
    exact untouched_step h.db (.begin .continueOnConflict) ht nofun nofun
  · intro ss hss
    obtain rfl := Option.some.inj hss
    refine ⟨by simp [Db.begin, TransactionManager.createTransaction], ?_, ?_, ?_,
      fun _ => hspoiled⟩
    · show C ((s.db.begin .continueOnConflict).1.seenRow _)
      rw [hseen]
      exact h.committed
    · intro _ _
      show C ((s.db.begin .continueOnConflict).1.view _)
      rw [hview]
      exact h.committed
    · intro _ script hrunning
      show script.Ensures _ ((s.db.begin .continueOnConflict).1.view _)
      rw [hview]
      exact hscript script hrunning

omit [DecidableEq ν] in
/-- A statement's end. -/
theorem KeepsInv.finish (hkeeps : Keeps lang C) (h : KeepsInv C s)
    (hs : s.sessions txn = some session) {r : Except ε PUnit}
    (hrunning : session.running = some (.done r)) (failsAfter : Option Nat) :
    KeepsInv C (s.finish txn session r failsAfter) := by
  have hwhole := h.sessions txn session hs
  have hsame : ∀ t, t ≠ txn → s.db.txMgr.states t = some (.active .continueOnConflict) →
      Untouched s.db s.db t := fun _ _ ht => untouched_refl ht
  unfold Server.finish
  split
  · next u =>
      -- the statement succeeded in an open transaction
      refine h.update h.db h.committed hsame ?_
      intro ss hss
      obtain rfl := Option.some.inj hss
      exact ⟨hwhole.active, hwhole.begun, fun hno _ => hwhole.under hno _ hrunning,
        fun _ _ => nofun, hwhole.own⟩
  · next e hexplicit =>
      refine h.update h.db h.committed hsame ?_
      intro ss hss
      obtain rfl := Option.some.inj hss
      refine ⟨hwhole.active, hwhole.begun, ?_, fun _ _ => nofun, ?_⟩
      · intro hno _
        obtain ⟨hspoiled, hwrote⟩ := Bool.or_eq_false_iff.mp hno
        exact hwhole.whole hspoiled (Or.inr hwrote)
      · intro hauto
        exact nomatch hexplicit.symm.trans hauto
  · next u hexplicit =>
      exact h.committing hkeeps hs (hwhole.under (hwhole.own hexplicit) _ hrunning)
  · exact h.aborted txn failsAfter

/-- A statement's call. -/
theorem KeepsInv.called (lang : Language κ δ ν ε σ) (h : KeepsInv C s)
    (hs : s.sessions txn = some session) {script : Script κ δ ν ε PUnit}
    (hrunning : session.running = some script) {rows : List (κ × δ)}
    (hrows : script.Answered (s.db.view txn) rows) :
    KeepsInv C ⟨(s.call lang txn rows script).db, (s.call lang txn rows script).sequences,
      Function.update s.sessions txn (some
        { session with
          running := some (s.call lang txn rows script).rest
          wrote := session.wrote || (s.call lang txn rows script).write.isSome })⟩ := by
  have hwhole := h.sessions txn session hs
  have hspec := Server.call_spec lang h.db hwhole.active rows script
  refine h.update hspec.inv (hspec.committed ▸ h.committed) hspec.others ?_
  intro ss hss
  obtain rfl := Option.some.inj hss
  refine ⟨hspec.active, hspec.seen ▸ hwhole.begun, ?_, ?_, hwhole.own⟩
  · rintro hno (hidle | hwrote)
    · cases hidle
    · obtain ⟨hwrote, hread⟩ := Bool.or_eq_false_iff.mp hwrote
      have hown := hspec.own
      rw [Option.isSome_eq_false_iff, Option.isNone_iff_eq_none] at hread
      rw [hread] at hown
      have hview : (s.call lang txn rows script).db.view txn = s.db.view txn := by
        rw [Db.view, hown, hspec.seen]
        rfl
      rw [hview]
      exact hwhole.whole hno (Or.inr hwrote)
  · intro hno rest hrest
    obtain rfl := Option.some.inj hrest
    exact call_ensures h.db hwhole.active (hwhole.under hno script hrunning) hrows

theorem keepsInv_step (hkeeps : Keeps lang C) (s : Server κ δ ν ε) (e : Event κ δ σ)
    (h : KeepsInv C s) (hok : s.CommitsWhole e) : KeepsInv C (s.step lang e) := by
  cases e with
  | begin =>
    refine h.opened rfl fun script hscript => ?_
    cases hscript
  | autocommit statement =>
    refine h.opened rfl fun script hscript => ?_
    obtain rfl := Option.some.inj hscript
    exact hkeeps.statement statement _ h.committed
  | start txn statement =>
    simp only [step]
    split
    · exact h
    · next session hs =>
        obtain ⟨hs, -, hidle⟩ := Tracked.idle_eq_some hs
        have hwhole := h.sessions txn session hs
        refine h.update h.db h.committed (fun _ _ ht => untouched_refl ht) ?_
        intro ss hss
        obtain rfl := Option.some.inj hss
        refine ⟨hwhole.active, hwhole.begun, fun hno _ => hwhole.whole hno (Or.inl hidle), ?_,
          hwhole.own⟩
        intro hno script hscript
        obtain rfl := Option.some.inj hscript
        exact hkeeps.statement statement _ (hwhole.whole hno (Or.inl hidle))
  | call txn rows failsAfter =>
    simp only [step]
    cases hs : s.sessions txn with
    | none => exact h
    | some session =>
      dsimp only
      cases hrunning : session.running with
      | none => exact h
      | some script =>
        have hcalled := h.called lang hs hrunning (hok session hs script hrunning)
        cases script with
        | done r => exact h.finish hkeeps hs hrunning failsAfter
        | find key next => exact hcalled
        | insert key data next => exact hcalled
        | update key data next => exact hcalled
        | remove key next => exact hcalled
        | genKey name next => exact hcalled
        | select on next => exact hcalled
  | commit txn =>
    simp only [step]
    cases hs : s.idle txn with
    | none => exact h
    | some session =>
      obtain ⟨hs, -, hidle⟩ := Tracked.idle_eq_some hs
      have hgood : session.spoiled = false := by
        have hall : (s.sessions txn).all (fun ss => !ss.spoiled) = true := hok
        rw [hs] at hall
        simpa using hall
      exact h.committing hkeeps hs ((h.sessions txn session hs).whole hgood (Or.inl hidle))
  | rollback txn failsAfter =>
    simp only [step]
    cases hs : s.idle txn with
    | none => exact h
    | some session => exact h.aborted txn failsAfter
  | maintain upkeep =>
    have hends : (upkeep.action : Action κ δ).ends = none := by cases upkeep <;> rfl
    have hwriter : (upkeep.action : Action κ δ).writer = none := by cases upkeep <;> rfl
    have hsame : (s.db.step upkeep.action).committedRow = s.db.committedRow := by
      refine funext fun key => Db.committedRow_step h.db upkeep.action ?_ key
      rintro t heq
      rw [heq] at hends
      cases hends
    refine ⟨Db.inv_step _ _ h.db, ?_, ?_⟩
    · show C (s.db.step upkeep.action).committedRow
      rw [hsame]
      exact h.committed
    · intro t session ht
      have hold := h.sessions t session ht
      refine hold.frame (untouched_step h.db upkeep.action hold.active ?_ ?_)
      · simp [hwriter]
      · simp [hends]

/-- The committed rows have what every statement keeps, in every run in which no transaction is
committed that a statement failed in once it had written. -/
theorem committed_keeps (hkeeps : Keeps lang C) (hdb : Db.Reachable db)
    (hcommitted : C db.committedRow) {sequences : ν → Option UInt64}
    (h : Lib.Reachable (step lang) CommitsWhole ⟨db, sequences, fun _ => none⟩ s) :
    C s.db.committedRow := by
  have hinit : KeepsInv C (⟨db, sequences, fun _ => none⟩ : Server κ δ ν ε) := by
    refine ⟨Db.inv_of_reachable hdb, hcommitted, fun t session hs => ?_⟩
    cases hs
  exact (h.invariant hinit fun s e hs hok => keepsInv_step hkeeps s e hs hok).committed

end Server

end SquealDb.Store
