import SquealDb.Doc.Collection
import SquealDb.Store.Keeping

/-!
# What every snapshot of a collection keeps

A statement that fails in a session's transaction takes the transaction with it, so none is
ever committed after one.  What statements keep when they succeed therefore holds in every
snapshot of every run.
-/

namespace SquealDb.Doc

open Codec Lib Store

/-- The rows committed, those each transaction began with, and those that it sees between its
statements. -/
structure InSnapshots (C : (Place → Option Value) → Prop) (s : Sessions) : Prop where
  committed : C s.db.committedRow
  begun : ∀ txn session, s.sessions txn = some session → C (s.db.seenRow txn)
  between : ∀ txn session, s.sessions txn = some session → session.running = none →
    C (s.db.view txn)

/-- Each statement meets a condition, and one that selects rows is given rows that its
transaction sees, each once. -/
def Meets (P : Statement → Prop) (s : Sessions) : Event Place Value Statement → Prop
  | .start _ statement => P statement
  | .autocommit statement => P statement
  | .call txn rows _ =>
    ∀ session ∈ s.sessions txn, ∀ script ∈ session.running,
      script.Answered (s.db.view txn) rows
  | _ => True

instance (P : Statement → Prop) [DecidablePred P] (s : Sessions) : DecidablePred (Meets P s) :=
  fun e => by
    cases e with
    | start txn statement => exact inferInstanceAs (Decidable (P statement))
    | autocommit statement => exact inferInstanceAs (Decidable (P statement))
    | call txn rows failsAfter =>
      exact inferInstanceAs (Decidable (∀ session ∈ s.sessions txn, ∀ script ∈ session.running,
        script.Answered (s.db.view txn) rows))
    | begin => exact .isTrue trivial
    | commit txn => exact .isTrue trivial
    | rollback txn failsAfter => exact .isTrue trivial
    | maintain upkeep => exact .isTrue trivial

variable {indexes : List Index} {P : Statement → Prop} {C : (Place → Option Value) → Prop}

/-- A call that is given no rows. -/
theorem meets_call_nil {s : Sessions} {txn : Nat} {failsAfter : Option Nat} :
    Meets P s (.call txn [] failsAfter) := by
  intro session _ script _
  cases script with
  | select on next => exact ⟨nofun, nofun, List.nodup_nil⟩
  | done r => trivial
  | find key next => trivial
  | insert key data next => trivial
  | update key data next => trivial
  | remove key next => trivial
  | genKey name next => trivial

/-! ## A statement that failed -/

/-- No transaction goes on after a statement of its own failed. -/
def Unspoiled (s : Sessions) : Prop :=
  ∀ txn session, s.sessions txn = some session → session.spoiled = false

section

variable {σ : Type} {lang : Language Place Value Empty OpError σ} {s : Sessions}

/-- One session changes, and no other. -/
theorem unspoiled_update {sessions : Nat → Option (Session Place Value Empty OpError)} {txn : Nat}
    {session : Option (Session Place Value Empty OpError)}
    (h : ∀ t ss, sessions t = some ss → ss.spoiled = false)
    (hnew : ∀ ss, session = some ss → ss.spoiled = false) :
    ∀ t ss, Function.update sessions txn session t = some ss → ss.spoiled = false := by
  intro t ss ht
  by_cases htxn : t = txn
  · subst htxn
    rw [Function.update_self] at ht
    exact hnew ss ht
  · rw [Function.update_of_ne htxn] at ht
    exact h t ss ht

/-- A call changes its own transaction's session, which stays as it is but for what its statement
does, unless the statement has failed: then it waits for its transaction to be rolled back. -/
theorem call_sessions (lang : Language Place Value Empty OpError σ) (s : Sessions) (txn : Nat)
    (rows : List (Place × Value)) (failsAfter : Option Nat) :
    ∃ after, (s.step lang (.call txn rows failsAfter)).sessions =
        Function.update s.sessions txn after ∧
      (failed s txn = true → (after.any fun ss => ss.explicit && ss.running.isNone) = true) ∧
      (failed s txn = false → ∀ ss, after = some ss →
        ∃ session, s.sessions txn = some session ∧ ss.spoiled = session.spoiled) := by
  simp only [failed, Server.step]
  cases hs : s.sessions txn with
  | none =>
    exact ⟨none, (Function.update_eq_self_iff.mpr hs.symm).symm, (by intros; contradiction),
      (by intros; contradiction)⟩
  | some session =>
    obtain ⟨explicit, running, wrote, spoiled⟩ := session
    have hcalled : ∀ called : Called Place Value Empty OpError, ∀ ss,
        some (⟨explicit, some called.rest, wrote || called.write.isSome, spoiled⟩ :
          Session Place Value Empty OpError) = some ss →
        ∃ session, some (⟨explicit, running, wrote, spoiled⟩ :
          Session Place Value Empty OpError) = some session ∧ ss.spoiled = session.spoiled := by
      intro called ss hss
      obtain rfl := Option.some.inj hss
      exact ⟨_, rfl, rfl⟩
    cases running with
    | none =>
      refine ⟨_, (Function.update_eq_self_iff.mpr hs.symm).symm, ?_, fun _ ss hss => ⟨ss, hss, rfl⟩⟩
      cases explicit <;> intros <;> contradiction
    | some script =>
      cases script with
      | done r =>
        cases explicit with
        | false =>
          cases r with
          | _ => exact ⟨none, rfl, by intros; contradiction, by intros; contradiction⟩
        | true =>
          cases r with
          | error e => exact ⟨_, rfl, fun _ => rfl, by intros; contradiction⟩
          | ok u =>
            refine ⟨_, rfl, by intros; contradiction, fun _ ss hss => ?_⟩
            obtain rfl := Option.some.inj hss
            exact ⟨_, rfl, rfl⟩
      | find key next =>
        exact ⟨_, rfl, by cases explicit <;> intros <;> contradiction, fun _ => hcalled _⟩
      | insert key data next =>
        exact ⟨_, rfl, by cases explicit <;> intros <;> contradiction, fun _ => hcalled _⟩
      | update key data next =>
        exact ⟨_, rfl, by cases explicit <;> intros <;> contradiction, fun _ => hcalled _⟩
      | remove key next =>
        exact ⟨_, rfl, by cases explicit <;> intros <;> contradiction, fun _ => hcalled _⟩
      | genKey name next =>
        exact ⟨_, rfl, by cases explicit <;> intros <;> contradiction, fun _ => hcalled _⟩
      | select on next =>
        exact ⟨_, rfl, by cases explicit <;> intros <;> contradiction, fun _ => hcalled _⟩

/-- Every event leaves it so, but the end of a statement that failed. -/
theorem Unspoiled.step (h : Unspoiled s) (e : Event Place Value σ)
    (hok : ∀ txn rows failsAfter, e = .call txn rows failsAfter → failed s txn = false) :
    Unspoiled (s.step lang e) := by
  cases e with
  | begin =>
    refine unspoiled_update h fun ss hss => ?_
    obtain rfl := Option.some.inj hss
    rfl
  | autocommit statement =>
    refine unspoiled_update h fun ss hss => ?_
    obtain rfl := Option.some.inj hss
    rfl
  | start txn statement =>
    simp only [Server.step]
    cases hidle : s.idle txn with
    | none => exact h
    | some session =>
      refine unspoiled_update h fun ss hss => ?_
      obtain rfl := Option.some.inj hss
      exact h txn session (Tracked.idle_eq_some hidle).1
  | call txn rows failsAfter =>
    obtain ⟨after, hsessions, -, hgoing⟩ := call_sessions lang s txn rows failsAfter
    rw [Unspoiled, hsessions]
    refine unspoiled_update h fun ss hss => ?_
    obtain ⟨session, hs, heq⟩ := hgoing (hok txn rows failsAfter rfl) ss hss
    rw [heq]
    exact h txn session hs
  | commit txn =>
    simp only [Server.step]
    cases hidle : s.idle txn with
    | none => exact h
    | some session => exact unspoiled_update h (by intros; contradiction)
  | rollback txn failsAfter =>
    simp only [Server.step]
    cases hidle : s.idle txn with
    | none => exact h
    | some session => exact unspoiled_update h (by intros; contradiction)
  | maintain upkeep => exact h

/-- A failure ends its statement, and its session's transaction with it. -/
theorem rolledBack_sessions {txn : Nat} (hfailed : failed s txn = true)
    (rows : List (Place × Value)) (failsAfter : Option Nat) :
    ((s.step lang (.call txn rows failsAfter)).step lang (.rollback txn failsAfter)).sessions =
      Function.update s.sessions txn none := by
  obtain ⟨after, hsessions, hfailing, -⟩ := call_sessions lang s txn rows failsAfter
  have hwaits := hfailing hfailed
  generalize s.step lang (.call txn rows failsAfter) = s' at hsessions ⊢
  have hidle : s'.idle txn = after := by
    rw [Server.idle, hsessions, Function.update_self]
    cases after with
    | none => rfl
    | some ss => exact Option.filter_some_pos hwaits
  cases after with
  | none => cases hwaits
  | some ss => simp only [Server.step, hidle, hsessions, Function.update_idem]

theorem Unspoiled.rolledBack (h : Unspoiled s) {txn : Nat} (hfailed : failed s txn = true)
    (rows : List (Place × Value)) (failsAfter : Option Nat) :
    Unspoiled ((s.step lang (.call txn rows failsAfter)).step lang (.rollback txn failsAfter)) := by
  rw [Unspoiled, rolledBack_sessions hfailed]
  exact unspoiled_update h nofun

/-- So its commits are of whole statements. -/
theorem Unspoiled.all (h : Unspoiled s) (txn : Nat) :
    (s.sessions txn).all (fun session => !session.spoiled) = true := by
  cases hs : s.sessions txn with
  | none => rfl
  | some session => simp [h txn session hs]

end

/-- What is kept, while no transaction goes on after a failure. -/
structure RunInv (C : (Place → Option Value) → Prop) (s : Sessions) : Prop where
  keeps : Server.KeepsInv C s
  unspoiled : Unspoiled s

theorem RunInv.snapshots {s : Sessions} (h : RunInv C s) : InSnapshots C s where
  committed := h.keeps.committed
  begun txn session hs := (h.keeps.sessions txn session hs).begun
  between txn session hs hidle :=
    (h.keeps.sessions txn session hs).whole (h.unspoiled txn session hs) (Or.inl hidle)

/-- The same event of the statements that meet the condition. -/
theorem keepsInv_met (hkeeps : Server.Keeps ((language indexes).only P) C) {s : Sessions}
    (h : Server.KeepsInv C s) (e : Event Place Value {st // P st}) (hok : s.CommitsWhole e) :
    Server.KeepsInv C (s.step (language indexes) (e.map Subtype.val)) := by
  rw [← Server.step_only]
  exact Server.keepsInv_step hkeeps s e h hok

theorem RunInv.call {s : Sessions} (hkeeps : Server.Keeps ((language indexes).only P) C)
    (h : RunInv C s) {txn : Nat} {rows : List (Place × Value)} {failsAfter : Option Nat}
    (hok : Meets P s (.call txn rows failsAfter)) :
    RunInv C (step indexes s (.call txn rows failsAfter)) := by
  have hafter : Server.KeepsInv C (s.step (language indexes) (.call txn rows failsAfter)) :=
    keepsInv_met hkeeps h.keeps (.call txn rows failsAfter) hok
  simp only [step]
  by_cases hfailed : failed s txn = true
  · rw [if_pos hfailed]
    exact ⟨keepsInv_met hkeeps hafter (.rollback txn failsAfter) trivial,
      h.unspoiled.rolledBack hfailed rows failsAfter⟩
  · rw [if_neg hfailed]
    refine ⟨hafter, h.unspoiled.step _ ?_⟩
    rintro t rows' failsAfter' heq
    cases heq
    exact Bool.eq_false_iff.mpr hfailed

theorem runInv_step (hkeeps : Server.Keeps ((language indexes).only P) C) (s : Sessions)
    (e : Event Place Value Statement) (h : RunInv C s) (hok : Meets P s e) :
    RunInv C (step indexes s e) := by
  have hkept : ∀ e : Event Place Value Statement,
      (∀ txn rows failsAfter, e ≠ .call txn rows failsAfter) →
      Unspoiled (s.step (language indexes) e) := fun e he =>
    h.unspoiled.step e fun txn rows failsAfter heq => absurd heq (he txn rows failsAfter)
  cases e with
  | call txn rows failsAfter => exact h.call hkeeps hok
  | begin =>
    exact ⟨keepsInv_met hkeeps h.keeps .begin trivial, hkept .begin fun _ _ _ => nofun⟩
  | autocommit statement =>
    exact ⟨keepsInv_met hkeeps h.keeps (.autocommit ⟨statement, hok⟩) trivial,
      hkept (.autocommit statement) fun _ _ _ => nofun⟩
  | start txn statement =>
    exact ⟨keepsInv_met hkeeps h.keeps (.start txn ⟨statement, hok⟩) trivial,
      hkept (.start txn statement) fun _ _ _ => nofun⟩
  | commit txn =>
    exact ⟨keepsInv_met hkeeps h.keeps (.commit txn) (h.unspoiled.all txn),
      hkept (.commit txn) fun _ _ _ => nofun⟩
  | rollback txn failsAfter =>
    exact ⟨keepsInv_met hkeeps h.keeps (.rollback txn failsAfter) trivial,
      hkept (.rollback txn failsAfter) fun _ _ _ => nofun⟩
  | maintain upkeep =>
    exact ⟨keepsInv_met hkeeps h.keeps (.maintain upkeep) trivial, h.unspoiled⟩

/-- What statements that meet a condition keep holds in every snapshot of a run of them. -/
theorem snapshots_keep (hkeeps : Server.Keeps ((language indexes).only P) C)
    {db : Db Place Value} (hdb : Db.Reachable db) (hcommitted : C db.committedRow) {s : Sessions}
    (h : Reachable (step indexes) (Meets P) ⟨db, fun _ => none, fun _ => none⟩ s) :
    InSnapshots C s := by
  have hinit : RunInv C (⟨db, fun _ => none, fun _ => none⟩ : Sessions) := by
    refine ⟨⟨Db.inv_of_reachable hdb, hcommitted, ?_⟩, ?_⟩
    · exact fun _ _ => nofun
    · exact fun _ _ => nofun
  exact (h.invariant hinit fun s e hs hok => runInv_step hkeeps s e hs hok).snapshots

/-- What is made for a document that has an `_id` already. -/
def someObjectId : ObjectId := ⟨List.replicate 12 0, rfl⟩

end SquealDb.Doc
