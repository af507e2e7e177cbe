import SquealDb.Store.WritesInv

/-!
# Writes that land in time

While tree writes land before an abort of their transaction has read what
there is to revert, no row outlives its transaction's entry in the table.  A
tree write that lands later is left on its page, and its transaction is
forgotten: from then on everybody takes the row for committed.
-/

namespace SquealDb.Store

open Lib

variable {κ δ : Type*}

/-! ## Tree writes that land in time -/

section Land

variable {db : Db κ δ} {todo : Tuple κ δ → Prop} {minted : List Nat}
  {op : Operation κ δ} {v : Tuple κ δ}

/-- The version that a write in time replaces is the writer's own, or
committed. -/
theorem WritesInv.replaces (h : WritesInv db todo minted) {t lsn : Nat} {key : κ} {c : Tuple κ δ}
    (hw : WriteSpec db.txMgr t lsn key (db.rows key) op v) (hc : db.rows key = some c) :
    c.txnId = some t ∨ CommittedBy (commitTs db.log) c := by
  rcases hw.replaces with ⟨hnone, -⟩ | ⟨c', w, hc', hcw, hcon, -⟩
  · rw [hnone] at hc
    cases hc
  · rw [hc'] at hc
    cases hc
    by_cases hwt : w = t
    · exact Or.inl (hwt ▸ hcw)
    · exact Or.inr ((committedBy_iff hcw).mpr
        (h.committed_of_not_conflicts hc' hcw hwt hcon))

section

variable {t lsn : Nat} {key : κ} (h : WritesInv db todo minted) (hlsn : lsn ∈ minted)
  (hw : WriteSpec db.txMgr t lsn key (db.rows key) op v)

include h hlsn hw

namespace WritesInv

theorem facts_land {u : Undo κ δ} (hu : op.undo = some u) :
    InsertFacts db.versions (db.versions.insert lsn op) t lsn (db.rows key) u :=
  hw.insertFacts db.versions (fun t' l hl heq => h.writtenFresh t' l hl (heq ▸ hlsn)) hu

theorem kept_land {q : Tuple κ δ} {t' l : Nat}
    (ht' : .replaced l ∈ (db.versions.insert lsn op).writtenBy t')
    (hq : (db.versions.insert lsn op).find l = some q) :
    q.txnId = some t' ∨ CommittedBy (commitTs db.log) q := by
  obtain ⟨u, hu, -⟩ := hw.undo
  have hf := h.facts_land hlsn hw hu
  rcases hf.replaced t' l ht' with hold | ⟨rfl, rfl⟩
  · rcases hf.find_self l q hq with hfind | ⟨rfl, -⟩
    · exact h.kept t' l q hold hfind
    · exact absurd hlsn (h.writtenFresh t' l hold)
  · rcases hf.find_self l q hq with hfind | ⟨-, hcur⟩
    · exact absurd hlsn (h.findFresh l q hfind)
    · exact h.replaces hw hcur

theorem ownerUnique_land {l t' t'' : Nat}
    (ht' : .replaced l ∈ (db.versions.insert lsn op).writtenBy t')
    (ht'' : .replaced l ∈ (db.versions.insert lsn op).writtenBy t'') : t' = t'' := by
  obtain ⟨u, hu, -⟩ := hw.undo
  have hf := h.facts_land hlsn hw hu
  rcases hf.replaced t' l ht' with hold' | ⟨rfl, rfl⟩
  · rcases hf.replaced t'' l ht'' with hold'' | ⟨rfl, rfl⟩
    · exact h.ownerUnique l t' t'' hold' hold''
    · exact absurd hlsn (h.writtenFresh t' l hold')
  · rcases hf.replaced t'' l ht'' with hold'' | ⟨rfl, -⟩
    · exact absurd hlsn (h.writtenFresh t'' l hold'')
    · rfl

variable [DecidableEq κ]

/-- What can be met afterwards is the new version, or could be met before. -/
theorem held_land {x : Tuple κ δ} (hx : Held (db.write lsn key op v) todo x) :
    x = v ∨ Held db todo x := by
  obtain ⟨u, hu, -⟩ := hw.undo
  rcases hx with (⟨k, hk⟩ | ⟨l, hl⟩) | hx
  · by_cases hkk : k = key
    · subst hkk
      simp only [Db.write, Function.update_self] at hk
      exact Or.inl (Option.some.inj hk).symm
    · simp only [Db.write, Function.update_of_ne hkk] at hk
      exact Or.inr (Or.inl (Or.inl ⟨k, hk⟩))
  · rcases (h.facts_land hlsn hw hu).find_self l x hl with hold | ⟨-, hcur⟩
    · exact Or.inr (Or.inl (Or.inr ⟨l, hold⟩))
    · exact Or.inr (Or.inl (Or.inl ⟨key, hcur⟩))
  · exact Or.inr (Or.inr hx)

/-- What holds of the write's LSN, and of those met before, holds of those met afterwards. -/
theorem lsns_land {P : Nat → Prop} (hP : P lsn)
    (hpre : ∀ x l, Held db todo x → x.preLsn = some l → P l)
    (hwritten : ∀ t' l, .replaced l ∈ db.versions.writtenBy t' → P l)
    (hfind : ∀ l q, db.versions.find l = some q → P l) :
    (∀ x l, Held (db.write lsn key op v) todo x → x.preLsn = some l → P l) ∧
      (∀ t' l, .replaced l ∈ (db.versions.insert lsn op).writtenBy t' → P l) ∧
      ∀ l q, (db.versions.insert lsn op).find l = some q → P l := by
  obtain ⟨u, hu, -⟩ := hw.undo
  have hf := h.facts_land hlsn hw hu
  refine ⟨fun x l hx hl => ?_, fun t' l hl => ?_, fun l q hq => ?_⟩
  · rcases h.held_land hlsn hw hx with rfl | hold
    · exact hw.preLsn_eq hl ▸ hP
    · exact hpre x l hold hl
  · rcases hf.replaced t' l hl with hold | ⟨-, rfl⟩
    · exact hwritten t' l hold
    · exact hP
  · rcases hf.find_self l q hq with hold | ⟨rfl, -⟩
    · exact hfind l q hold
    · exact hP

/-- What the new version, or one met before, replaced was the same writer's, or committed. -/
theorem pre_land {x q : Tuple κ δ} {l : Nat} (hx : Held (db.write lsn key op v) todo x)
    (hl : x.preLsn = some l) (hq : (db.versions.insert lsn op).find l = some q) :
    q.txnId = x.txnId ∨ CommittedBy (commitTs db.log) q := by
  obtain ⟨u, hu, -⟩ := hw.undo
  have hfind := (h.facts_land hlsn hw hu).find_self l q hq
  rcases h.held_land hlsn hw hx with rfl | hold
  · obtain rfl := hw.preLsn_eq hl
    rcases hfind with hfind | ⟨-, hcur⟩
    · exact absurd hlsn (h.findFresh l q hfind)
    · rw [hw.txnId]
      exact h.replaces hw hcur
  · rcases hfind with hfind | ⟨rfl, -⟩
    · exact h.pre x l q hold hl hfind
    · exact absurd hlsn (h.preFresh x l hold hl)

/-- A row of a transaction in flight has an undo: the write's own, or one from before. -/
theorem undo_land {t' : Nat} {k : κ} {x : Tuple κ δ} (hfl : InFlight db.txMgr t')
    (hx : (db.write lsn key op v).rows k = some x) (hxt : x.txnId = some t') :
    ∃ u ∈ (db.versions.insert lsn op).undoOf t', Undoes t' k u := by
  obtain ⟨u, hu, hukey, hutar⟩ := hw.undo
  have hf := h.facts_land hlsn hw hu
  have hother : ∀ k, k ≠ key → (db.write lsn key op v).rows k = db.rows k := fun k hk =>
    Function.update_of_ne hk _ _
  by_cases ht : t' = t
  · subst ht
    rw [hf.undoOf_self]
    by_cases hown : ∃ c, db.rows k = some c ∧ c.txnId = some t'
    · obtain ⟨c, hc, hct⟩ := hown
      obtain ⟨u', hu', hun⟩ := h.undo t' k c hfl hc hct
      exact ⟨u', List.mem_append_left _ hu', hun⟩
    · have hk : k = key := by
        by_contra hk
        rw [hother k hk] at hx
        exact hown ⟨x, hx, hxt⟩
      subst hk
      refine ⟨u, by simp, hukey, fun p hp hpt => hown ⟨p, ?_, hpt⟩⟩
      rw [← hutar]
      exact hp
  · have hk : k ≠ key := by
      rintro rfl
      simp only [Db.write, Function.update_self] at hx
      cases hx
      rw [hw.txnId] at hxt
      exact ht (Option.some.inj hxt).symm
    rw [hother k hk] at hx
    rw [hf.undoOf_of_ne t' ht]
    exact h.undo t' k x hfl hx hxt

theorem land {minted' : List Nat} (hfl : InFlight db.txMgr t) (hsub : minted'.Sublist minted)
    (hnot : lsn ∉ minted') : WritesInv (db.write lsn key op v) todo minted' := by
  obtain ⟨u, hu, -⟩ := hw.undo
  have hf := h.facts_land hlsn hw hu
  have hlog : (db.write lsn key op v).log = db.log ++ [⟨lsn, op⟩] := rfl
  have hts : commitTs (db.log ++ [⟨lsn, op⟩]) = commitTs db.log :=
    commitTs_append_other _ _ hw.commits_eq_none
  have hwr : Wrote (db.log ++ [⟨lsn, op⟩]) = fun id => Wrote db.log id ∨ id = t :=
    wrote_append_write _ _ hw.writer
  obtain ⟨hpreLt, hwrittenLt, hfindLt⟩ :=
    h.lsns_land hlsn hw (h.mintedLt lsn hlsn) h.preLt h.writtenLt h.findLt
  obtain ⟨hpreFresh, hwrittenFresh, hfindFresh⟩ := h.lsns_land hlsn hw hnot
    (fun x l hx hl hm => h.preFresh x l hx hl (hsub.subset hm))
    (fun t' l hl hm => h.writtenFresh t' l hl (hsub.subset hm))
    (fun l q hq hm => h.findFresh l q hq (hsub.subset hm))
  refine {
    txn := by
      rw [hlog, hts, hwr]
      exact h.txn.markWrote hfl
    noCommitting := h.noCommitting
    rowId := ?_
    rowWriter := ?_
    pre := by
      rw [hlog, hts]
      exact fun _ _ _ => h.pre_land hlsn hw
    kept := by
      rw [hlog, hts]
      exact fun _ _ _ => h.kept_land hlsn hw
    undo := fun _ _ _ => h.undo_land hlsn hw
    ownerUnique := fun _ _ _ => h.ownerUnique_land hlsn hw
    hasWrites := ?_
    byTxnLt := ?_
    committedQueue := by
      rw [hlog, hts]
      exact fun e he => h.committedQueue e (hf.committed ▸ he)
    mintedLt := fun l hl => h.mintedLt l (hsub.subset hl)
    mintedNodup := h.mintedNodup.sublist hsub
    preLt := hpreLt
    writtenLt := hwrittenLt
    findLt := hfindLt
    preFresh := hpreFresh
    writtenFresh := hwrittenFresh
    findFresh := hfindFresh }
  · intro k x hx
    by_cases hk : k = key
    · subst hk
      simp only [Db.write, Function.update_self] at hx
      cases hx
      exact hw.id
    · simp only [Db.write, Function.update_of_ne hk] at hx
      exact h.rowId k x hx
  · intro k x hx
    rw [hlog, hts, hwr]
    by_cases hk : k = key
    · subst hk
      simp only [Db.write, Function.update_self] at hx
      cases hx
      exact ⟨t, hw.txnId, Or.inr rfl, Or.inl hfl⟩
    · simp only [Db.write, Function.update_of_ne hk] at hx
      obtain ⟨w, hxw, hwrote, hlive⟩ := h.rowWriter k x hx
      exact ⟨w, hxw, Or.inl hwrote, hlive⟩
  · intro t' p hp
    rw [hlog, hwr]
    by_cases ht : t' = t
    · subst ht
      exact iff_of_true hf.hasWrites_self (Or.inr rfl)
    · have hhas : (db.write lsn key op v).versions.hasWrites t' = db.versions.hasWrites t' :=
        hf.hasWrites_of_ne t' ht
      rw [hhas, h.hasWrites t' p hp]
      exact ⟨Or.inl, fun ho => ho.resolve_right ht⟩
  · intro t' ht'
    by_cases ht : t' = t
    · subst ht
      exact inFlight_lt h.txn hfl
    · exact h.byTxnLt t' ((hf.hasWrites_of_ne t' ht).symm.trans ht')

end WritesInv

end

variable [DecidableEq κ]

/-- A write in time is none of the business of an abort under way. -/
theorem TaskInv.land {a : AbortTask κ δ} (h : TaskInv db a) {t lsn : Nat} {key : κ}
    (htime : a.txn = t → Threads.hasRead a.phase = false)
    (hw : WriteSpec db.txMgr t lsn key (db.rows key) op v) :
    TaskInv (db.write lsn key op v) a := by
  have hlog : (db.write lsn key op v).log = db.log ++ [⟨lsn, op⟩] := rfl
  have hts : commitTs (db.log ++ [⟨lsn, op⟩]) = commitTs db.log :=
    commitTs_append_other _ _ hw.commits_eq_none
  have hmgr : (db.write lsn key op v).txMgr = db.txMgr := rfl
  -- rows of another transaction were there before
  have hrows : a.txn ≠ t → ∀ k x, (db.write lsn key op v).rows k = some x →
      x.txnId = some a.txn → db.rows k = some x := by
    intro hne k x hx hxt
    have hk : k ≠ key := by
      rintro rfl
      have hself : (db.write lsn k op v).rows k = some v := Function.update_self _ _ _
      rw [hself] at hx
      cases hx
      rw [hw.txnId] at hxt
      exact hne (Option.some.inj hxt).symm
    exact (Function.update_of_ne hk _ _).symm.trans hx
  have hno : a.txn ≠ t → NoRows db a.txn → NoRows (db.write lsn key op v) a.txn :=
    fun hne hn k x hx hxt => hn k x (hrows hne k x hx hxt) hxt
  unfold TaskInv at h ⊢
  rw [hlog, hts, hmgr]
  cases hp : a.phase with
  | checked wrote =>
    rw [hp] at h htime
    intro hwrote hfl
    refine hno (fun heq => ?_) (h hwrote hfl)
    have hread := htime heq
    rw [hwrote] at hread
    cases hread
  | aborting =>
    rw [hp] at h
    exact h
  | finishing wrote =>
    rw [hp] at h
    exact h
  | reverting wrote todo =>
    rw [hp] at h htime
    have hne : a.txn ≠ t := fun heq => by cases htime heq
    exact ⟨h.1, h.2.1, fun k x hx hxt => h.2.2.1 k x (hrows hne k x hx hxt) hxt, h.2.2.2⟩
  | reverted wrote =>
    rw [hp] at h htime
    have hne : a.txn ≠ t := fun heq => by cases htime heq
    exact ⟨h.1, h.2.1, hno hne h.2.2⟩
  | forgotten =>
    rw [hp] at h htime
    have hne : a.txn ≠ t := fun heq => by cases htime heq
    exact ⟨h.1, h.2.1, hno hne h.2.2⟩

theorem WriteCall.decide_spec {call : WriteCall κ δ} {lsn : Nat}
    (hid : ∀ key c, db.rows key = some c → c.id = key) {db' : Db κ δ} {d : Decision κ δ}
    (h : call.decide db lsn = .ok (db', d)) :
    ∃ op v, WriteSpec db.txMgr call.txn lsn call.key (db.rows call.key) op v ∧
      db'.applyDecision call.key d = db.write lsn call.key op v := by
  cases call with
  | insert txn tuple => exact Db.insertDecision_spec (hid tuple.id) h
  | update txn tuple => exact Db.updateDecision_spec (hid tuple.id) h
  | remove txn key => exact Db.removeDecision_spec (hid key) h

end Land

namespace Threads.Inv

variable {s : Threads κ δ}

/-- An abort that has only asked whether its transaction wrote. -/
theorem startAbort (h : s.Inv) {txn : Nat} (hlt : txn < s.db.txMgr.clock) :
    (s.startAbort txn).Inv := by
  have hmem : ∀ a ∈ s.aborts ++ [⟨txn, .checked (s.db.versions.hasWrites txn)⟩],
      a ∈ s.aborts ∨ a = ⟨txn, .checked (s.db.versions.hasWrites txn)⟩ := by
    simp [List.mem_append]
  refine ⟨h.writes.mono ?_ (List.Sublist.refl _), ?_, ?_, h.callLt⟩
  · rintro v ⟨a, ha, u, hu, hv⟩
    rcases hmem a ha with ha | rfl
    · exact Or.inr ⟨a, ha, u, hu, hv⟩
    · cases hu
  · intro a ha
    rcases hmem a ha with ha | rfl
    · exact h.taskLt a ha
    · exact hlt
  · intro a ha
    rcases hmem a ha with ha | rfl
    · exact h.task a ha
    · intro hwrote hfl key v hv hvt
      obtain ⟨u, hu, -⟩ := h.writes.undo txn key v hfl hv hvt
      have hnil := DbInv.undoOf_of_not_hasWrites hwrote
      rw [hnil] at hu
      cases hu

theorem retryAbort (h : s.Inv) (txn : Nat) : (s.retryAbort txn).Inv := by
  unfold Threads.retryAbort
  split
  · next hab =>
      have hmem : ∀ a ∈ s.aborts ++ [⟨txn, .aborting⟩],
          a ∈ s.aborts ∨ a = ⟨txn, .aborting⟩ := by
        simp [List.mem_append]
      refine ⟨h.writes.mono ?_ (List.Sublist.refl _), ?_, ?_, h.callLt⟩
      · rintro v ⟨a, ha, u, hu, hv⟩
        rcases hmem a ha with ha | rfl
        · exact Or.inr ⟨a, ha, u, hu, hv⟩
        · cases hu
      · intro a ha
        rcases hmem a ha with ha | rfl
        · exact h.taskLt a ha
        · exact inFlight_lt h.writes.txn (Or.inr hab)
      · intro a ha
        rcases hmem a ha with ha | rfl
        · exact h.task a ha
        · exact ⟨by dsimp only; rw [hab]; trivial, h.writes.txn.abortingTs txn hab⟩
  · exact h

theorem abortFails (h : s.Inv) (i : Nat) : (s.abortFails i).Inv := by
  unfold Threads.abortFails
  split
  · have hmem : ∀ a ∈ s.aborts.eraseIdx i, a ∈ s.aborts := fun a ha =>
      List.mem_of_mem_eraseIdx ha
    refine ⟨h.writes.mono ?_ (List.Sublist.refl _), fun a ha => h.taskLt a (hmem a ha),
      fun a ha => h.task a (hmem a ha), h.callLt⟩
    rintro v ⟨a, ha, u, hu, hv⟩
    exact Or.inr ⟨a, hmem a ha, u, hu, hv⟩
  · exact h

theorem check (h : s.Inv) (call : WriteCall κ δ) : (s.check call).Inv := by
  unfold Threads.check
  cases hr : s.db.requireActive call.txn with
  | error e => exact h
  | ok u =>
    obtain ⟨p, hp⟩ := (s.db.txMgr.isTransactionActive_iff call.txn).mp (Db.requireActive_ok hr)
    have h1 := h.lets (WritesInv.Lets.nextLsn h.writes)
    have hminted : ∀ l ∈ (s.calls ++ [(call, s.db.nextLsn.2)]).map Prod.snd,
        l ∈ s.calls.map Prod.snd ∨ l = s.db.txMgr.clock := by
      intro l hl
      rw [List.map_append, List.mem_append] at hl
      exact hl.imp_right fun hl => by simpa [Db.nextLsn] using hl
    refine ⟨{ h1.writes with
      mintedLt := ?_
      mintedNodup := ?_
      preFresh := ?_
      writtenFresh := ?_
      findFresh := ?_ }, h1.taskLt, h1.task, ?_⟩
    · intro l hl
      rcases hminted l hl with hl | rfl
      · exact h1.writes.mintedLt l hl
      · exact Nat.lt_succ_self _
    · rw [List.map_append, List.nodup_append]
      refine ⟨h.writes.mintedNodup, by simp, ?_⟩
      intro l hl l' hl' heq
      have hlt := h.writes.mintedLt l hl
      have hl'eq : l' = s.db.txMgr.clock := by simpa [Db.nextLsn] using hl'
      omega
    · intro v l hv hl hm
      rcases hminted l hm with hm | rfl
      · exact h.writes.preFresh v l hv hl hm
      · exact absurd (h.writes.preLt v _ hv hl) (Nat.lt_irrefl _)
    · intro t l ht hm
      rcases hminted l hm with hm | rfl
      · exact h.writes.writtenFresh t l ht hm
      · exact absurd (h.writes.writtenLt t _ ht) (Nat.lt_irrefl _)
    · intro l q hq hm
      rcases hminted l hm with hm | rfl
      · exact h.writes.findFresh l q hq hm
      · exact absurd (h.writes.findLt _ q hq) (Nat.lt_irrefl _)
    · intro c hc
      rcases List.mem_append.mp hc with hc | hc
      · exact h1.callLt c hc
      · rw [List.mem_singleton] at hc
        subst hc
        exact Nat.lt_succ_of_lt (h.writes.txn.idLt call.txn (by simp [hp]))

variable [DecidableEq κ]

theorem land (h : s.Inv) (i : Nat) (htime : s.LandsInTime (.land i)) :
    (s.land i).Inv := by
  unfold Threads.land
  cases hi : s.calls[i]? with
  | none => exact h
  | some c =>
    obtain ⟨call, lsn⟩ := c
    have hmem : (call, lsn) ∈ s.calls := List.mem_of_getElem? hi
    have hsub : ((s.calls.eraseIdx i).map Prod.snd).Sublist (s.calls.map Prod.snd) :=
      (List.eraseIdx_sublist s.calls i).map Prod.snd
    have hcalls : ∀ c ∈ s.calls.eraseIdx i, c.1.txn < s.db.txMgr.clock := fun c hc =>
      h.callLt c (List.mem_of_mem_eraseIdx hc)
    have hfailed : Threads.Inv { s with calls := s.calls.eraseIdx i } :=
      ⟨h.writes.mono (fun v hv => Or.inr hv) hsub, h.taskLt, h.task, hcalls⟩
    dsimp only
    split
    · next db' d hd =>
        obtain ⟨hfl, hread⟩ := htime call lsn db' d hi hd
        obtain ⟨op, v, hw, heq⟩ := WriteCall.decide_spec h.writes.rowId hd
        rw [heq]
        have hnot : lsn ∉ (s.calls.eraseIdx i).map Prod.snd := by
          intro hm
          obtain ⟨c, hc, rfl⟩ := List.mem_map.mp hm
          obtain ⟨j, hj, hjc⟩ := List.mem_eraseIdx_iff_getElem?.mp hc
          have hjl : (s.calls.map Prod.snd)[j]? = some c.2 := by simp [hjc]
          have hil : (s.calls.map Prod.snd)[i]? = some c.2 := by simp [hi]
          refine hj ((List.getElem?_inj ?_ h.writes.mintedNodup).mp (hjl.trans hil.symm))
          exact (List.getElem?_eq_some_iff.mp hjl).1
        exact {
          writes := h.writes.land (List.mem_map_of_mem hmem) hw hfl hsub hnot
          taskLt := h.taskLt
          task := fun a ha => (h.task a ha).land (fun heq => hread a ha heq) hw
          callLt := hcalls }
    · split
      · exact hfailed.startAbort (h.callLt _ hmem)
      · exact hfailed
    · exact hfailed

end Threads.Inv

/-! ## The steps of an abort -/

section Abort

variable [DecidableEq κ] {db : Db κ δ} {todo : Tuple κ δ → Prop} {minted : List Nat}

theorem rows_revertOne (t : Nat) (u : Undo κ δ) (key : κ) :
    (Db.revertOne t db u).rows key =
      if key = u.key then revertRow t (db.rows key) u else db.rows key := by
  rw [revertOne_eq]
  by_cases hk : key = u.key
  · subst hk
    simp
  · simp [hk]

variable {t : Nat} {u : Undo κ δ}

/-- A row after a step of a revert is a row of before, or what the step puts
back over a row of the transaction's. -/
theorem rows_revertOne_cases {key : κ} {x : Tuple κ δ}
    (hx : (Db.revertOne t db u).rows key = some x) :
    db.rows key = some x ∨ key = u.key ∧ u.target = some x ∧
      ∃ v, db.rows key = some v ∧ v.txnId = some t := by
  rw [rows_revertOne] at hx
  split at hx
  · next hk =>
      by_cases hown : ∃ v, db.rows key = some v ∧ v.txnId = some t
      · obtain ⟨v, hv, hvt⟩ := hown
        rw [revertRow_of_same hv hvt] at hx
        exact Or.inr ⟨hk, hx, v, hv, hvt⟩
      · rw [revertRow_of_other fun v hv hvt => hown ⟨v, hv, hvt⟩] at hx
        exact Or.inl hx
  · exact Or.inl hx

theorem WritesInv.revertOne (h : WritesInv db todo minted) (hnone : commitTs db.log t = none)
    (htodo : ∀ p, u.target = some p → Held db todo p)
    (htarget : ∀ p, u.target = some p → p.txnId = some t ∨ CommittedBy (commitTs db.log) p) :
    WritesInv (Db.revertOne t db u) todo minted := by
  have h1 := h.lets (Lets.nextLsn h)
  have hfields : (Db.revertOne t db u).txMgr = db.nextLsn.1.txMgr ∧
      (Db.revertOne t db u).versions = db.versions ∧ (Db.revertOne t db u).log = db.log := by
    rw [revertOne_eq]
    exact ⟨rfl, rfl, rfl⟩
  obtain ⟨hmgr, hvers, hlog⟩ := hfields
  have hheld : ∀ x, Held (Db.revertOne t db u) todo x → Held db todo x := by
    rintro x ((⟨key, hx⟩ | ⟨l, hl⟩) | hx)
    · rcases rows_revertOne_cases hx with hold | ⟨-, htar, -⟩
      · exact Or.inl (Or.inl ⟨key, hold⟩)
      · exact htodo x htar
    · rw [hvers] at hl
      exact Or.inl (Or.inr ⟨l, hl⟩)
    · exact Or.inr hx
  have hlive : ∀ key v, db.rows key = some v → v.txnId = some t →
      Wrote db.log t ∧ InFlight db.txMgr t := by
    intro key v hv hvt
    obtain ⟨w, hvw, hwrote, hlive⟩ := h.rowWriter key v hv
    rw [hvt] at hvw
    cases hvw
    refine ⟨hwrote, hlive.resolve_right ?_⟩
    rintro ⟨c, hc⟩
    rw [hnone] at hc
    cases hc
  refine {
    txn := by rw [hmgr, hlog]; exact h1.txn
    noCommitting := by rw [hmgr]; exact h1.noCommitting
    rowId := ?_
    rowWriter := ?_
    pre := by
      rw [hvers, hlog]
      exact fun x l p hx => h.pre x l p (hheld x hx)
    kept := by rw [hvers, hlog]; exact h.kept
    undo := ?_
    ownerUnique := by rw [hvers]; exact h.ownerUnique
    hasWrites := by rw [hmgr, hvers, hlog]; exact h1.hasWrites
    byTxnLt := by rw [hmgr, hvers]; exact h1.byTxnLt
    committedQueue := by rw [hvers, hlog]; exact h.committedQueue
    mintedLt := by rw [hmgr]; exact h1.mintedLt
    mintedNodup := h.mintedNodup
    preLt := by
      rw [hmgr]
      exact fun x l hx => h1.preLt x l (hheld x hx)
    writtenLt := by rw [hmgr, hvers]; exact h1.writtenLt
    findLt := by rw [hmgr, hvers]; exact h1.findLt
    preFresh := fun x l hx => h.preFresh x l (hheld x hx)
    writtenFresh := by rw [hvers]; exact h.writtenFresh
    findFresh := by rw [hvers]; exact h.findFresh }
  · intro key x hx
    rcases rows_revertOne_cases hx with hold | ⟨hk, htar, -⟩
    · exact h.rowId key x hold
    · cases u with
      | remove k => cases htar
      | restore pre =>
        cases htar
        exact hk.symm
  · intro key x hx
    rw [hlog, hmgr]
    rcases rows_revertOne_cases hx with hold | ⟨-, htar, v, hv, hvt⟩
    · exact h1.rowWriter key x hold
    · obtain ⟨hwrote, hfl⟩ := hlive key v hv hvt
      rcases htarget x htar with hxt | hc
      · exact ⟨t, hxt, hwrote, Or.inl hfl⟩
      · cases hxw : x.txnId with
        | none => simp [CommittedBy, hxw] at hc
        | some w =>
          obtain ⟨c, hc⟩ := (committedBy_iff hxw).mp hc
          exact ⟨w, rfl, h.txn.tsWrote w c hc, Or.inr ⟨c, hc⟩⟩
  · intro t' key x hfl' hx hxt
    rw [hmgr] at hfl'
    rw [hvers]
    rcases rows_revertOne_cases hx with hold | ⟨-, htar, v, hv, hvt⟩
    · exact h.undo t' key x hfl' hold hxt
    · rcases htarget x htar with hxt' | hc
      · rw [hxt] at hxt'
        cases hxt'
        exact h.undo _ key v hfl' hv hvt
      · rw [committedBy_iff hxt, commitTs_of_inFlight h.txn hfl'] at hc
        obtain ⟨c, hc⟩ := hc
        cases hc

/-- Each abort still has on its list what it has yet to revert. -/
theorem TaskInv.revertOne (h : WritesInv db todo minted) {a : AbortTask κ δ} (ha : TaskInv db a)
    (htarget : ∀ p, u.target = some p → p.txnId = some t ∨ CommittedBy (commitTs db.log) p) :
    TaskInv (Db.revertOne t db u) a := by
  have hlog : (Db.revertOne t db u).log = db.log := by
    rw [revertOne_eq]
    rfl
  have hstates : (Db.revertOne t db u).txMgr.states = db.txMgr.states := by
    rw [revertOne_eq]
    rfl
  have hrows : commitTs db.log a.txn = none → ∀ key x,
      (Db.revertOne t db u).rows key = some x → x.txnId = some a.txn →
      ∃ x', db.rows key = some x' ∧ x'.txnId = some a.txn := by
    intro hnone key x hx hxt
    rcases rows_revertOne_cases hx with hold | ⟨-, htar, v, hv, hvt⟩
    · exact ⟨x, hold, hxt⟩
    · rcases htarget x htar with hxt' | hc
      · rw [hxt] at hxt'
        cases hxt'
        exact ⟨v, hv, hvt⟩
      · rw [committedBy_iff hxt, hnone] at hc
        obtain ⟨c, hc⟩ := hc
        cases hc
  have hno : commitTs db.log a.txn = none → NoRows db a.txn →
      NoRows (Db.revertOne t db u) a.txn := by
    intro hnone hn key x hx hxt
    obtain ⟨x', hx', hxt'⟩ := hrows hnone key x hx hxt
    exact hn key x' hx' hxt'
  unfold TaskInv at ha ⊢
  rw [hlog, hstates]
  cases hp : a.phase with
  | checked wrote =>
    rw [hp] at ha
    intro hwrote hfl
    have hfl' : InFlight db.txMgr a.txn := by
      unfold InFlight at hfl ⊢
      rwa [hstates] at hfl
    exact hno (commitTs_of_inFlight h.txn hfl') (ha hwrote hfl')
  | aborting =>
    rw [hp] at ha
    exact ha
  | finishing wrote =>
    rw [hp] at ha
    exact ha
  | reverting wrote todo =>
    rw [hp] at ha
    refine ⟨ha.1, ha.2.1, fun key x hx hxt => ?_, ha.2.2.2⟩
    obtain ⟨x', hx', hxt'⟩ := hrows ha.2.1 key x hx hxt
    exact ha.2.2.1 key x' hx' hxt'
  | reverted wrote =>
    rw [hp] at ha
    exact ⟨ha.1, ha.2.1, hno ha.2.1 ha.2.2⟩
  | forgotten =>
    rw [hp] at ha
    exact ⟨ha.1, ha.2.1, hno ha.2.1 ha.2.2⟩

/-- A step of a revert may leave its undo behind. -/
theorem TaskInv.reverted_one {rest : List (Undo κ δ)} {wrote : Bool}
    (h : WritesInv db todo minted) (ha : TaskInv db ⟨t, .reverting wrote (u :: rest)⟩) :
    TaskInv (Db.revertOne t db u) ⟨t, .reverting wrote rest⟩ := by
  have hstep := TaskInv.revertOne h ha (fun p hp => ha.2.2.2 u List.mem_cons_self p hp)
  refine ⟨hstep.1, hstep.2.1, fun key x hx hxt => ?_,
    fun u' hu' => hstep.2.2.2 u' (List.mem_cons_of_mem _ hu')⟩
  obtain ⟨u', hu', hun⟩ := hstep.2.2.1 key x hx hxt
  rcases List.mem_cons.mp hu' with rfl | hu'
  · -- the undo that takes the row away has just been made
    rcases rows_revertOne_cases hx with hold | ⟨-, htar, -⟩
    · have hrow : (Db.revertOne t db u').rows key = u'.target := by
        rw [rows_revertOne, if_pos hun.1.symm]
        exact revertRow_of_same hold hxt u'
      exact absurd hxt (hun.2 x (hrow.symm.trans hx))
    · exact absurd hxt (hun.2 x htar)
  · exact ⟨u', hu', hun⟩

end Abort

namespace Threads

variable [DecidableEq κ]

/-- What one step of an abort leaves: the invariant of the store, of every
abort as it was, and of this one as it is now. -/
structure NextInv (s : Threads κ δ) (a : AbortTask κ δ)
    (next : Db κ δ × Option (AbortPhase κ δ)) : Prop where
  writes : WritesInv next.1 (toRestore s.aborts) (s.calls.map Prod.snd)
  clock : s.db.txMgr.clock ≤ next.1.txMgr.clock
  others : ∀ b ∈ s.aborts, TaskInv next.1 b
  task : ∀ phase, next.2 = some phase → TaskInv next.1 ⟨a.txn, phase⟩ ∧
    ∀ u ∈ AbortTask.todo ⟨a.txn, phase⟩, ∀ v, u.target = some v →
      Held next.1 (toRestore s.aborts) v

variable {s : Threads κ δ} {t : Nat} {wrote : Bool}

omit [DecidableEq κ] in
/-- A step of an abort that lets go of something, and goes on to a phase with
nothing to put back. -/
theorem NextInv.ofLets (h : s.Inv) {a : AbortTask κ δ} {db' : Db κ δ}
    (hl : WritesInv.Lets s.db db') {phase : Option (AbortPhase κ δ)}
    (htask : ∀ ph, phase = some ph → TaskInv db' ⟨a.txn, ph⟩ ∧
      AbortTask.todo ⟨a.txn, ph⟩ = []) : NextInv s a (db', phase) where
  writes := h.writes.lets hl
  clock := hl.clock
  others b hb := (h.task b hb).lets hl (h.taskLt b hb)
  task ph hph := by
    refine ⟨(htask ph hph).1, fun u hu => ?_⟩
    rw [(htask ph hph).2] at hu
    cases hu

omit [DecidableEq κ] in
theorem lets_refl (h : s.Inv) : WritesInv.Lets s.db s.db :=
  WritesInv.Lets.ofRows h.writes rfl h.writes.txn rfl (Nat.le_refl _) rfl rfl
    (fun _ _ hv => hv) rfl rfl (fun _ he => he)

theorem abortNext_checked (h : s.Inv) (ha : TaskInv s.db ⟨t, .checked wrote⟩) :
    NextInv s ⟨t, .checked wrote⟩ (abortNext s.db ⟨t, .checked wrote⟩) := by
  unfold abortNext
  dsimp only
  split
  · next mgr hm =>
      have htxn := h.writes.txn.endReadOnly hm
      unfold TransactionManager.endReadOnly at hm
      split at hm
      · cases hm
        refine NextInv.ofLets h (WritesInv.Lets.ofEntry h.writes htxn rfl rfl trivial
          (by simp) (Or.inr (ha rfl))) (by simp)
      · cases hm
  · split
    · exact NextInv.ofLets h (lets_refl h) (by simp)
    · next mgr hm =>
        have htxn := h.writes.txn.abort hm
        unfold TransactionManager.abort at hm
        split at hm
        · next p hp =>
            cases hm
            refine NextInv.ofLets h (WritesInv.Lets.ofEntry h.writes htxn rfl rfl trivial
              (fun _ => Or.inl ⟨p, hp⟩) (Or.inl rfl)) ?_
            rintro ph hph
            cases hph
            refine ⟨⟨?_, h.writes.txn.activeTs t p hp⟩, rfl⟩
            simp [Ending]
        · cases hm

theorem abortNext_finishing (h : s.Inv) (ha : TaskInv s.db ⟨t, .finishing wrote⟩) :
    NextInv s ⟨t, .finishing wrote⟩ (abortNext s.db ⟨t, .finishing wrote⟩) := by
  refine ⟨h.writes, Nat.le_refl _, h.task, ?_⟩
  rintro ph hph
  cases hph
  have hentry : ∀ u ∈ (s.db.versions.undoOf t).reverse, ∀ p, u.target = some p →
      ∃ l, .replaced l ∈ s.db.versions.writtenBy t ∧ s.db.versions.find l = some p := by
    intro u hu p hp
    rw [List.mem_reverse] at hu
    unfold VersionStore.undoOf at hu
    obtain ⟨x, hx, hxu⟩ := List.mem_filterMap.mp hu
    cases x with
    | inserted k =>
      cases hxu
      cases hp
    | replaced l =>
      simp only [VersionStore.undoEntry, Option.map_eq_some_iff] at hxu
      obtain ⟨q, hq, rfl⟩ := hxu
      cases hp
      exact ⟨l, hx, hq⟩
  refine ⟨⟨ha.1, ha.2, ?_, ?_⟩, ?_⟩
  · intro key v hv hvt
    obtain ⟨w, hvw, -, hlive⟩ := h.writes.rowWriter key v hv
    rw [hvt] at hvw
    cases hvw
    have hfl : InFlight s.db.txMgr t := by
      refine hlive.resolve_right ?_
      rintro ⟨c, hc⟩
      rw [ha.2] at hc
      cases hc
    obtain ⟨u, hu, hun⟩ := h.writes.undo t key v hfl hv hvt
    exact ⟨u, List.mem_reverse.mpr hu, hun⟩
  · intro u hu p hp
    obtain ⟨l, hl, hf⟩ := hentry u hu p hp
    exact h.writes.kept t l p hl hf
  · intro u hu p hp
    obtain ⟨l, -, hf⟩ := hentry u hu p hp
    exact Or.inl (Or.inr ⟨l, hf⟩)

theorem abortNext_reverting (h : s.Inv) {u : Undo κ δ} {rest : List (Undo κ δ)}
    (hmem : ⟨t, .reverting wrote (u :: rest)⟩ ∈ s.aborts) :
    NextInv s ⟨t, .reverting wrote (u :: rest)⟩
      (abortNext s.db ⟨t, .reverting wrote (u :: rest)⟩) := by
  have ha := h.task _ hmem
  have htarget : ∀ p, u.target = some p →
      p.txnId = some t ∨ CommittedBy (commitTs s.db.log) p := fun p hp =>
    ha.2.2.2 u List.mem_cons_self p hp
  have hrestore : ∀ u' ∈ u :: rest, ∀ p, u'.target = some p → toRestore s.aborts p :=
    fun u' hu' p hp => ⟨_, hmem, u', hu', hp⟩
  have hw := h.writes.revertOne ha.2.1 (fun p hp => Or.inr (hrestore u (by simp) p hp)) htarget
  refine ⟨hw, ?_, fun b hb => TaskInv.revertOne h.writes (h.task b hb) htarget, ?_⟩
  · have hclock : (Db.revertOne t s.db u).txMgr.clock = s.db.txMgr.clock + 1 := by
      rw [revertOne_eq]
      rfl
    exact Nat.le_trans (Nat.le_succ _) (Nat.le_of_eq hclock.symm)
  · rintro ph hph
    cases hph
    refine ⟨TaskInv.reverted_one h.writes ha, fun u' hu' p hp => Or.inr ?_⟩
    exact hrestore u' (List.mem_cons_of_mem _ hu') p hp

theorem abortNext_done (h : s.Inv) (hlt : t < s.db.txMgr.clock)
    (ha : TaskInv s.db ⟨t, .reverting wrote []⟩) :
    NextInv s ⟨t, .reverting wrote []⟩ (abortNext s.db ⟨t, .reverting wrote []⟩) := by
  have hno : NoRows s.db t := fun key v hv hvt => by
    obtain ⟨u, hu, -⟩ := ha.2.2.1 key v hv hvt
    cases hu
  have hdone : TaskInv s.db ⟨t, .reverted wrote⟩ := ⟨ha.1, ha.2.1, hno⟩
  cases wrote with
  | false =>
    refine NextInv.ofLets h (lets_refl h) ?_
    rintro ph hph
    cases hph
    exact ⟨hdone, rfl⟩
  | true =>
    have hl : WritesInv.Lets s.db (s.db.logNew (.rollback t)) :=
      WritesInv.Lets.ofRows h.writes rfl h.writes.txn.nextLsn rfl (Nat.le_succ _)
        (commitTs_append_other _ _ rfl) (wrote_append_other _ _ rfl) (fun _ _ hv => hv)
        rfl rfl (fun _ he => he)
    refine NextInv.ofLets h hl ?_
    rintro ph hph
    cases hph
    exact ⟨hdone.lets hl hlt, rfl⟩

theorem abortNext_reverted (h : s.Inv) (ha : TaskInv s.db ⟨t, .reverted wrote⟩) :
    NextInv s ⟨t, .reverted wrote⟩ (abortNext s.db ⟨t, .reverted wrote⟩) := by
  have htxn := h.writes.txn.abortComplete wrote ha.1 ha.2.1
  unfold abortNext
  unfold TransactionManager.abortComplete at htxn ⊢
  dsimp only at htxn ⊢
  split
  · next hif =>
      rw [if_pos hif] at htxn
      refine NextInv.ofLets h (WritesInv.Lets.ofEntry h.writes htxn rfl rfl trivial (by simp)
        (Or.inr fun _ => ha.2.2)) (by simp)
  · next hif =>
      rw [if_neg hif] at htxn
      refine NextInv.ofLets h (WritesInv.Lets.ofEntry h.writes htxn rfl rfl trivial (by simp)
        (Or.inr fun _ => ha.2.2)) ?_
      rintro ph hph
      cases hph
      refine ⟨⟨?_, ha.2.1, ha.2.2⟩, rfl⟩
      simp [Ending]

theorem abortNext_forgotten (h : s.Inv) (ha : TaskInv s.db ⟨t, .forgotten⟩) :
    NextInv s ⟨t, .forgotten⟩ (abortNext s.db ⟨t, .forgotten⟩) := by
  refine NextInv.ofLets h (WritesInv.Lets.discard h.writes (fun p hp => ?_) fun _ => ha.2.2)
    (by simp)
  have hend := ha.1
  dsimp only at hend
  rw [hp] at hend
  exact hend

theorem abortNext_inv (h : s.Inv) {a : AbortTask κ δ} (hmem : a ∈ s.aborts) :
    NextInv s a (abortNext s.db a) := by
  have ha := h.task a hmem
  obtain ⟨t, phase⟩ := a
  cases phase with
  | checked wrote => exact abortNext_checked h ha
  | aborting =>
    refine NextInv.ofLets h (lets_refl h) ?_
    rintro ph hph
    cases hph
    exact ⟨ha, rfl⟩
  | finishing wrote => exact abortNext_finishing h ha
  | reverting wrote todo =>
    cases todo with
    | nil => exact abortNext_done h (h.taskLt _ hmem) ha
    | cons u rest => exact abortNext_reverting h hmem
  | reverted wrote => exact abortNext_reverted h ha
  | forgotten => exact abortNext_forgotten h ha

theorem Inv.abortStep (h : s.Inv) (i : Nat) : (s.abortStep i).Inv := by
  unfold Threads.abortStep
  cases hi : s.aborts[i]? with
  | none => exact h
  | some a =>
    have hmem : a ∈ s.aborts := List.mem_of_getElem? hi
    have hn := abortNext_inv h hmem
    dsimp only
    cases hph : (abortNext s.db a).2 with
    | none =>
      have hold : ∀ b ∈ s.aborts.eraseIdx i, b ∈ s.aborts := fun b hb =>
        List.mem_of_mem_eraseIdx hb
      refine ⟨hn.writes.mono ?_ (List.Sublist.refl _), ?_, fun b hb => hn.others b (hold b hb),
        fun c hc => Nat.lt_of_lt_of_le (h.callLt c hc) hn.clock⟩
      · rintro v ⟨b, hb, hrest⟩
        exact Or.inr ⟨b, hold b hb, hrest⟩
      · exact fun b hb => Nat.lt_of_lt_of_le (h.taskLt b (hold b hb)) hn.clock
    | some phase =>
      obtain ⟨htask, htodo⟩ := hn.task phase hph
      have hold : ∀ b ∈ s.aborts.set i ⟨a.txn, phase⟩, b ∈ s.aborts ∨ b = ⟨a.txn, phase⟩ :=
        fun b hb => List.mem_or_eq_of_mem_set hb
      refine ⟨hn.writes.mono ?_ (List.Sublist.refl _), ?_, ?_,
        fun c hc => Nat.lt_of_lt_of_le (h.callLt c hc) hn.clock⟩
      · rintro v ⟨b, hb, u, hu, hv⟩
        rcases hold b hb with hb | rfl
        · exact Or.inr ⟨b, hb, u, hu, hv⟩
        · exact htodo u hu v hv
      · intro b hb
        rcases hold b hb with hb | rfl
        · exact Nat.lt_of_lt_of_le (h.taskLt b hb) hn.clock
        · exact Nat.lt_of_lt_of_le (h.taskLt a hmem) hn.clock
      · intro b hb
        rcases hold b hb with hb | rfl
        · exact hn.others b hb
        · exact htask

/-! ## Every run -/

theorem inv_new : (new : Threads κ δ).Inv := by
  have hstored : ∀ v, ¬ Held (Db.new : Db κ δ) (toRestore []) v := by
    rintro v ((⟨key, hk⟩ | ⟨l, hl⟩) | ⟨a, ha, -⟩)
    · cases hk
    · cases hl
    · cases ha
  refine ⟨{
    txn := Db.inv_new.txn
    noCommitting := Db.inv_new.noCommitting
    rowId := fun _ _ hv => nomatch hv
    rowWriter := fun _ _ hv => nomatch hv
    pre := fun v _ _ hv => absurd hv (hstored v)
    kept := fun _ _ _ ht => nomatch ht
    undo := fun _ _ _ _ hv => nomatch hv
    ownerUnique := fun _ _ _ ht => nomatch ht
    hasWrites := fun _ _ hp => nomatch hp
    byTxnLt := fun _ ht => nomatch ht
    committedQueue := fun _ he => nomatch he
    mintedLt := fun _ hl => nomatch hl
    mintedNodup := List.nodup_nil
    preLt := fun v _ hv => absurd hv (hstored v)
    writtenLt := fun _ _ ht => nomatch ht
    findLt := fun _ _ hf => nomatch hf
    preFresh := fun v _ hv => absurd hv (hstored v)
    writtenFresh := fun _ _ ht => nomatch ht
    findFresh := fun _ _ hf => nomatch hf },
    fun _ ha => (nomatch ha), fun _ ha => (nomatch ha), fun _ hc => (nomatch hc)⟩

theorem inv_step (s : Threads κ δ) (a : ThreadAction κ δ) (h : s.Inv) (hok : s.LandsInTime a) :
    (s.step a).Inv := by
  cases a with
  | begin policy => exact h.lets (WritesInv.Lets.begin h.writes policy)
  | check call => exact h.check call
  | land i => exact h.land i hok
  | commit txn =>
    simp only [step, commit]
    split
    · exact h
    · exact h.commit txn
  | abort txn =>
    simp only [step, abort]
    split
    · next hlt => exact h.startAbort hlt
    · exact h
  | retryAbort txn => exact h.retryAbort txn
  | abortStep i => exact h.abortStep i
  | abortFails i => exact h.abortFails i
  | pruneCommitted => exact h.pruneCommitted
  | vacuum => exact h.vacuum
  | purge => exact h.purge

/-- The states reached while tree writes land in time. -/
def ReachableInTime : Threads κ δ → Prop := Lib.Reachable step LandsInTime new

/-- Nothing becomes visible without its commit, while tree writes land in
time: in every state reached so, whatever a read, a scan or the check for write
conflicts of another transaction takes for committed has a `Commit` record. -/
theorem taken_as_committed_has_commit {s : Threads κ δ} (h : s.ReachableInTime) {r w : Nat}
    {key : κ} {v : Tuple κ δ} (htaken : TakenAsCommitted s.db r key v)
    (hw : v.txnId = some w) (hne : w ≠ r) : ∃ c, commitTs s.db.log w = some c :=
  (h.invariant inv_new inv_step).writes.committed_of_taken htaken hw hne

/-- The maintenance thread takes a transaction down while its insert is on the
way to the leaf; the insert lands before the undo list is read, is reverted,
and a reader that begins next finds the committed row. -/
theorem taken_as_committed_has_commit_aborted :
    let s : Threads Nat Nat := Lib.run step new [.begin .continueOnConflict,
      .check (.insert 1 ⟨7, 10, none, none, false⟩), .land 0, .commit 1,
      .begin .continueOnConflict, .check (.update 4 ⟨7, 20, none, none, false⟩), .land 0,
      .check (.update 4 ⟨7, 30, none, none, false⟩), .abort 4, .abortStep 0, .land 0,
      .abortStep 0, .abortStep 0, .abortStep 0, .abortStep 0, .abortStep 0, .abortStep 0,
      .begin .continueOnConflict]
    s.aborts = [⟨4, .forgotten⟩] ∧
      TakenAsCommitted s.db 10 7 ⟨7, 10, some 1, none, false⟩ ∧
      ∃ c, commitTs s.db.log 1 = some c := by
  intro s
  have hland : ∀ (s : Threads Nat Nat) (call : WriteCall Nat Nat) (lsn : Nat),
      s.calls[0]? = some (call, lsn) → s.InTime call.txn → s.LandsInTime (.land 0) := by
    intro s call lsn hcall htime call' lsn' db d hcall' _
    rw [hcall] at hcall'
    cases hcall'
    exact htime
  have hreach : s.ReachableInTime := by
    refine Lib.reachable_run _ ⟨trivial, trivial, ?_, trivial, trivial, trivial, ?_, trivial,
      trivial, trivial, ?_, trivial, trivial, trivial, trivial, trivial, trivial, trivial, trivial⟩
    · exact hland _ _ _ rfl ⟨Or.inl ⟨.continueOnConflict, rfl⟩, by decide⟩
    · exact hland _ _ _ rfl ⟨Or.inl ⟨.continueOnConflict, rfl⟩, by decide⟩
    · exact hland _ _ _ rfl ⟨Or.inr rfl, by decide⟩
  have htaken : TakenAsCommitted s.db 10 7 ⟨7, 10, some 1, none, false⟩ :=
    .overwritten (by decide) (by rfl)
  exact ⟨by decide, htaken, taken_as_committed_has_commit hreach htaken rfl (by decide)⟩

/-- The maintenance thread forgets a transaction that has written nothing yet
while its insert is on the way to the leaf; once the insert lands, a reader
finds a row that was never committed. -/
theorem late_write_taken_as_committed :
    ∃ s : Threads Nat Nat, Lib.Reachable step (fun _ _ => True) new s ∧
      ∃ r key v w, TakenAsCommitted s.db r key v ∧ v.txnId = some w ∧ w ≠ r ∧
        commitTs s.db.log w = none := by
  refine ⟨Lib.run step new [.begin .continueOnConflict,
      .check (.insert 1 ⟨7, 10, none, none, false⟩), .abort 1, .abortStep 0, .land 0,
      .begin .continueOnConflict], Lib.reachable_run _ (Lib.allowed_true _ _), 3, 7,
    ⟨7, 10, some 1, none, false⟩, 1, ?_, rfl, by decide, by decide⟩
  exact .overwritten (by decide) (by rfl)

end Threads

end SquealDb.Store
