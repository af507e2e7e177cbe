import Mathlib.Data.List.Nodup
import Mathlib.Data.List.Perm.Basic
import Mathlib.Tactic.Set
import SquealDb.Store.Generator

/-!
# Sequences do not repeat, where checkpoints cover their marks

A value is handed out without a record of its own if it is below
`logged_high`, and a sequence comes back from a crash at the larger of the value
on the generator page and the highest mark replayed.  So every mark that values
are handed out under has to be covered: reached by the page, or carried by a
record at or above the floor.  `Covered` says so of a page and a floor; while a
checkpoint is on its way it holds both of the page and floor that are there and
of the ones to come.

A checkpoint persists `next`, not `logged_high`, and its floor drops the record
of the mark.  Where it does so inside a chunk, the rest of the chunk is handed
out with nothing to cover it: `value_returned_again`.
-/

namespace SquealDb.Store

/-- What neither takes nor returns a value, nor enters a sequence. -/
def SequenceAction.isQuiet {ν : Type*} : SequenceAction ν → Bool
  | .createStep _ | .genKey _ _ | .genKeyStep _ | .crash _ => false
  | _ => true

namespace Sequences

variable {ν : Type*}

/-! ## The invariant -/

/-- A record at or above the floor carries the mark. -/
def Marked (floor : Nat) (log : List (SeqRecord ν)) (name : ν) (mark : Nat) : Prop :=
  ∃ r ∈ log, floor ≤ r.lsn ∧ ∃ high, r.operation = .sequence name high false ∧ mark ≤ high

/-- The value on the generator page has reached the mark. -/
def Persisted (disk : ν → Option Nat) (name : ν) (mark : Nat) : Prop :=
  ∃ d, disk name = some d ∧ mark ≤ d

/-- A sequence that comes back from this page and this log is at the mark or
past it. -/
def Covers (disk : ν → Option Nat) (floor : Nat) (log : List (SeqRecord ν)) (name : ν)
    (mark : Nat) : Prop :=
  Persisted disk name mark ∨ Marked floor log name mark

/-- What a call has of the record it logs, or needs of one that is there. -/
def CallCovered (disk : ν → Option Nat) (floor : Nat) (log : List (SeqRecord ν))
    (c : GenKeyCall ν) : Prop :=
  match c.phase with
  | .fetched | .uncovered => True
  | .minted lsn => floor ≤ lsn ∨ Persisted disk c.name (newHigh c.value)
  | .logged => Covers disk floor log c.name (newHigh c.value)
  | .covered => Covers disk floor log c.name (c.value + 1)

/-- Everything handed out, or about to be, is covered by this page and the
records from this floor on. -/
structure Covered (disk : ν → Option Nat) (floor : Nat) (s : Sequences ν) : Prop where
  floor_le : floor ≤ s.clock
  disk_le : ∀ name d, disk name = some d → ∃ seq, s.gens name = some seq ∧ d ≤ seq.next
  /-- The mark is covered, or no value below it is left to hand out. -/
  high : ∀ name seq, s.gens name = some seq →
    Covers disk floor s.log name seq.loggedHigh ∨
      seq.loggedHigh ≤ seq.next ∧ ∀ c ∈ s.calls, c.name = name → seq.loggedHigh ≤ c.value
  call : ∀ c ∈ s.calls, CallCovered disk floor s.log c
  current : ∀ e ∈ s.current,
    Covers disk floor (s.log.take e.position) e.name (e.value + 1)
  past : ∀ p ∈ s.history.past, Covers disk floor (s.log.take s.synced) p.1 (p.2 + 1)

/-- The `Commit` of the transaction is in the log. -/
def Commits (log : List (SeqRecord ν)) (txn : Nat) : Prop := ∃ r ∈ log, r.commits = some txn

/-- How the numbers of one counter are related. -/
structure Numbers (s : Sequences ν) : Prop where
  floor_le : s.floor ≤ s.counter
  counter_le : s.counter ≤ s.clock
  synced_le : s.synced ≤ s.log.length
  lsn_lt : ∀ r ∈ s.log, r.lsn < s.clock
  txn_lt : ∀ r ∈ s.log, ∀ t, r.txn? = some t → t < r.lsn
  kept : ∀ r ∈ s.log, ∀ name high, r.operation ≠ .sequence name high true
  call_lsn : ∀ c ∈ s.calls, ∀ lsn, c.phase = .minted lsn → lsn < s.clock
  create_lsn : ∀ c ∈ s.creates, ∀ lsn, c.phase = .minted lsn → lsn < s.clock
  inFlight : ∀ t ∈ s.inFlight, t < s.clock ∧ ¬ Commits s.log t
  call_txn : ∀ c ∈ s.calls, ∀ t, c.txn = some t → t < s.clock ∧ ¬ Commits s.log t
  current : ∀ e ∈ s.current, e.position ≤ s.log.length ∧
    ∀ t, e.txn = some t → ¬ Commits (s.log.take e.position) t

/-- The values taken from `next` since the database was opened, those not
returned yet first. -/
def handed (s : Sequences ν) : List (ν × Nat) :=
  s.calls.map GenKeyCall.key ++ s.current.map Returned.key

/-- How the values handed out are related. -/
structure Handed (s : Sequences ν) : Prop where
  nodup : s.handed.Nodup
  lt_next : ∀ k ∈ s.handed, ∃ seq, s.gens k.1 = some seq ∧ k.2 < seq.next
  bounded : ∀ c ∈ s.calls, c.value + sequenceChunk < valueBound
  past_lt : ∀ p ∈ s.history.past, ∃ seq, s.gens p.1 = some seq ∧ p.2 < seq.next
  past_lt_handed : ∀ p ∈ s.history.past, ∀ k ∈ s.handed, k.1 = p.1 → p.2 < k.2

/-- How the values returned before the last crash are related. -/
structure Apart (h : History ν) : Prop where
  past : h.past.Nodup
  lost : h.lost.Nodup
  lost_lt : ∀ e ∈ h.lost, e.2.1 < h.incarnation e.1
  committed : h.committed ⊆ h.past

/-- The page and floor that a checkpoint on its way will leave cover
everything too. -/
def CheckpointInv (s : Sequences ν) : Prop :=
  match s.checkpointing with
  | .idle => True
  | .floorRead floor => floor ≤ s.clock
  | .valuesRead floor values => Covered values floor s ∧
      ∀ name d, s.disk name = some d → Persisted values name d
  | .written floor => Covered s.disk floor s

/-- The invariant. -/
structure Inv (s : Sequences ν) : Prop where
  numbers : Numbers s
  handed : Handed s
  apart : Apart s.history
  covered : Covered s.disk s.floor s
  checkpoint : CheckpointInv s

/-! ## The condition -/

/-- No mark above the value to be persisted has lost its record, nor has a call
that is about to raise one. -/
def CheckpointCovers (s : Sequences ν) (floor : Nat) : Prop :=
  (∀ name seq, s.gens name = some seq →
    seq.loggedHigh ≤ seq.next ∨ Marked floor s.log name seq.loggedHigh) ∧
  ∀ c ∈ s.calls, ∀ seq, s.gens c.name = some seq →
    newHigh c.value ≤ seq.next ∨
      match c.phase with
      | .minted lsn => floor ≤ lsn
      | .logged => Marked floor s.log c.name (newHigh c.value)
      | _ => True

/-- The values that were returned to transactions whose `Commit` a crash does not leave, or
to none, are covered by what it leaves, if it leaves anything of their sequences. -/
def CrashCovers [DecidableEq ν] (s : Sequences ν) (n : Nat) : Prop :=
  ∀ e ∈ s.current, s.committedBy n e = false → Covers s.disk s.floor (s.log.take n) e.name 0 →
    Covers s.disk s.floor (s.log.take n) e.name (e.value + 1)

/-- What is asked of each step: a checkpoint that reads the values finds their
marks covered; a crash leaves the marks of what was returned; no second
`create_generator` of a name gets past its check while the first has not yet entered the
sequence; and no sequence reaches the end of `u64`. -/
def ok [DecidableEq ν] (s : Sequences ν) : SequenceAction ν → Prop
  | .checkpointStep => ∀ floor, s.checkpointing = .floorRead floor → s.CheckpointCovers floor
  | .createStep i => ∀ c, s.creates[i]? = some c → c.phase = .logged → s.gens c.name = none
  | .genKey name _ => ∀ seq, s.gens name = some seq → seq.next + sequenceChunk < valueBound
  | .crash n => s.CrashCovers n
  | _ => True

/-! ## Covering -/

section Covering

variable {disk disk' : ν → Option Nat} {floor : Nat} {log log' : List (SeqRecord ν)}
  {name : ν} {mark mark' : Nat}

theorem Marked.mono (h : Marked floor log name mark) (hlog : log ⊆ log') :
    Marked floor log' name mark := by
  obtain ⟨r, hr, hrest⟩ := h
  exact ⟨r, hlog hr, hrest⟩

theorem Covers.mono_log (h : Covers disk floor log name mark) (hlog : log ⊆ log') :
    Covers disk floor log' name mark :=
  h.imp_right fun hm => hm.mono hlog

theorem Covers.of_le (h : Covers disk floor log name mark) (hle : mark' ≤ mark) :
    Covers disk floor log name mark' := by
  rcases h with ⟨d, hd, hm⟩ | ⟨r, hr, hlsn, high, hop, hm⟩
  · exact Or.inl ⟨d, hd, Nat.le_trans hle hm⟩
  · exact Or.inr ⟨r, hr, hlsn, high, hop, Nat.le_trans hle hm⟩

theorem Persisted.mono (h : Persisted disk name mark)
    (hdisk : ∀ name d, disk name = some d → Persisted disk' name d) :
    Persisted disk' name mark := by
  obtain ⟨d, hd, hm⟩ := h
  obtain ⟨d', hd', hle⟩ := hdisk name d hd
  exact ⟨d', hd', Nat.le_trans hm hle⟩

theorem Covers.mono_disk (h : Covers disk floor log name mark)
    (hdisk : ∀ name d, disk name = some d → Persisted disk' name d) :
    Covers disk' floor log name mark :=
  h.imp_left fun hp => hp.mono hdisk

theorem CallCovered.mono_log {c : GenKeyCall ν} (h : CallCovered disk floor log c)
    (hlog : log ⊆ log') : CallCovered disk floor log' c := by
  unfold CallCovered at h ⊢
  cases hc : c.phase with
  | fetched => trivial
  | uncovered => trivial
  | minted lsn =>
    rw [hc] at h
    exact h
  | logged =>
    rw [hc] at h
    exact h.mono_log hlog
  | covered =>
    rw [hc] at h
    exact h.mono_log hlog

theorem CallCovered.mono_disk {c : GenKeyCall ν} (h : CallCovered disk floor log c)
    (hdisk : ∀ name d, disk name = some d → Persisted disk' name d) :
    CallCovered disk' floor log c := by
  unfold CallCovered at h ⊢
  cases hc : c.phase with
  | fetched => trivial
  | uncovered => trivial
  | minted lsn =>
    rw [hc] at h
    exact h.imp_right fun hp => hp.mono hdisk
  | logged =>
    rw [hc] at h
    exact h.mono_disk hdisk
  | covered =>
    rw [hc] at h
    exact h.mono_disk hdisk

end Covering

/-! ## What a step does -/

section Steps

variable [DecidableEq ν] {s : Sequences ν}

/-- The six things a step of `gen_key` can do. -/
theorem genKeyStep_cases (s : Sequences ν) (i : Nat) :
    s.genKeyStep i = s ∨ ∃ c, s.calls[i]? = some c ∧
      ((∃ seq, c.phase = .fetched ∧ s.gens c.name = some seq ∧
          seq.loggedHigh ≤ c.value ∧
          s.genKeyStep i = { s with calls := s.calls.set i { c with phase := .uncovered } }) ∨
        (∃ seq, c.phase = .fetched ∧ s.gens c.name = some seq ∧
          c.value < seq.loggedHigh ∧
          s.genKeyStep i = { s with calls := s.calls.set i { c with phase := .covered } }) ∨
        (c.phase = .uncovered ∧
          s.genKeyStep i = { s with
            clock := s.clock + 1
            calls := s.calls.set i { c with phase := .minted s.clock } }) ∨
        (∃ lsn, c.phase = .minted lsn ∧
          s.genKeyStep i = { s with
            log := s.log ++ [⟨lsn, .sequence c.name (newHigh c.value) false⟩]
            calls := s.calls.set i { c with phase := .logged } }) ∨
        (∃ gens, c.phase = .logged ∧
          ((s.gens c.name = none ∧ gens = s.gens) ∨
            ∃ seq, s.gens c.name = some seq ∧ gens = s.gens.insert c.name
              { seq with loggedHigh := max seq.loggedHigh (newHigh c.value) }) ∧
          s.genKeyStep i = { s with
            gens := gens
            calls := s.calls.set i { c with phase := .covered } }) ∨
        (c.phase = .covered ∧
          s.genKeyStep i = { s with
            calls := s.calls.eraseIdx i
            current := s.current ++ [⟨c.name, c.value, c.txn, s.log.length⟩] })) := by
  cases hc : s.calls[i]? with
  | none => exact Or.inl (by simp only [genKeyStep, hc])
  | some c =>
    cases hp : c.phase with
    | fetched =>
      cases hg : s.gens c.name with
      | none => exact Or.inl (by simp only [genKeyStep, hc, hp, hg])
      | some seq =>
        refine Or.inr ⟨c, rfl, ?_⟩
        by_cases hle : c.value ≥ seq.loggedHigh
        · exact Or.inl ⟨seq, hp, hg, hle,
            by simp only [genKeyStep, hc, hp, hg, if_pos hle]⟩
        · exact Or.inr (Or.inl ⟨seq, hp, hg, Nat.lt_of_not_le hle,
            by simp only [genKeyStep, hc, hp, hg, if_neg hle]⟩)
    | uncovered =>
      exact Or.inr ⟨c, rfl, Or.inr (Or.inr (Or.inl ⟨hp, by simp only [genKeyStep, hc, hp]⟩))⟩
    | minted lsn =>
      exact Or.inr ⟨c, rfl, Or.inr (Or.inr (Or.inr (Or.inl
        ⟨lsn, hp, by simp only [genKeyStep, hc, hp]⟩)))⟩
    | logged =>
      refine Or.inr ⟨c, rfl, Or.inr (Or.inr (Or.inr (Or.inr (Or.inl ?_))))⟩
      cases hg : s.gens c.name with
      | none =>
        exact ⟨s.gens, hp, Or.inl ⟨rfl, rfl⟩, by simp only [genKeyStep, hc, hp, hg]⟩
      | some seq =>
        exact ⟨_, hp, Or.inr ⟨seq, rfl, rfl⟩, by simp only [genKeyStep, hc, hp, hg]⟩
    | covered =>
      exact Or.inr ⟨c, rfl, Or.inr (Or.inr (Or.inr (Or.inr (Or.inr
        ⟨hp, by simp only [genKeyStep, hc, hp]⟩))))⟩

/-- The three things a step of `create_generator` can do. -/
theorem createStep_cases (s : Sequences ν) (i : Nat) :
    s.createStep i = s ∨ ∃ c, s.creates[i]? = some c ∧
      ((c.phase = .checked ∧
          s.createStep i = { s with
            clock := s.clock + 1
            creates := s.creates.set i { c with phase := .minted s.clock } }) ∨
        (∃ lsn, c.phase = .minted lsn ∧
          s.createStep i = { s with
            log := s.log ++ [⟨lsn, .sequence c.name c.start false⟩]
            creates := s.creates.set i { c with phase := .logged } }) ∨
        (c.phase = .logged ∧
          s.createStep i = { s with
            gens := s.gens.insert c.name ⟨c.start, c.start⟩
            creates := s.creates.eraseIdx i })) := by
  cases hc : s.creates[i]? with
  | none => exact Or.inl (by simp only [createStep, hc])
  | some c =>
    refine Or.inr ⟨c, rfl, ?_⟩
    cases hp : c.phase with
    | checked => exact Or.inl ⟨rfl, by simp only [createStep, hc, hp]⟩
    | minted lsn => exact Or.inr (Or.inl ⟨lsn, rfl, by simp only [createStep, hc, hp]⟩)
    | logged => exact Or.inr (Or.inr ⟨rfl, by simp only [createStep, hc, hp]⟩)

omit [DecidableEq ν] in
/-- A call that moves on keeps what it will return. -/
theorem map_key_set {calls : List (GenKeyCall ν)} {i : Nat} {c c' : GenKeyCall ν}
    (hc : calls[i]? = some c) (hkey : c'.key = c.key) :
    (calls.set i c').map GenKeyCall.key = calls.map GenKeyCall.key := by
  rw [List.map_set]
  refine List.ext_getElem? fun j => ?_
  rw [List.getElem?_set]
  split
  · next hij =>
      subst hij
      have hi : i < calls.length := (List.getElem?_eq_some_iff.mp hc).1
      rw [List.length_map, if_pos hi, List.getElem?_map, hc, hkey]
      rfl
  · rfl

end Steps

/-! ## Quiet steps -/

/-- Neither the sequences nor their calls are touched. -/
structure Quiet (s s' : Sequences ν) : Prop where
  clock : s.clock ≤ s'.clock
  gens : s'.gens = s.gens
  log : s.log <+: s'.log
  synced : s.synced ≤ s'.synced
  calls : s'.calls = s.calls
  current : s'.current = s.current
  history : s'.history = s.history

section QuietSteps

variable {s : Sequences ν}

theorem Quiet.refl (s : Sequences ν) : Quiet s s :=
  ⟨Nat.le_refl _, rfl, List.prefix_refl _, Nat.le_refl _, rfl, rfl, rfl⟩

theorem Quiet.logNew (s : Sequences ν) (op : SeqOperation ν) : Quiet s (s.logNew op) :=
  ⟨Nat.le_succ _, rfl, List.prefix_append _ _, Nat.le_refl _, rfl, rfl, rfl⟩

variable [DecidableEq ν]

theorem quiet_step (hsynced : s.synced ≤ s.log.length) {a : SequenceAction ν}
    (ha : a.isQuiet = true) : Quiet s (s.step a) := by
  cases a with
  | begin => exact ⟨Nat.le_succ _, rfl, List.prefix_refl _, Nat.le_refl _, rfl, rfl, rfl⟩
  | write txn =>
    simp only [Sequences.step, Sequences.write]
    split
    · exact Quiet.logNew s _
    · exact Quiet.refl s
  | commit txn =>
    simp only [Sequences.step, Sequences.commit]
    split
    · exact { Quiet.logNew s (.commit txn) with }
    · exact Quiet.refl s
  | abort txn => exact { Quiet.refl s with }
  | createGenerator name start =>
    simp only [Sequences.step, Sequences.createGenerator]
    split
    · exact Quiet.refl s
    · exact { Quiet.refl s with }
  | checkpointStep =>
    simp only [Sequences.step, Sequences.checkpointStep]
    split
    · exact { Quiet.refl s with }
    · exact { Quiet.refl s with }
    · exact { Quiet.refl s with synced := hsynced }
    · exact { Quiet.refl s with }
  | sync n => exact { Quiet.refl s with synced := Nat.le_max_left _ _ }
  | createStep i => cases ha
  | genKey name txn => cases ha
  | genKeyStep i => cases ha
  | crash n => cases ha

end QuietSteps

/-! ## Coverage is kept -/

section Coverage

variable {disk : ν → Option Nat} {floor : Nat} {s s' : Sequences ν}

theorem take_subset_of_append {log log' : List (SeqRecord ν)} (h : log <+: log') {m n : Nat}
    (hmn : m ≤ n) : log.take m ⊆ log'.take n := by
  obtain ⟨rest, rfl⟩ := h
  intro r hr
  have hr' : r ∈ (log ++ rest).take m := by
    rw [List.take_append]
    exact List.mem_append_left _ hr
  exact List.take_subset_take_left _ hmn hr'

/-- A step that leaves the sequences alone, and lets calls go on with what they
need, keeps coverage. -/
theorem Covered.grow (h : Covered disk floor s) (hclock : s.clock ≤ s'.clock)
    (hgens : s'.gens = s.gens) (hlog : s.log <+: s'.log) (hsynced : s.synced ≤ s'.synced)
    (hhistory : s'.history = s.history)
    (hcalls : ∀ c ∈ s'.calls, CallCovered disk floor s'.log c ∧ ∃ c₀ ∈ s.calls, c₀.key = c.key)
    (hcurrent : ∀ e ∈ s'.current, e ∈ s.current ∨
      Covers disk floor (s'.log.take e.position) e.name (e.value + 1)) :
    Covered disk floor s' where
  floor_le := Nat.le_trans h.floor_le hclock
  disk_le := by
    rw [hgens]
    exact h.disk_le
  high := by
    intro name seq hseq
    rw [hgens] at hseq
    refine (h.high name seq hseq).imp (fun hc => hc.mono_log hlog.subset) ?_
    rintro ⟨hnext, hle⟩
    refine ⟨hnext, fun c hc hname => ?_⟩
    obtain ⟨c₀, hc₀, hkey⟩ := (hcalls c hc).2
    obtain ⟨hn, hv⟩ := Prod.ext_iff.mp hkey
    have hle₀ := hle c₀ hc₀ (hn.trans hname)
    exact Nat.le_trans hle₀ (Nat.le_of_eq hv)
  call := fun c hc => (hcalls c hc).1
  current := by
    intro e he
    rcases hcurrent e he with he | hcov
    · exact (h.current e he).mono_log (take_subset_of_append hlog (Nat.le_refl _))
    · exact hcov
  past := by
    rw [hhistory]
    exact fun p hp => (h.past p hp).mono_log (take_subset_of_append hlog hsynced)

theorem Covered.quiet (h : Covered disk floor s) (hq : Quiet s s') : Covered disk floor s' := by
  refine h.grow hq.clock hq.gens hq.log hq.synced hq.history ?_ ?_
  · rw [hq.calls]
    exact fun c hc => ⟨(h.call c hc).mono_log hq.log.subset, c, hc, rfl⟩
  · rw [hq.current]
    exact fun e he => Or.inl he

/-- A step that moves one call on, and gives it what its new phase needs, keeps
coverage. -/
theorem Covered.set_call (h : Covered disk floor s) (hclock : s.clock ≤ s'.clock)
    (hgens : s'.gens = s.gens) (hlog : s.log <+: s'.log) (hsynced : s'.synced = s.synced)
    (hcurrent : s'.current = s.current) (hhistory : s'.history = s.history)
    {i : Nat} {c : GenKeyCall ν} (hc : s.calls[i]? = some c) (phase : GenKeyPhase)
    (hcalls : s'.calls = s.calls.set i { c with phase := phase })
    (hcov : CallCovered disk floor s'.log { c with phase := phase }) :
    Covered disk floor s' := by
  refine h.grow hclock hgens hlog (Nat.le_of_eq hsynced.symm) hhistory ?_ ?_
  · rw [hcalls]
    intro d hd
    rcases List.mem_or_eq_of_mem_set hd with hd | rfl
    · exact ⟨(h.call d hd).mono_log hlog.subset, d, hd, rfl⟩
    · exact ⟨hcov, c, List.mem_of_getElem? hc, rfl⟩
  · rw [hcurrent]
    exact fun e he => Or.inl he

variable [DecidableEq ν]

/-- `fetch_add`: the value taken was not below a mark that is not covered. -/
theorem Covered.fetch (h : Covered disk floor s) {name : ν} {seq : Seq}
    (hseq : s.gens name = some seq) (txn : Option Nat) (hsmall : seq.next + 1 < valueBound) :
    Covered disk floor { s with
      gens := s.gens.insert name { seq with next := (seq.next + 1) % valueBound }
      calls := s.calls ++ [⟨name, txn, seq.next, .fetched⟩] } where
  floor_le := h.floor_le
  disk_le := by
    intro name' d hd
    obtain ⟨seq', hseq', hle⟩ := h.disk_le name' d hd
    by_cases hname : name' = name
    · subst hname
      obtain rfl : seq = seq' := Option.some.inj (hseq.symm.trans hseq')
      refine ⟨_, Gens.insert_self .., ?_⟩
      dsimp only
      rw [Nat.mod_eq_of_lt hsmall]
      omega
    · exact ⟨seq', (Gens.insert_of_ne _ _ hname).trans hseq', hle⟩
  high := by
    intro name' seq' hseq'
    dsimp only at hseq' ⊢
    by_cases hname : name' = name
    · subst hname
      obtain rfl := Option.some.inj ((Gens.insert_self ..).symm.trans hseq')
      refine (h.high name' seq hseq).imp id ?_
      rintro ⟨hnext, hle⟩
      dsimp only
      rw [Nat.mod_eq_of_lt hsmall]
      refine ⟨by omega, fun c hc hcn => ?_⟩
      rcases List.mem_append.mp hc with hc | hc
      · exact hle c hc hcn
      · rw [List.mem_singleton.mp hc]
        exact hnext
    · have hold := (Gens.insert_of_ne _ _ hname).symm.trans hseq'
      refine (h.high name' seq' hold).imp id ?_
      rintro ⟨hnext, hle⟩
      refine ⟨hnext, fun c hc hcn => ?_⟩
      rcases List.mem_append.mp hc with hc | hc
      · exact hle c hc hcn
      · rw [List.mem_singleton.mp hc] at hcn
        exact absurd hcn.symm hname
  call := by
    intro c hc
    rcases List.mem_append.mp hc with hc | hc
    · exact h.call c hc
    · rw [List.mem_singleton.mp hc]
      trivial
  current := h.current
  past := h.past

/-- The `fetch_max` of `logged_high`: the mark's record is in the log. -/
theorem Covered.raise (h : Covered disk floor s) {i : Nat} {c : GenKeyCall ν}
    (hc : s.calls[i]? = some c) (hphase : c.phase = .logged) {seq : Seq}
    (hseq : s.gens c.name = some seq) (hsmall : c.value + sequenceChunk < valueBound) :
    Covered disk floor { s with
      gens := s.gens.insert c.name
        { seq with loggedHigh := max seq.loggedHigh (newHigh c.value) }
      calls := s.calls.set i { c with phase := .covered } } := by
  have hmark : Covers disk floor s.log c.name (newHigh c.value) := by
    have hcall := h.call c (List.mem_of_getElem? hc)
    simp only [CallCovered, hphase] at hcall
    exact hcall
  have hvalue : c.value + 1 ≤ newHigh c.value := by
    rw [newHigh, Nat.mod_eq_of_lt hsmall, sequenceChunk]
    omega
  have hset : Covered disk floor { s with calls := s.calls.set i { c with phase := .covered } } :=
    h.set_call (Nat.le_refl _) rfl (List.prefix_refl _) rfl rfl rfl hc
      .covered rfl (hmark.of_le hvalue)
  refine ⟨hset.floor_le, ?_, ?_, hset.call, hset.current, hset.past⟩
  · intro name d hd
    obtain ⟨seq', hseq', hle⟩ := h.disk_le name d hd
    by_cases hname : name = c.name
    · subst hname
      obtain rfl : seq = seq' := Option.some.inj (hseq.symm.trans hseq')
      exact ⟨_, Gens.insert_self .., hle⟩
    · exact ⟨seq', (Gens.insert_of_ne _ _ hname).trans hseq', hle⟩
  · intro name seq' hseq'
    dsimp only at hseq' ⊢
    by_cases hname : name = c.name
    · subst hname
      obtain rfl := Option.some.inj ((Gens.insert_self ..).symm.trans hseq')
      dsimp only
      rcases Nat.le_total seq.loggedHigh (newHigh c.value) with hle | hle
      · rw [Nat.max_eq_right hle]
        exact Or.inl hmark
      · rw [Nat.max_eq_left hle]
        exact hset.high c.name seq hseq
    · exact hset.high name seq' ((Gens.insert_of_ne _ _ hname).symm.trans hseq')

/-- A new sequence has no value below its mark. -/
theorem Covered.create (h : Covered disk floor s) {name : ν} (hnone : s.gens name = none)
    (hcalls : ∀ c ∈ s.calls, ∃ seq, s.gens c.name = some seq) (start : Nat)
    (creates : List (CreateCall ν)) :
    Covered disk floor { s with
      gens := s.gens.insert name ⟨start, start⟩, creates := creates } where
  floor_le := h.floor_le
  disk_le := by
    intro name' d hd
    obtain ⟨seq, hseq, hle⟩ := h.disk_le name' d hd
    have hname : name' ≠ name := fun heq => by
      rw [heq, hnone] at hseq
      nomatch hseq
    exact ⟨seq, (Gens.insert_of_ne _ _ hname).trans hseq, hle⟩
  high := by
    intro name' seq hseq
    dsimp only at hseq ⊢
    by_cases hname : name' = name
    · subst hname
      obtain rfl := Option.some.inj ((Gens.insert_self ..).symm.trans hseq)
      refine Or.inr ⟨Nat.le_refl _, fun c hc hcn => ?_⟩
      obtain ⟨seq, hsome⟩ := hcalls c hc
      rw [hcn, hnone] at hsome
      nomatch hsome
    · exact h.high name' seq ((Gens.insert_of_ne _ _ hname).symm.trans hseq)
  call := h.call
  current := h.current
  past := h.past

end Coverage

/-! ## Numbers are kept -/

section Counting

variable {s : Sequences ν}

variable {t : Nat}

theorem not_commits_append {log : List (SeqRecord ν)} {r : SeqRecord ν} (h : ¬ Commits log t)
    (hr : r.commits ≠ some t) : ¬ Commits (log ++ [r]) t := by
  rintro ⟨r', hr', hc⟩
  rcases List.mem_append.mp hr' with hr' | hr'
  · exact h ⟨r', hr', hc⟩
  · exact hr (List.mem_singleton.mp hr' ▸ hc)

theorem SeqRecord.txn?_of_commits {r : SeqRecord ν} (h : r.commits = some t) :
    r.txn? = some t := by
  unfold SeqRecord.commits at h
  unfold SeqRecord.txn?
  split at h
  · next hop =>
      rw [hop]
      exact h
  · nomatch h

/-- A number not yet issued is no transaction's. -/
theorem Numbers.not_commits (h : Numbers s) (ht : s.clock ≤ t) :
    ¬ Commits s.log t := by
  rintro ⟨r, hr, hc⟩
  have hlsn := h.lsn_lt r hr
  have htxn := h.txn_lt r hr t (SeqRecord.txn?_of_commits hc)
  omega

/-- Queueing a record that is no `Commit` of a transaction still at work. -/
theorem Numbers.queue (h : Numbers s) (r : SeqRecord ν) (clock : Nat)
    (hclock : s.clock ≤ clock) (hlsn : r.lsn < clock)
    (htxn : ∀ t, r.txn? = some t → t < r.lsn)
    (hkept : ∀ name high, r.operation ≠ .sequence name high true)
    (hinFlight : ∀ t ∈ s.inFlight, r.commits ≠ some t)
    (hcalls : ∀ c ∈ s.calls, ∀ t, c.txn = some t → r.commits ≠ some t) :
    Numbers { s with clock := clock, log := s.log ++ [r] } where
  floor_le := h.floor_le
  counter_le := Nat.le_trans h.counter_le hclock
  synced_le := by
    have hle := h.synced_le
    simp only [List.length_append]
    omega
  lsn_lt := by
    intro r' hr'
    rcases List.mem_append.mp hr' with hr' | hr'
    · exact Nat.lt_of_lt_of_le (h.lsn_lt r' hr') hclock
    · exact List.mem_singleton.mp hr' ▸ hlsn
  txn_lt := by
    intro r' hr'
    rcases List.mem_append.mp hr' with hr' | hr'
    · exact h.txn_lt r' hr'
    · exact List.mem_singleton.mp hr' ▸ htxn
  kept := by
    intro r' hr'
    rcases List.mem_append.mp hr' with hr' | hr'
    · exact h.kept r' hr'
    · exact List.mem_singleton.mp hr' ▸ hkept
  call_lsn := fun c hc lsn hp => Nat.lt_of_lt_of_le (h.call_lsn c hc lsn hp) hclock
  create_lsn := fun c hc lsn hp => Nat.lt_of_lt_of_le (h.create_lsn c hc lsn hp) hclock
  inFlight := by
    intro t ht
    obtain ⟨hlt, hnot⟩ := h.inFlight t ht
    exact ⟨Nat.lt_of_lt_of_le hlt hclock, not_commits_append hnot (hinFlight t ht)⟩
  call_txn := by
    intro c hc t ht
    obtain ⟨hlt, hnot⟩ := h.call_txn c hc t ht
    exact ⟨Nat.lt_of_lt_of_le hlt hclock, not_commits_append hnot (hcalls c hc t ht)⟩
  current := by
    intro e he
    obtain ⟨hle, hnot⟩ := h.current e he
    refine ⟨?_, fun t ht => ?_⟩
    · simp only [List.length_append]
      omega
    · rw [List.take_append_of_le_length hle]
      exact hnot t ht

/-- The counter goes up. -/
theorem Numbers.tick (h : Numbers s) : Numbers { s with clock := s.clock + 1 } :=
  { h with
    counter_le := Nat.le_succ_of_le h.counter_le
    lsn_lt := fun r hr => Nat.lt_succ_of_lt (h.lsn_lt r hr)
    call_lsn := fun c hc lsn hp => Nat.lt_succ_of_lt (h.call_lsn c hc lsn hp)
    create_lsn := fun c hc lsn hp => Nat.lt_succ_of_lt (h.create_lsn c hc lsn hp)
    inFlight := fun t ht => (h.inFlight t ht).imp_left Nat.lt_succ_of_lt
    call_txn := fun c hc t ht => (h.call_txn c hc t ht).imp_left Nat.lt_succ_of_lt }

/-- A call moves on; if it has an LSN, that has been issued. -/
theorem Numbers.set_call (h : Numbers s) {i : Nat} {c : GenKeyCall ν}
    (hc : s.calls[i]? = some c) (phase : GenKeyPhase)
    (hphase : ∀ lsn, phase = .minted lsn → lsn < s.clock) :
    Numbers { s with calls := s.calls.set i { c with phase := phase } } :=
  { h with
    call_lsn := by
      intro d hd
      rcases List.mem_or_eq_of_mem_set hd with hd | rfl
      · exact h.call_lsn d hd
      · exact hphase
    call_txn := by
      intro d hd
      rcases List.mem_or_eq_of_mem_set hd with hd | rfl
      · exact h.call_txn d hd
      · exact h.call_txn c (List.mem_of_getElem? hc) }

theorem Numbers.set_create (h : Numbers s) (i : Nat) (c : CreateCall ν)
    (hphase : ∀ lsn, c.phase = .minted lsn → lsn < s.clock) :
    Numbers { s with creates := s.creates.set i c } :=
  { h with
    create_lsn := by
      intro d hd
      rcases List.mem_or_eq_of_mem_set hd with hd | rfl
      · exact h.create_lsn d hd
      · exact hphase }

/-- The sequences have nothing to do with the counter. -/
theorem Numbers.set_gens (h : Numbers s) (gens : Gens ν) : Numbers { s with gens := gens } :=
  { h with }

end Counting

section CountingSteps

variable {s : Sequences ν}

theorem Numbers.begin (h : Numbers s) : Numbers s.begin :=
  { h.tick with
    inFlight := by
      intro t ht
      rcases List.mem_append.mp ht with ht | ht
      · exact h.tick.inFlight t ht
      · rw [List.mem_singleton.mp ht]
        exact ⟨Nat.lt_succ_self _, h.not_commits (Nat.le_refl _)⟩ }

theorem Numbers.write (h : Numbers s) (txn : Nat) : Numbers (s.write txn) := by
  simp only [Sequences.write]
  split
  · next hin =>
      refine h.queue ⟨s.clock, .row txn⟩ (s.clock + 1) (Nat.le_succ _) (Nat.lt_succ_self _)
        ?_ ?_ ?_ ?_
      · intro t ht
        obtain rfl := Option.some.inj ht
        exact (h.inFlight txn hin).1
      · exact fun _ _ hop => nomatch hop
      · exact fun _ _ hc => nomatch hc
      · exact fun _ _ _ _ hc => nomatch hc
  · exact h

theorem Numbers.abort (h : Numbers s) (txn : Nat) : Numbers (s.abort txn) :=
  { h with inFlight := fun t ht => h.inFlight t (List.mem_filter.mp ht).1 }

theorem Numbers.commit (h : Numbers s) (txn : Nat) : Numbers (s.commit txn) := by
  simp only [Sequences.commit]
  split
  · next hin =>
      obtain ⟨hin, hcalls⟩ := hin
      have hlt := (h.inFlight txn hin).1
      refine (h.abort txn).queue ⟨s.clock, .commit txn⟩ (s.clock + 1) (Nat.le_succ _)
        (Nat.lt_succ_self _) ?_ ?_ ?_ ?_
      · intro t ht
        obtain rfl := Option.some.inj ht
        exact hlt
      · exact fun _ _ hop => nomatch hop
      · intro t ht hc
        obtain rfl := Option.some.inj hc
        simpa using (List.mem_filter.mp ht).2
      · intro c hc t ht hcommit
        obtain rfl := Option.some.inj hcommit
        exact hcalls (List.any_eq_true.mpr ⟨c, hc, by rw [ht]; exact beq_self_eq_true _⟩)
  · exact h

theorem Numbers.createGenerator (h : Numbers s) (name : ν) (start : Option Nat) :
    Numbers (s.createGenerator name start) := by
  simp only [Sequences.createGenerator]
  split
  · exact h
  · exact
      { h with
        create_lsn := by
          intro c hc
          rcases List.mem_append.mp hc with hc | hc
          · exact h.create_lsn c hc
          · rw [List.mem_singleton.mp hc]
            exact fun _ hp => nomatch hp }

theorem foldl_max_le (recs : List (SeqRecord ν)) (init : Nat) :
    init ≤ recs.foldl (fun clock r => max clock (r.lastIssued + 1)) init ∧
      ∀ r ∈ recs, r.lastIssued < recs.foldl (fun clock r => max clock (r.lastIssued + 1)) init := by
  induction recs generalizing init with
  | nil => exact ⟨Nat.le_refl _, fun _ hr => nomatch hr⟩
  | cons r recs ih =>
    obtain ⟨hle, hlt⟩ := ih (max init (r.lastIssued + 1))
    refine ⟨Nat.le_trans (Nat.le_max_left ..) hle, fun r' hr' => ?_⟩
    rcases List.mem_cons.mp hr' with rfl | hr'
    · exact Nat.lt_of_lt_of_le (Nat.le_max_right init _) hle
    · exact hlt r' hr'

theorem Numbers.checkpointStep (h : Numbers s)
    (hfloor : ∀ floor, s.checkpointing = .written floor → floor ≤ s.clock) :
    Numbers s.checkpointStep := by
  simp only [Sequences.checkpointStep]
  split
  · exact { h with }
  · exact { h with }
  · exact { h with synced_le := Nat.le_refl _ }
  · next floor hphase =>
      exact { h with floor_le := hfloor floor hphase, counter_le := Nat.le_refl _ }

variable [DecidableEq ν]

theorem Numbers.createStep (h : Numbers s) (i : Nat) : Numbers (s.createStep i) := by
  rcases createStep_cases s i with heq | ⟨c, hc, ⟨hp, heq⟩ | ⟨lsn, hp, heq⟩ | ⟨hp, heq⟩⟩
  · rw [heq]
    exact h
  · rw [heq]
    exact h.tick.set_create i _ fun lsn hl => by
      obtain rfl := CreatePhase.minted.inj hl
      exact Nat.lt_succ_self _
  · rw [heq]
    have hqueue := h.queue ⟨lsn, .sequence c.name c.start false⟩ s.clock (Nat.le_refl _)
      (h.create_lsn c (List.mem_of_getElem? hc) lsn hp) (fun _ ht => nomatch ht)
      (fun _ _ hop => nomatch hop) (fun _ _ hcm => nomatch hcm) (fun _ _ _ _ hcm => nomatch hcm)
    exact hqueue.set_create i _ fun _ hl => nomatch hl
  · rw [heq]
    exact { h with create_lsn := fun d hd => h.create_lsn d (List.mem_of_mem_eraseIdx hd) }

theorem Numbers.genKey (h : Numbers s) (name : ν) (txn : Option Nat) :
    Numbers (s.genKey name txn) := by
  simp only [Sequences.genKey]
  split
  · exact h
  · split
    · next htxn =>
        exact
          { h with
            call_lsn := by
              intro c hc
              rcases List.mem_append.mp hc with hc | hc
              · exact h.call_lsn c hc
              · rw [List.mem_singleton.mp hc]
                exact fun _ hp => nomatch hp
            call_txn := by
              intro c hc t ht
              rcases List.mem_append.mp hc with hc | hc
              · exact h.call_txn c hc t ht
              · rw [List.mem_singleton.mp hc] at ht
                dsimp only at ht
                rw [ht] at htxn
                exact h.inFlight t (of_decide_eq_true htxn) }
    · exact h

theorem Numbers.genKeyStep (h : Numbers s) (i : Nat) : Numbers (s.genKeyStep i) := by
  rcases genKeyStep_cases s i with heq | ⟨c, hc, hcases⟩
  · rw [heq]
    exact h
  rcases hcases with ⟨_, _, _, _, heq⟩ | ⟨_, _, _, _, heq⟩ | ⟨_, heq⟩ | ⟨lsn, hp, heq⟩ |
    ⟨gens, _, _, heq⟩ | ⟨_, heq⟩
  · rw [heq]
    exact h.set_call hc _ fun _ hl => nomatch hl
  · rw [heq]
    exact h.set_call hc _ fun _ hl => nomatch hl
  · rw [heq]
    refine h.tick.set_call hc _ fun lsn hl => ?_
    obtain rfl := GenKeyPhase.minted.inj hl
    exact Nat.lt_succ_self _
  · rw [heq]
    have hqueue := h.queue ⟨lsn, .sequence c.name (newHigh c.value) false⟩ s.clock
      (Nat.le_refl _) (h.call_lsn c (List.mem_of_getElem? hc) lsn hp) (fun _ ht => nomatch ht)
      (fun _ _ hop => nomatch hop) (fun _ _ hcm => nomatch hcm) (fun _ _ _ _ hcm => nomatch hcm)
    exact hqueue.set_call hc _ fun _ hl => nomatch hl
  · rw [heq]
    exact (h.set_gens gens).set_call hc _ fun _ hl => nomatch hl
  · rw [heq]
    exact
      { h with
        call_lsn := fun d hd => h.call_lsn d (List.mem_of_mem_eraseIdx hd)
        call_txn := fun d hd => h.call_txn d (List.mem_of_mem_eraseIdx hd)
        current := by
          intro e he
          rcases List.mem_append.mp he with he | he
          · exact h.current e he
          · rw [List.mem_singleton.mp he]
            dsimp only
            refine ⟨Nat.le_refl _, fun t ht => ?_⟩
            rw [List.take_length]
            exact (h.call_txn c (List.mem_of_getElem? hc) t ht).2 }

theorem Numbers.recover (h : Numbers s) {n : Nat} (hn : n ≤ s.log.length) :
    Numbers (s.recover n) where
  floor_le := h.floor_le
  counter_le := (foldl_max_le _ _).1
  synced_le := by
    simp only [Sequences.recover, List.length_take]
    omega
  lsn_lt := by
    intro r hr
    obtain ⟨hcounter, hissued⟩ := foldl_max_le (s.survivors n) s.counter
    by_cases hlsn : s.floor ≤ r.lsn
    · have hsur : r ∈ s.survivors n := List.mem_filter.mpr ⟨hr, decide_eq_true hlsn⟩
      exact Nat.lt_of_le_of_lt (Nat.le_max_left ..) (hissued r hsur)
    · have hfloor := h.floor_le
      show r.lsn < (s.survivors n).foldl _ s.counter
      omega
  txn_lt := fun r hr => h.txn_lt r (List.mem_of_mem_take hr)
  kept := fun r hr => h.kept r (List.mem_of_mem_take hr)
  call_lsn := fun _ hc => nomatch hc
  create_lsn := fun _ hc => nomatch hc
  inFlight := fun _ ht => nomatch ht
  call_txn := fun _ hc => nomatch hc
  current := fun _ he => nomatch he

end CountingSteps

/-! ## Values are kept apart -/

section Handing

variable {s : Sequences ν}

/-- A step that neither takes nor returns a value, and lowers no sequence. -/
theorem Handed.frame {s' : Sequences ν} (h : Handed s)
    (hkeys : s'.calls.map GenKeyCall.key = s.calls.map GenKeyCall.key)
    (hcurrent : s'.current = s.current) (hhistory : s'.history = s.history)
    (hgens : ∀ name seq, s.gens name = some seq →
      ∃ seq', s'.gens name = some seq' ∧ seq.next ≤ seq'.next) : Handed s' := by
  have hhanded : s'.handed = s.handed := by
    rw [handed, handed, hkeys, hcurrent]
  have hnext : ∀ k : ν × Nat, (∃ seq, s.gens k.1 = some seq ∧ k.2 < seq.next) →
      ∃ seq, s'.gens k.1 = some seq ∧ k.2 < seq.next := by
    rintro k ⟨seq, hseq, hlt⟩
    obtain ⟨seq', hseq', hle⟩ := hgens k.1 seq hseq
    exact ⟨seq', hseq', Nat.lt_of_lt_of_le hlt hle⟩
  refine ⟨hhanded ▸ h.nodup, ?_, ?_, ?_, ?_⟩
  · rw [hhanded]
    exact fun k hk => hnext k (h.lt_next k hk)
  · intro c hc
    have hkey : c.key ∈ s.calls.map GenKeyCall.key := hkeys ▸ List.mem_map_of_mem hc
    obtain ⟨c₀, hc₀, hk⟩ := List.mem_map.mp hkey
    have hval : c₀.value = c.value := congrArg Prod.snd hk
    exact hval ▸ h.bounded c₀ hc₀
  · rw [hhistory]
    exact fun p hp => hnext p (h.past_lt p hp)
  · rw [hhistory, hhanded]
    exact h.past_lt_handed

theorem Handed.call_next (h : Handed s) {c : GenKeyCall ν} (hc : c ∈ s.calls) :
    ∃ seq, s.gens c.name = some seq ∧ c.value < seq.next :=
  h.lt_next c.key (List.mem_append_left _ (List.mem_map_of_mem hc))

/-- A call returns: its value goes from one list to the other. -/
theorem Handed.returned (h : Handed s) {i : Nat} {c : GenKeyCall ν}
    (hc : s.calls[i]? = some c) (position : Nat) :
    Handed { s with
      calls := s.calls.eraseIdx i
      current := s.current ++ [⟨c.name, c.value, c.txn, position⟩] } := by
  obtain ⟨hi, hget⟩ := List.getElem?_eq_some_iff.mp hc
  have hperm : List.Perm ((s.calls.eraseIdx i).map GenKeyCall.key ++
      (s.current ++ [Returned.mk c.name c.value c.txn position]).map Returned.key) s.handed := by
    rw [List.map_append, ← List.append_assoc]
    refine (List.perm_append_singleton c.key _).trans ?_
    have hcalls := (List.getElem_cons_eraseIdx_perm hi).map GenKeyCall.key
    rw [hget] at hcalls
    exact hcalls.append_right _
  refine ⟨hperm.nodup_iff.mpr h.nodup, ?_, ?_, h.past_lt, ?_⟩
  · exact fun k hk => h.lt_next k (hperm.subset hk)
  · exact fun d hd => h.bounded d (List.mem_of_mem_eraseIdx hd)
  · exact fun p hp k hk => h.past_lt_handed p hp k (hperm.subset hk)

variable [DecidableEq ν]

/-- `fetch_add`: `next` is above everything taken from it. -/
theorem Handed.fetch (h : Handed s) {name : ν} {seq : Seq} (hseq : s.gens name = some seq)
    (txn : Option Nat) (hsmall : seq.next + sequenceChunk < valueBound) :
    Handed { s with
      gens := s.gens.insert name { seq with next := (seq.next + 1) % valueBound }
      calls := s.calls ++ [⟨name, txn, seq.next, .fetched⟩] } := by
  have hmod : (seq.next + 1) % valueBound = seq.next + 1 := by
    apply Nat.mod_eq_of_lt
    simp only [sequenceChunk] at hsmall
    omega
  rw [hmod]
  have hnext : ∀ k : ν × Nat, (∃ seq, s.gens k.1 = some seq ∧ k.2 < seq.next) →
      ∃ seq', s.gens.insert name { seq with next := seq.next + 1 } k.1 = some seq' ∧
        k.2 < seq'.next := by
    rintro k ⟨seq', hseq', hlt⟩
    by_cases hname : k.1 = name
    · rw [hname, hseq] at hseq'
      obtain rfl := Option.some.inj hseq'
      rw [hname]
      exact ⟨_, Gens.insert_self .., Nat.lt_succ_of_lt hlt⟩
    · exact ⟨seq', (Gens.insert_of_ne _ _ hname).trans hseq', hlt⟩
  have hperm : List.Perm
      ((s.calls ++ [GenKeyCall.mk name txn seq.next .fetched]).map GenKeyCall.key ++
        s.current.map Returned.key) ((name, seq.next) :: s.handed) := by
    rw [List.map_append]
    exact (List.perm_append_singleton (name, seq.next) _).append_right _
  have hfresh : (name, seq.next) ∉ s.handed := by
    intro hmem
    obtain ⟨seq', hseq', hlt⟩ := h.lt_next _ hmem
    rw [hseq] at hseq'
    obtain rfl := Option.some.inj hseq'
    exact Nat.lt_irrefl _ hlt
  refine ⟨hperm.nodup_iff.mpr (List.nodup_cons.mpr ⟨hfresh, h.nodup⟩), ?_, ?_, ?_, ?_⟩
  · intro k hk
    rcases List.mem_cons.mp (hperm.subset hk) with rfl | hk
    · exact ⟨_, Gens.insert_self .., Nat.lt_succ_self _⟩
    · exact hnext k (h.lt_next k hk)
  · intro c hc
    rcases List.mem_append.mp hc with hc | hc
    · exact h.bounded c hc
    · rw [List.mem_singleton.mp hc]
      exact hsmall
  · exact fun p hp => hnext p (h.past_lt p hp)
  · intro p hp k hk hname
    rcases List.mem_cons.mp (hperm.subset hk) with rfl | hk
    · obtain ⟨seq', hseq', hlt⟩ := h.past_lt p hp
      rw [← hname, hseq] at hseq'
      obtain rfl := Option.some.inj hseq'
      exact hlt
    · exact h.past_lt_handed p hp k hk hname

end Handing

/-! ## What recovery brings back -/

section Recovering

variable {s : Sequences ν} {name : ν} {gens : Gens ν} {n : Nat}

theorem Numbers.kept_survivors (h : Numbers s) (n : Nat) :
    ∀ r ∈ s.survivors n, ∀ name high, r.operation ≠ .sequence name high true :=
  fun r hr => h.kept r (List.mem_of_mem_take (List.mem_filter.mp hr).1)

/-- What a crash moves to the past was covered by what survived it. -/
theorem covers_of_committedBy (hnum : Numbers s) (hcov : Covered s.disk s.floor s)
    {e : Returned ν} (he : e ∈ s.current) (hcommitted : s.committedBy n e = true) :
    Covers s.disk s.floor (s.log.take n) e.name (e.value + 1) := by
  unfold committedBy at hcommitted
  split at hcommitted
  · nomatch hcommitted
  · next txn htxn =>
      obtain ⟨r, hr, hcommit⟩ := List.any_eq_true.mp hcommitted
      have hpos : e.position ≤ n := by
        by_contra hlt
        exact (hnum.current e he).2 txn htxn ⟨r,
          List.take_subset_take_left _ (by omega) hr, eq_of_beq hcommit⟩
      exact (hcov.current e he).mono_log (List.take_subset_take_left _ hpos)

/-- The values of the sequences that have come back differ. -/
theorem Handed.nodup_kept (hh : Handed s) (ha : Apart s.history) : s.kept.Nodup := by
  refine List.nodup_append.mpr ⟨ha.past, (List.nodup_append.mp hh.nodup).2.1, ?_⟩
  rintro p hp _ hk rfl
  exact Nat.lt_irrefl _ (hh.past_lt_handed p hp p (List.mem_append_right _ hk) rfl)

theorem numbered_injective (h : History ν) : Function.Injective h.numbered := by
  rintro ⟨name, value⟩ ⟨name', value'⟩ heq
  obtain ⟨rfl, htag⟩ := Prod.mk.inj heq
  exact Prod.ext rfl (Prod.mk.inj htag).2

/-- No value of an incarnation was returned twice. -/
theorem Handed.nodup_returned (hh : Handed s) (ha : Apart s.history) : s.returned.Nodup := by
  refine List.nodup_append.mpr
    ⟨ha.lost, (hh.nodup_kept ha).map (numbered_injective s.history), ?_⟩
  rintro e he _ hk rfl
  obtain ⟨p, -, rfl⟩ := List.mem_map.mp hk
  exact Nat.lt_irrefl _ (ha.lost_lt _ he)

variable [DecidableEq ν]

theorem ensureAtLeast_self (gens : Gens ν) (name : ν) (atLeast : Nat) :
    ∃ seq, gens.ensureAtLeast name atLeast name = some seq ∧ atLeast ≤ seq.next := by
  cases hg : gens name with
  | none =>
    simp only [Gens.ensureAtLeast, hg]
    exact ⟨_, Gens.insert_self .., Nat.le_refl _⟩
  | some seq =>
    simp only [Gens.ensureAtLeast, hg]
    exact ⟨_, Gens.insert_self .., Nat.le_max_right ..⟩

theorem ensureAtLeast_of_ne (gens : Gens ν) {name' : ν} (atLeast : Nat) (hname : name' ≠ name) :
    gens.ensureAtLeast name atLeast name' = gens name' := by
  cases hg : gens name with
  | none =>
    simp only [Gens.ensureAtLeast, hg]
    exact Gens.insert_of_ne _ _ hname
  | some _ =>
    simp only [Gens.ensureAtLeast, hg]
    exact Gens.insert_of_ne _ _ hname

/-- A mark never lowers a sequence. -/
theorem ensureAtLeast_le (gens : Gens ν) (name : ν) (atLeast : Nat) {name' : ν} {seq : Seq}
    (hseq : gens name' = some seq) :
    ∃ seq', gens.ensureAtLeast name atLeast name' = some seq' ∧ seq.next ≤ seq'.next := by
  by_cases hname : name' = name
  · subst hname
    simp only [Gens.ensureAtLeast, hseq]
    exact ⟨_, Gens.insert_self .., Nat.le_max_left ..⟩
  · exact ⟨seq, (ensureAtLeast_of_ne gens atLeast hname).trans hseq, Nat.le_refl _⟩

/-- A record that drops no sequence is a mark, or nothing to the sequences. -/
theorem replayOne_cases (gens : Gens ν) {r : SeqRecord ν}
    (hkept : ∀ name high, r.operation ≠ .sequence name high true) :
    gens.replayOne r = gens ∨ ∃ name high, r.operation = .sequence name high false ∧
      gens.replayOne r = gens.ensureAtLeast name high := by
  unfold Gens.replayOne
  split
  · next hop => exact absurd hop (hkept _ _)
  · next hop => exact Or.inr ⟨_, _, hop, rfl⟩
  · exact Or.inl rfl

/-- No value of a sequence is below its mark. -/
def AtMark (gens : Gens ν) : Prop := ∀ name seq, gens name = some seq → seq.loggedHigh ≤ seq.next

theorem AtMark.insert (h : AtMark gens) {seq : Seq} (hseq : seq.loggedHigh ≤ seq.next) :
    AtMark (gens.insert name seq) := by
  intro name' seq' hseq'
  by_cases hname : name' = name
  · rw [hname, Gens.insert_self] at hseq'
    exact Option.some.inj hseq' ▸ hseq
  · rw [Gens.insert_of_ne _ _ hname] at hseq'
    exact h name' seq' hseq'

theorem AtMark.raise (h : AtMark gens) (name : ν) (atLeast : Nat) :
    AtMark (gens.ensureAtLeast name atLeast) := by
  unfold Gens.ensureAtLeast
  split
  · next seq hseq =>
      have hle := h name seq hseq
      refine h.insert ?_
      dsimp only
      omega
  · exact h.insert (Nat.le_refl _)

theorem AtMark.replay (h : AtMark gens) (recs : List (SeqRecord ν))
    (hkept : ∀ r ∈ recs, ∀ name high, r.operation ≠ .sequence name high true) :
    AtMark (recs.foldl Gens.replayOne gens) := by
  induction recs generalizing gens with
  | nil => exact h
  | cons r recs ih =>
    refine ih ?_ fun r' hr' => hkept r' (List.mem_cons_of_mem _ hr')
    rcases replayOne_cases gens (hkept r (List.mem_cons_self ..)) with heq | ⟨_, _, -, heq⟩
    · rw [heq]
      exact h
    · rw [heq]
      exact h.raise _ _

/-- Replaying marks lowers no sequence. -/
theorem replay_le (recs : List (SeqRecord ν))
    (hkept : ∀ r ∈ recs, ∀ name high, r.operation ≠ .sequence name high true) {seq : Seq}
    (hseq : gens name = some seq) :
    ∃ seq', recs.foldl Gens.replayOne gens name = some seq' ∧ seq.next ≤ seq'.next := by
  induction recs generalizing gens seq with
  | nil => exact ⟨seq, hseq, Nat.le_refl _⟩
  | cons r recs ih =>
    have hone : ∃ seq', gens.replayOne r name = some seq' ∧ seq.next ≤ seq'.next := by
      rcases replayOne_cases gens (hkept r (List.mem_cons_self ..)) with heq | ⟨_, _, -, heq⟩
      · rw [heq]
        exact ⟨seq, hseq, Nat.le_refl _⟩
      · rw [heq]
        exact ensureAtLeast_le _ _ _ hseq
    obtain ⟨seq₁, hseq₁, hle₁⟩ := hone
    obtain ⟨seq₂, hseq₂, hle₂⟩ := ih (fun r' hr' => hkept r' (List.mem_cons_of_mem _ hr')) hseq₁
    exact ⟨seq₂, hseq₂, Nat.le_trans hle₁ hle₂⟩

/-- Replaying a mark raises its sequence to it. -/
theorem replay_mark {gens : Gens ν} (recs : List (SeqRecord ν))
    (hkept : ∀ r ∈ recs, ∀ name high, r.operation ≠ .sequence name high true)
    {r : SeqRecord ν} (hr : r ∈ recs) {name : ν} {high : Nat}
    (hop : r.operation = .sequence name high false) :
    ∃ seq, recs.foldl Gens.replayOne gens name = some seq ∧ high ≤ seq.next := by
  obtain ⟨before, after, rfl⟩ := List.append_of_mem hr
  rw [List.foldl_append, List.foldl_cons]
  have hone : ∃ seq, (before.foldl Gens.replayOne gens).replayOne r name = some seq ∧
      high ≤ seq.next := by
    simp only [Gens.replayOne, hop]
    exact ensureAtLeast_self ..
  obtain ⟨seq, hseq, hle⟩ := hone
  obtain ⟨seq', hseq', hle'⟩ := replay_le after
    (fun r' hr' => hkept r' (List.mem_append_right _ (List.mem_cons_of_mem _ hr'))) hseq
  exact ⟨seq', hseq', Nat.le_trans hle hle'⟩

/-- A covered mark is reached by the sequence that comes back. -/
theorem recover_next (h : Numbers s) {mark : Nat}
    (hcov : Covers s.disk s.floor (s.log.take n) name mark) :
    ∃ seq, (s.recover n).gens name = some seq ∧ mark ≤ seq.next := by
  rcases hcov with ⟨d, hd, hle⟩ | ⟨r, hr, hlsn, high, hop, hle⟩
  · have hset : Gens.setValues s.disk name = some ⟨d, d⟩ := by
      rw [Gens.setValues, hd]
      rfl
    obtain ⟨seq, hseq, hle'⟩ := replay_le (s.survivors n) (h.kept_survivors n) hset
    exact ⟨seq, hseq, Nat.le_trans hle hle'⟩
  · obtain ⟨seq, hseq, hle'⟩ := @replay_mark _ _ (Gens.setValues s.disk) (s.survivors n)
      (h.kept_survivors n) r (List.mem_filter.mpr ⟨hr, decide_eq_true hlsn⟩) name high hop
    exact ⟨seq, hseq, Nat.le_trans hle hle'⟩

theorem replayOne_back {r : SeqRecord ν}
    (hkept : ∀ name high, r.operation ≠ .sequence name high true)
    (hback : (gens.replayOne r name).isSome = true) :
    (gens name).isSome = true ∨ ∃ high, r.operation = .sequence name high false := by
  rcases replayOne_cases gens hkept with heq | ⟨name', high, hop, heq⟩
  · exact Or.inl (heq ▸ hback)
  · by_cases hname : name = name'
    · exact Or.inr ⟨high, hname ▸ hop⟩
    · left
      rwa [heq, ensureAtLeast_of_ne _ _ hname] at hback

theorem replay_back (recs : List (SeqRecord ν))
    (hkept : ∀ r ∈ recs, ∀ name high, r.operation ≠ .sequence name high true)
    (hback : (recs.foldl Gens.replayOne gens name).isSome = true) :
    (gens name).isSome = true ∨ ∃ r ∈ recs, ∃ high, r.operation = .sequence name high false := by
  induction recs generalizing gens with
  | nil => exact Or.inl hback
  | cons r recs ih =>
    rcases ih (fun r' hr' => hkept r' (List.mem_cons_of_mem _ hr')) hback with hone | hlater
    · refine (replayOne_back (hkept r List.mem_cons_self) hone).imp_right ?_
      exact fun hop => ⟨r, List.mem_cons_self, hop⟩
    · obtain ⟨r', hr', hop⟩ := hlater
      exact Or.inr ⟨r', List.mem_cons_of_mem _ hr', hop⟩

/-- A sequence comes back from the page, or from a record. -/
theorem covers_of_recovered (h : Numbers s) (hback : (s.recoveredGens n name).isSome = true) :
    Covers s.disk s.floor (s.log.take n) name 0 := by
  rcases replay_back _ (h.kept_survivors n) hback with hset | ⟨r, hr, high, hop⟩
  · obtain ⟨seq, hseq⟩ := Option.isSome_iff_exists.mp hset
    obtain ⟨d, hd, -⟩ := Option.map_eq_some_iff.mp hseq
    exact Or.inl ⟨d, hd, Nat.zero_le _⟩
  · obtain ⟨hr, hlsn⟩ := List.mem_filter.mp hr
    exact Or.inr ⟨r, hr, of_decide_eq_true hlsn, high, hop, Nat.zero_le _⟩

/-- Every value of the past is covered by what survived the crash. -/
theorem covers_past (hnum : Numbers s) (hcov : Covered s.disk s.floor s) (hn : s.synced ≤ n)
    (hok : s.CrashCovers n) {p : ν × Nat} (hp : p ∈ (s.recover n).history.past) :
    Covers s.disk s.floor (s.log.take n) p.1 (p.2 + 1) := by
  obtain ⟨hp, hback⟩ := List.mem_filter.mp hp
  rcases List.mem_append.mp hp with hp | hp
  · exact (hcov.past p hp).mono_log (List.take_subset_take_left _ hn)
  · obtain ⟨e, he, rfl⟩ := List.mem_map.mp hp
    cases hcommitted : s.committedBy n e with
    | true => exact covers_of_committedBy hnum hcov he hcommitted
    | false => exact hok e he hcommitted (covers_of_recovered hnum hback)

theorem Handed.recover (hnum : Numbers s) (hcov : Covered s.disk s.floor s) (hn : s.synced ≤ n)
    (hok : s.CrashCovers n) : Handed (s.recover n) where
  nodup := List.nodup_nil
  lt_next := fun _ hk => nomatch hk
  bounded := fun _ hc => nomatch hc
  past_lt := fun _ hp => recover_next hnum (covers_past hnum hcov hn hok hp)
  past_lt_handed := fun _ _ _ hk => nomatch hk

theorem Covered.recover (hnum : Numbers s) (hcov : Covered s.disk s.floor s) (hn : s.synced ≤ n)
    (hok : s.CrashCovers n) : Covered s.disk s.floor (s.recover n) where
  floor_le := Nat.le_trans hnum.floor_le (foldl_max_le _ _).1
  disk_le := by
    intro name d hd
    exact recover_next hnum (Or.inl ⟨d, hd, Nat.le_refl _⟩)
  high := by
    intro name seq hseq
    have hmark : AtMark (Gens.setValues s.disk) := by
      intro name seq hseq
      obtain ⟨d, _, rfl⟩ := Option.map_eq_some_iff.mp hseq
      exact Nat.le_refl _
    exact Or.inr ⟨hmark.replay _ (hnum.kept_survivors n) name seq hseq,
      fun _ hc => nomatch hc⟩
  call := fun _ hc => nomatch hc
  current := fun _ he => nomatch he
  past := by
    intro p hp
    have hcovers := covers_past hnum hcov hn hok hp
    show Covers s.disk s.floor ((s.log.take n).take n) p.1 (p.2 + 1)
    rwa [List.take_take, Nat.min_self]

theorem Apart.recover (ha : Apart s.history) (hnum : Numbers s) (hh : Handed s)
    (hcov : Covered s.disk s.floor s) (hn : s.synced ≤ n) :
    Apart (s.recover n).history := by
  have hkept := hh.nodup_kept ha
  have hsub : List.Sublist (s.recoveredHistory n).lost s.returned :=
    (List.Sublist.refl _).append (List.filter_sublist.map _)
  refine ⟨hkept.filter _, (hh.nodup_returned ha).sublist hsub, ?_, ?_⟩
  · intro e he
    show e.2.1 < if _ then _ else _
    rcases List.mem_append.mp he with he | he
    · have hlt := ha.lost_lt e he
      split
      · exact hlt
      · exact Nat.lt_succ_of_lt hlt
    · obtain ⟨p, hp, rfl⟩ := List.mem_map.mp he
      have hgone := (List.mem_filter.mp hp).2
      rw [if_neg (by simpa [History.numbered] using hgone)]
      exact Nat.lt_succ_self _
  · intro p hp
    have hback : ∀ {q : ν × Nat}, Covers s.disk s.floor (s.log.take n) q.1 (q.2 + 1) →
        (s.recoveredGens n q.1).isSome = true := fun hcovers => by
      obtain ⟨seq, hseq, -⟩ := recover_next hnum hcovers
      exact Option.isSome_iff_exists.mpr ⟨seq, hseq⟩
    rcases List.mem_append.mp hp with hp | hp
    · have hpast := ha.committed hp
      refine List.mem_filter.mpr ⟨List.mem_append_left _ hpast, hback ?_⟩
      exact (hcov.past p hpast).mono_log (List.take_subset_take_left _ hn)
    · obtain ⟨e, he, rfl⟩ := List.mem_map.mp hp
      obtain ⟨he, hcommitted⟩ := List.mem_filter.mp he
      refine List.mem_filter.mpr ⟨List.mem_append_right _ (List.mem_map_of_mem he), hback ?_⟩
      exact covers_of_committedBy hnum hcov he hcommitted

end Recovering

/-! ## Every run -/

section Runs

variable {s : Sequences ν}

theorem persisted_getValues {name : ν} {seq : Seq} (hseq : s.gens name = some seq) {mark : Nat}
    (hle : mark ≤ seq.next) : Persisted s.gens.getValues name mark :=
  ⟨seq.next, by rw [Gens.getValues, hseq]; rfl, hle⟩

/-- Where a checkpoint reads the values and meets the condition, they cover
everything with the records from its floor on. -/
theorem Covered.of_values (hh : Handed s) {floor : Nat} (hfloor : floor ≤ s.clock)
    (hok : s.CheckpointCovers floor) : Covered s.gens.getValues floor s where
  floor_le := hfloor
  disk_le := by
    intro name d hd
    obtain ⟨seq, hseq, rfl⟩ := Option.map_eq_some_iff.mp hd
    exact ⟨seq, hseq, Nat.le_refl _⟩
  high := by
    intro name seq hseq
    exact Or.inl ((hok.1 name seq hseq).imp_left (persisted_getValues hseq))
  call := by
    intro c hc
    obtain ⟨seq, hseq, hlt⟩ := hh.call_next hc
    have hmark := hok.2 c hc seq hseq
    unfold CallCovered
    cases hp : c.phase with
    | fetched => trivial
    | uncovered => trivial
    | minted lsn =>
      rw [hp] at hmark
      exact hmark.symm.imp_right (persisted_getValues hseq)
    | logged =>
      rw [hp] at hmark
      exact hmark.imp_left (persisted_getValues hseq)
    | covered => exact Or.inl (persisted_getValues hseq hlt)
  current := by
    intro e he
    obtain ⟨seq, hseq, hlt⟩ :=
      hh.lt_next e.key (List.mem_append_right _ (List.mem_map_of_mem he))
    exact Or.inl (persisted_getValues hseq hlt)
  past := by
    intro p hp
    obtain ⟨seq, hseq, hlt⟩ := hh.past_lt p hp
    exact Or.inl (persisted_getValues hseq hlt)

/-- A page that is no further back covers no less. -/
theorem Covered.mono_disk {disk disk' : ν → Option Nat} {floor : Nat} (h : Covered disk floor s)
    (hdisk : ∀ name d, disk name = some d → Persisted disk' name d)
    (hle : ∀ name d, disk' name = some d → ∃ seq, s.gens name = some seq ∧ d ≤ seq.next) :
    Covered disk' floor s where
  floor_le := h.floor_le
  disk_le := hle
  high := fun name seq hseq => (h.high name seq hseq).imp_left fun hc => hc.mono_disk hdisk
  call := fun c hc => (h.call c hc).mono_disk hdisk
  current := fun e he => (h.current e he).mono_disk hdisk
  past := fun p hp => (h.past p hp).mono_disk hdisk

theorem retentionFloor_le (s : Sequences ν) : s.retentionFloor ≤ s.clock := by
  have hle : ∀ (ids : List Nat) (init : Nat), ids.foldl min init ≤ init := by
    intro ids
    induction ids with
    | nil => exact fun init => Nat.le_refl _
    | cons id ids ih => exact fun init => Nat.le_trans (ih _) (Nat.min_le_left ..)
  exact hle s.inFlight s.clock

theorem Inv.new : Inv (Sequences.new : Sequences ν) where
  numbers :=
    { floor_le := Nat.zero_le _
      counter_le := Nat.le_refl _
      synced_le := Nat.le_refl _
      lsn_lt := fun _ hr => nomatch hr
      txn_lt := fun _ hr => nomatch hr
      kept := fun _ hr => nomatch hr
      call_lsn := fun _ hc => nomatch hc
      create_lsn := fun _ hc => nomatch hc
      inFlight := fun _ ht => nomatch ht
      call_txn := fun _ hc => nomatch hc
      current := fun _ he => nomatch he }
  handed :=
    { nodup := List.nodup_nil
      lt_next := fun _ hk => nomatch hk
      bounded := fun _ hc => nomatch hc
      past_lt := fun _ hp => nomatch hp
      past_lt_handed := fun _ hp => nomatch hp }
  apart := ⟨List.nodup_nil, List.nodup_nil, (fun _ he => nomatch he), List.nil_subset _⟩
  covered :=
    { floor_le := Nat.zero_le _
      disk_le := fun _ _ hd => nomatch hd
      high := fun _ _ hseq => nomatch hseq
      call := fun _ hc => nomatch hc
      current := fun _ he => nomatch he
      past := fun _ hp => nomatch hp }
  checkpoint := trivial

variable [DecidableEq ν]

/-- `gen_key` takes a value, or nothing happens. -/
theorem genKey_cases (s : Sequences ν) (name : ν) (txn : Option Nat) :
    s.genKey name txn = s ∨ ∃ seq, s.gens name = some seq ∧
      s.genKey name txn = { s with
        gens := s.gens.insert name { seq with next := (seq.next + 1) % valueBound }
        calls := s.calls ++ [⟨name, txn, seq.next, .fetched⟩] } := by
  unfold Sequences.genKey
  split
  · exact Or.inl rfl
  · next seq hseq =>
      split
      · exact Or.inr ⟨seq, hseq, rfl⟩
      · exact Or.inl rfl

/-- A step of `gen_key` keeps coverage. -/
theorem Covered.genKeyStep {disk : ν → Option Nat} {floor : Nat} (h : Covered disk floor s)
    (hh : Handed s) (i : Nat) : Covered disk floor (s.genKeyStep i) := by
  rcases genKeyStep_cases s i with heq | ⟨c, hc, hcases⟩
  · rw [heq]
    exact h
  have hmem : c ∈ s.calls := List.mem_of_getElem? hc
  rcases hcases with ⟨_, _, _, _, heq⟩ | ⟨seq, hp, hseq, hlt, heq⟩ | ⟨_, heq⟩ |
    ⟨lsn, hp, heq⟩ | ⟨gens, hp, hgens, heq⟩ | ⟨hp, heq⟩
  · rw [heq]
    exact h.set_call (Nat.le_refl _) rfl (List.prefix_refl _) rfl rfl rfl hc .uncovered rfl trivial
  · rw [heq]
    refine h.set_call (Nat.le_refl _) rfl (List.prefix_refl _) rfl rfl rfl hc .covered rfl ?_
    -- the value is below the mark, so the mark is not one without a cover
    rcases h.high c.name seq hseq with hcov | ⟨_, hle⟩
    · exact hcov.of_le hlt
    · exact absurd (hle c hmem rfl) (Nat.not_le_of_lt hlt)
  · rw [heq]
    exact h.set_call (Nat.le_succ _) rfl (List.prefix_refl _) rfl rfl rfl hc (.minted s.clock) rfl
      (Or.inl h.floor_le)
  · rw [heq]
    refine h.set_call (Nat.le_refl _) rfl (List.prefix_append _ _) rfl rfl rfl hc .logged rfl ?_
    have hcall := h.call c hmem
    simp only [CallCovered, hp] at hcall
    rcases hcall with hlsn | hdisk
    · exact Or.inr ⟨_, List.mem_append_right _ (List.mem_singleton_self _), hlsn, _, rfl,
        Nat.le_refl _⟩
    · exact Or.inl hdisk
  · rcases hgens with ⟨hnone, _⟩ | ⟨seq, hseq, rfl⟩
    · obtain ⟨seq, hseq, _⟩ := hh.call_next hmem
      rw [hnone] at hseq
      nomatch hseq
    · rw [heq]
      exact h.raise hc hp hseq (hh.bounded c hmem)
  · rw [heq]
    refine h.grow (Nat.le_refl _) rfl (List.prefix_refl _) (Nat.le_refl _) rfl ?_ ?_
    · intro d hd
      have hd := List.mem_of_mem_eraseIdx hd
      exact ⟨h.call d hd, d, hd, rfl⟩
    · intro e he
      rcases List.mem_append.mp he with he | he
      · exact Or.inl he
      · rw [List.mem_singleton.mp he]
        have hcall := h.call c hmem
        simp only [CallCovered, hp] at hcall
        dsimp only
        rw [List.take_length]
        exact Or.inr hcall

/-- Coverage, by whatever page and floor, outlasts every step but a crash. -/
theorem Covered.step {disk : ν → Option Nat} {floor : Nat} (h : Covered disk floor s)
    (hnum : Numbers s) (hh : Handed s) (a : SequenceAction ν) (hok : s.ok a)
    (hcrash : ∀ n, a ≠ .crash n) : Covered disk floor (s.step a) := by
  by_cases hquiet : a.isQuiet = true
  · exact h.quiet (quiet_step hnum.synced_le hquiet)
  cases a with
  | createStep i =>
    simp only [Sequences.step]
    rcases createStep_cases s i with heq | ⟨c, hc, ⟨_, heq⟩ | ⟨lsn, _, heq⟩ | ⟨hp, heq⟩⟩
    · rw [heq]
      exact h
    · rw [heq]
      exact h.quiet { Quiet.refl s with clock := Nat.le_succ _ }
    · rw [heq]
      exact h.quiet { Quiet.refl s with log := List.prefix_append _ _ }
    · rw [heq]
      refine h.create (hok c hc hp) (fun d hd => ?_) _ _
      obtain ⟨seq, hseq, _⟩ := hh.call_next hd
      exact ⟨seq, hseq⟩
  | genKey name txn =>
    simp only [Sequences.step]
    rcases genKey_cases s name txn with heq | ⟨seq, hseq, heq⟩
    · rw [heq]
      exact h
    · rw [heq]
      have hsmall := hok seq hseq
      simp only [sequenceChunk] at hsmall
      exact h.fetch hseq txn (by omega)
  | genKeyStep i => exact h.genKeyStep hh i
  | crash n => exact absurd rfl (hcrash n)
  | _ => exact absurd rfl hquiet

/-- No step but a crash lets two calls take one value. -/
theorem Handed.step (h : Handed s) (hnum : Numbers s) (a : SequenceAction ν) (hok : s.ok a)
    (hcrash : ∀ n, a ≠ .crash n) : Handed (s.step a) := by
  have hsame : ∀ name seq, s.gens name = some seq →
      ∃ seq', s.gens name = some seq' ∧ seq.next ≤ seq'.next :=
    fun _ seq hseq => ⟨seq, hseq, Nat.le_refl _⟩
  by_cases hquiet : a.isQuiet = true
  · have hq := quiet_step hnum.synced_le hquiet
    refine h.frame (congrArg _ hq.calls) hq.current hq.history ?_
    rw [hq.gens]
    exact hsame
  cases a with
  | createStep i =>
    simp only [Sequences.step]
    rcases createStep_cases s i with heq | ⟨c, hc, ⟨_, heq⟩ | ⟨lsn, _, heq⟩ | ⟨hp, heq⟩⟩
    · rw [heq]
      exact h
    · rw [heq]
      exact h.frame rfl rfl rfl hsame
    · rw [heq]
      exact h.frame rfl rfl rfl hsame
    · rw [heq]
      refine h.frame rfl rfl rfl fun name seq hseq => ?_
      have hname : name ≠ c.name := fun hn => by
        rw [hn, hok c hc hp] at hseq
        nomatch hseq
      exact ⟨seq, (Gens.insert_of_ne _ _ hname).trans hseq, Nat.le_refl _⟩
  | genKey name txn =>
    simp only [Sequences.step]
    rcases genKey_cases s name txn with heq | ⟨seq, hseq, heq⟩
    · rw [heq]
      exact h
    · rw [heq]
      exact h.fetch hseq txn (hok seq hseq)
  | genKeyStep i =>
    simp only [Sequences.step]
    rcases genKeyStep_cases s i with heq | ⟨c, hc, hcases⟩
    · rw [heq]
      exact h
    rcases hcases with ⟨_, _, _, _, heq⟩ | ⟨_, _, _, _, heq⟩ | ⟨_, heq⟩ | ⟨_, _, heq⟩ |
      ⟨gens, _, hgens, heq⟩ | ⟨_, heq⟩
    · rw [heq]
      exact h.frame (map_key_set hc rfl) rfl rfl hsame
    · rw [heq]
      exact h.frame (map_key_set hc rfl) rfl rfl hsame
    · rw [heq]
      exact h.frame (map_key_set hc rfl) rfl rfl hsame
    · rw [heq]
      exact h.frame (map_key_set hc rfl) rfl rfl hsame
    · rw [heq]
      refine h.frame (map_key_set hc rfl) rfl rfl fun name seq hseq => ?_
      rcases hgens with ⟨_, rfl⟩ | ⟨seq', hseq', rfl⟩
      · exact ⟨seq, hseq, Nat.le_refl _⟩
      · by_cases hname : name = c.name
        · subst hname
          obtain rfl : seq = seq' := Option.some.inj (hseq.symm.trans hseq')
          exact ⟨_, Gens.insert_self .., Nat.le_refl _⟩
        · exact ⟨seq, (Gens.insert_of_ne _ _ hname).trans hseq, Nat.le_refl _⟩
    · rw [heq]
      exact h.returned hc _
  | crash n => exact absurd rfl (hcrash n)
  | _ => exact absurd rfl hquiet

/-- Only a checkpoint, or a crash, touches what is on disk. -/
theorem step_frame (s : Sequences ν) (a : SequenceAction ν) (hcheckpoint : a ≠ .checkpointStep)
    (hcrash : ∀ n, a ≠ .crash n) :
    (s.step a).checkpointing = s.checkpointing ∧ (s.step a).disk = s.disk ∧
      (s.step a).floor = s.floor ∧ s.clock ≤ (s.step a).clock := by
  cases a with
  | checkpointStep => exact absurd rfl hcheckpoint
  | crash n => exact absurd rfl (hcrash n)
  | _ =>
    simp only [Sequences.step, Sequences.begin, Sequences.write, Sequences.commit,
      Sequences.abort, Sequences.createGenerator, Sequences.createStep, Sequences.genKey,
      Sequences.genKeyStep, Sequences.logNew]
    repeat' split
    all_goals simp

/-- Only a crash touches what was returned before it. -/
theorem step_history (s : Sequences ν) (a : SequenceAction ν) (hcrash : ∀ n, a ≠ .crash n) :
    (s.step a).history = s.history := by
  cases a with
  | crash n => exact absurd rfl (hcrash n)
  | _ =>
    simp only [Sequences.step, Sequences.begin, Sequences.write, Sequences.commit,
      Sequences.abort, Sequences.createGenerator, Sequences.createStep, Sequences.genKey,
      Sequences.genKeyStep, Sequences.checkpointStep, Sequences.logNew]
    repeat' split
    all_goals rfl

/-- A checkpoint on its way stays covered while others take their steps. -/
theorem CheckpointInv.step (h : Inv s) (a : SequenceAction ν) (hok : s.ok a)
    (hcheckpoint : a ≠ .checkpointStep) (hcrash : ∀ n, a ≠ .crash n) :
    CheckpointInv (s.step a) := by
  obtain ⟨hphase, hdisk, _, hclock⟩ := step_frame s a hcheckpoint hcrash
  have hinv := h.checkpoint
  unfold CheckpointInv at hinv ⊢
  rw [hphase, hdisk]
  cases hp : s.checkpointing with
  | idle => trivial
  | floorRead floor =>
    rw [hp] at hinv
    exact Nat.le_trans hinv hclock
  | valuesRead floor values =>
    rw [hp] at hinv
    exact ⟨hinv.1.step h.numbers h.handed a hok hcrash, hinv.2⟩
  | written floor =>
    rw [hp] at hinv
    exact hinv.step h.numbers h.handed a hok hcrash

/-- The steps of a checkpoint, from the floor to the header. -/
theorem Inv.checkpointStep (h : Inv s) (hok : s.ok .checkpointStep) : Inv s.checkpointStep := by
  have hcov : ∀ disk floor, Covered disk floor s → Covered disk floor s.checkpointStep :=
    fun _ _ hc => hc.step h.numbers h.handed .checkpointStep hok fun _ hn => nomatch hn
  have hhanded : Handed s.checkpointStep :=
    h.handed.step h.numbers .checkpointStep hok fun _ hn => nomatch hn
  have hinv := h.checkpoint
  unfold CheckpointInv at hinv
  have hnumbers : Numbers s.checkpointStep := by
    refine h.numbers.checkpointStep fun floor hp => ?_
    rw [hp] at hinv
    exact hinv.floor_le
  have hapart : Apart s.checkpointStep.history :=
    (step_history s .checkpointStep fun _ hn => nomatch hn) ▸ h.apart
  refine ⟨hnumbers, hhanded, hapart, ?_, ?_⟩
  · have hcovered := hcov _ _ h.covered
    cases hp : s.checkpointing with
    | idle =>
      simp only [Sequences.checkpointStep, hp] at hcovered ⊢
      exact hcovered
    | floorRead floor =>
      simp only [Sequences.checkpointStep, hp] at hcovered ⊢
      exact hcovered
    | valuesRead floor values =>
      rw [hp] at hinv
      have hmono := h.covered.mono_disk hinv.2 hinv.1.disk_le
      have hnext := hcov _ _ hmono
      simp only [Sequences.checkpointStep, hp] at hnext ⊢
      exact hnext
    | written floor =>
      rw [hp] at hinv
      have hnext := hcov _ _ hinv
      simp only [Sequences.checkpointStep, hp] at hnext ⊢
      exact hnext
  · unfold CheckpointInv
    cases hp : s.checkpointing with
    | idle =>
      simp only [Sequences.checkpointStep, hp]
      exact retentionFloor_le s
    | floorRead floor =>
      rw [hp] at hinv
      have hvalues := hcov _ _ (Covered.of_values h.handed hinv (hok floor hp))
      simp only [Sequences.checkpointStep, hp] at hvalues ⊢
      refine ⟨hvalues, fun name d hd => ?_⟩
      obtain ⟨seq, hseq, hle⟩ := h.covered.disk_le name d hd
      exact persisted_getValues hseq hle
    | valuesRead floor values =>
      rw [hp] at hinv
      have hnext := hcov _ _ hinv.1
      simp only [Sequences.checkpointStep, hp] at hnext ⊢
      exact hnext
    | written floor =>
      simp only [Sequences.checkpointStep, hp]

theorem Inv.crash (h : Inv s) {n : Nat} (hok : s.CrashCovers n) : Inv (s.crash n) := by
  unfold Sequences.crash
  split
  · next hn =>
      exact ⟨h.numbers.recover hn.2, Handed.recover h.numbers h.covered hn.1 hok,
        h.apart.recover h.numbers h.handed h.covered hn.1,
        Covered.recover h.numbers h.covered hn.1 hok, trivial⟩
  · exact h

theorem Numbers.step (h : Numbers s) (a : SequenceAction ν) (hcheckpoint : a ≠ .checkpointStep)
    (hcrash : ∀ n, a ≠ .crash n) : Numbers (s.step a) := by
  cases a with
  | begin => exact h.begin
  | write txn => exact h.write txn
  | commit txn => exact h.commit txn
  | abort txn => exact h.abort txn
  | createGenerator name start => exact h.createGenerator name start
  | createStep i => exact h.createStep i
  | genKey name txn => exact h.genKey name txn
  | genKeyStep i => exact h.genKeyStep i
  | checkpointStep => exact absurd rfl hcheckpoint
  | sync n =>
    have hle := h.synced_le
    exact { h with synced_le := by simp only [Sequences.step]; omega }
  | crash n => exact absurd rfl (hcrash n)

theorem Inv.step (h : Inv s) (a : SequenceAction ν) (hok : s.ok a) : Inv (s.step a) := by
  by_cases hcrash : ∃ n, a = .crash n
  · obtain ⟨n, rfl⟩ := hcrash
    exact h.crash hok
  have hcrash : ∀ n, a ≠ .crash n := fun n hn => hcrash ⟨n, hn⟩
  by_cases hcheckpoint : a = .checkpointStep
  · subst hcheckpoint
    exact h.checkpointStep hok
  obtain ⟨_, hdisk, hfloor, _⟩ := step_frame s a hcheckpoint hcrash
  have hcovered := h.covered.step h.numbers h.handed a hok hcrash
  rw [← hdisk, ← hfloor] at hcovered
  exact ⟨h.numbers.step a hcheckpoint hcrash, h.handed.step h.numbers a hok hcrash,
    (step_history s a hcrash) ▸ h.apart, hcovered,
    CheckpointInv.step h a hok hcheckpoint hcrash⟩

/-- The states that runs meeting the condition lead to. -/
def Reachable : Sequences ν → Prop := Lib.Reachable step ok new

theorem Reachable.inv (h : Reachable s) : Inv s :=
  Lib.Reachable.invariant Inv.new (fun _ a hi hok => hi.step a hok) h

/-- Sequences never repeat, along every run that meets the condition: what is returned since
the database was opened is greater than what was returned, before a crash, to a transaction
whose `Commit` survived it; and of all the values that were ever returned, none is the same
value of the same incarnation of a name. -/
theorem values_never_repeat (h : Reachable s) :
    (∀ e ∈ s.current, ∀ p ∈ s.history.committed, p.1 = e.name → p.2 < e.value) ∧
      s.returned.Nodup := by
  have hh := h.inv.handed
  constructor
  · intro e he p hp hname
    have hmem : e.key ∈ s.handed := List.mem_append_right _ (List.mem_map_of_mem he)
    exact hh.past_lt_handed p (h.inv.apart.committed hp) e.key hmem hname.symm
  · exact hh.nodup_returned h.inv.apart

end Runs

/-! ## Two runs

Of a database with one sequence. -/

/-- A call of `create_generator`, from its check to its end. -/
def createSchedule : List (SequenceAction Unit) :=
  [.createGenerator () none, .createStep 0, .createStep 0, .createStep 0]

/-- A call of `gen_key` whose value is past the mark. -/
def loggingSchedule (txn : Option Nat) : List (SequenceAction Unit) :=
  [.genKey () txn, .genKeyStep 0, .genKeyStep 0, .genKeyStep 0, .genKeyStep 0, .genKeyStep 0]

/-- A call of `gen_key` whose value is below the mark. -/
def coveredSchedule (txn : Option Nat) : List (SequenceAction Unit) :=
  [.genKey () txn, .genKeyStep 0, .genKeyStep 0]

def checkpointSchedule : List (SequenceAction Unit) :=
  [.checkpointStep, .checkpointStep, .checkpointStep, .checkpointStep]

theorem genKey_ok {s : Sequences Unit} {seq : Seq} (txn : Option Nat)
    (hseq : s.gens () = some seq) (hsmall : seq.next + sequenceChunk < valueBound) :
    s.ok (.genKey () txn) := by
  intro seq' hseq'
  rw [hseq] at hseq'
  exact Option.some.inj hseq' ▸ hsmall

theorem loggingSchedule_allowed {s : Sequences Unit} {seq : Seq} (txn : Option Nat)
    (hseq : s.gens () = some seq) (hsmall : seq.next + sequenceChunk < valueBound) :
    Lib.Allowed step ok s (loggingSchedule txn) :=
  ⟨genKey_ok txn hseq hsmall, trivial, trivial, trivial, trivial, trivial, trivial⟩

/-- A transaction takes the first value of the sequence. -/
def firstValue : List (SequenceAction Unit) :=
  createSchedule ++ [.begin] ++ loggingSchedule (some 2)

/-- A second value is returned to no transaction. -/
def twoValues : List (SequenceAction Unit) := firstValue ++ coveredSchedule none

/-- A checkpoint completes while the transaction is open; then it commits, the
database crashes, and the next value is asked for. -/
def openAcrossCheckpoint : List (SequenceAction Unit) :=
  twoValues ++ checkpointSchedule ++ [.commit 2, .crash 3] ++ loggingSchedule none

/-- The mark's record is above the floor, which is the transaction's id. -/
theorem twoValues_covers :
    CheckpointCovers (step (Lib.run step new twoValues) .checkpointStep) 2 := by
  refine ⟨fun _ seq hseq => Or.inr ?_, fun c hc => nomatch hc⟩
  obtain rfl : (⟨2, 32⟩ : Seq) = seq := Option.some.inj hseq
  exact ⟨⟨3, .sequence () 32 false⟩, by decide, by decide, 32, rfl, Nat.le_refl _⟩

/-- The crash leaves that record too, for the value that was returned to nobody. -/
theorem openAcrossCheckpoint_covers :
    CrashCovers (Lib.run step new (twoValues ++ checkpointSchedule ++ [.commit 2])) 3 := by
  intro e he _ _
  refine Or.inr ⟨⟨3, .sequence () 32 false⟩, by decide, by decide, 32, rfl, ?_⟩
  have hvalues : ∀ e ∈ (Lib.run step new (twoValues ++ checkpointSchedule ++
      [.commit 2])).current, e.value + 1 ≤ 32 := by decide
  exact hvalues e he

theorem openAcrossCheckpoint_allowed : Lib.Allowed step ok new openAcrossCheckpoint := by
  have hcreate : Lib.Allowed step ok new (createSchedule ++ [.begin]) :=
    ⟨trivial, fun _ _ _ => rfl, fun _ _ _ => rfl, fun _ _ _ => rfl, trivial, trivial⟩
  have hfirst : Lib.Allowed step ok new firstValue :=
    hcreate.append (loggingSchedule_allowed (some 2) rfl (by decide))
  have htwo : Lib.Allowed step ok new twoValues :=
    hfirst.append ⟨genKey_ok none rfl (by decide), trivial, trivial, trivial⟩
  have hcheckpoint : Lib.Allowed step ok (Lib.run step new twoValues) checkpointSchedule := by
    refine ⟨(fun _ hp => nomatch hp), fun floor hp => ?_, (fun _ hp => nomatch hp),
      (fun _ hp => nomatch hp), trivial⟩
    obtain rfl : 2 = floor := CheckpointPhase.floorRead.inj hp
    exact twoValues_covers
  have hcrash : Lib.Allowed step ok (Lib.run step new (twoValues ++ checkpointSchedule))
      [.commit 2, .crash 3] := ⟨trivial, openAcrossCheckpoint_covers, trivial⟩
  exact ((htwo.append hcheckpoint).append hcrash).append
    (loggingSchedule_allowed none rfl (by decide))

/-- The transaction was given 0, nobody 1, and the next value is 32. -/
theorem values_never_repeat_crashed :
    ∃ s : Sequences Unit, s.current.map Returned.key = [((), 32)] ∧
      s.history.committed = [((), 0)] ∧ s.returned = [((), 0, 0), ((), 0, 1), ((), 0, 32)] ∧
      (∀ e ∈ s.current, ∀ p ∈ s.history.committed, p.1 = e.name → p.2 < e.value) ∧
        s.returned.Nodup :=
  ⟨Lib.run step new openAcrossCheckpoint, by decide, by decide, by decide +kernel,
    values_never_repeat (Lib.reachable_run _ openAcrossCheckpoint_allowed)⟩

/-- A checkpoint inside a chunk: it persists the next value, 1, and its floor
drops the record that covers the chunk.  The transaction that is given 1 logs
none, commits, and the database crashes. -/
def checkpointInsideChunk : List (SequenceAction Unit) :=
  firstValue ++ [.commit 2] ++ checkpointSchedule ++ [.begin] ++ coveredSchedule (some 5) ++
    [.commit 5, .crash 4, .begin] ++ loggingSchedule (some 7)

/-- A value is returned before its mark's record is on disk, and a crash leaves the record
of the sequence without it. -/
def markNotSynced : List (SequenceAction Unit) :=
  createSchedule ++ [.sync 1] ++ loggingSchedule none ++ [.crash 1] ++ loggingSchedule none

/-- Every record survives, and yet a committed transaction's value is returned
again; and so is a value whose mark was lost. -/
theorem value_returned_again :
    (¬ ∀ s : Sequences Unit, Lib.Reachable step (fun _ _ => True) new s →
      (∀ e ∈ s.current, ∀ p ∈ s.history.committed, p.1 = e.name → p.2 < e.value) ∧
        s.returned.Nodup) ∧
      (Lib.run step new markNotSynced).returned = [((), 0, 0), ((), 0, 0)] := by
  refine ⟨fun h => ?_, by decide +kernel⟩
  have hreach : Lib.Reachable step (fun _ _ => True) new
      (Lib.run step new checkpointInsideChunk) :=
    Lib.reachable_run _ (Lib.allowed_true _ _)
  have hrepeat : ¬ ∀ e ∈ (Lib.run step new checkpointInsideChunk).current,
      ∀ p ∈ (Lib.run step new checkpointInsideChunk).history.committed,
        p.1 = e.name → p.2 < e.value := by
    decide
  exact hrepeat (h _ hreach).1

end Sequences

end SquealDb.Store
