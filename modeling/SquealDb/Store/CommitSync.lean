import SquealDb.Store.LogQueue

/-!
# A commit and its sync

A ticket is a count of records, read from `queued` after the record was sent;
the writer counts in `synced` the records that it has synced.  As a record is
counted before it is sent, and the channel is a queue, a ticket that `synced`
has reached covers the record it was read for.

It may cover more: a record that was counted before the ticket was read and sent
behind the record it was read for.  If that one demands no sync, none may come.
-/

namespace SquealDb.Store

namespace LogQueue

variable {κ δ : Type*}

/-! ## The invariant -/

/-- What is known of a thread's call: where its record came, and that its ticket,
once reached, covers it. -/
def SenderOk (sent : List (LogRecord κ δ)) (synced : Nat) : Sender κ δ → Prop
  | .sent r pos => sent[pos]? = some r
  | .waiting r pos ticket => sent[pos]? = some r ∧ pos < ticket
  | .returned r pos _ => sent[pos]? = some r ∧ pos < synced
  | _ => True

theorem SenderOk.mono {sent sent' : List (LogRecord κ δ)} {synced synced' : Nat} {t : Sender κ δ}
    (h : SenderOk sent synced t) (hsent : sent <+: sent') (hsynced : synced ≤ synced') :
    SenderOk sent' synced' t := by
  have hget : ∀ {pos : Nat} {r : LogRecord κ δ}, sent[pos]? = some r → sent'[pos]? = some r := by
    intro pos r hr
    obtain ⟨rest, rfl⟩ := hsent
    obtain ⟨hlt, -⟩ := List.getElem?_eq_some_iff.mp hr
    rw [List.getElem?_append_left hlt]
    exact hr
  cases t with
  | sent r pos => exact hget h
  | waiting r pos ticket => exact ⟨hget h.1, h.2⟩
  | returned r pos ticket => exact ⟨hget h.1, Nat.lt_of_lt_of_le h.2 hsynced⟩
  | idle => trivial
  | counted r ticketed => trivial
  | syncing => trivial
  | failed => trivial

/-- The queue's invariant. -/
structure Inv (s : LogQueue κ δ) : Prop where
  /-- The file, the batch and the channel are the records in the order of
  sending. -/
  order : s.file ++ s.runner.batch ++ s.inChannel = s.sent
  batch : s.runner.phase = .written ∨ s.runner.phase = .synced → s.runner.batch = []
  counts : s.synced + s.runner.unsyncedRecords = s.file.length
  covered : s.synced ≤ s.durable
  inFile : s.durable ≤ s.file.length
  flushed : s.runner.phase = .synced → s.durable = s.file.length
  /-- A record is counted before it is sent. -/
  queued : s.sent.length + s.senders.countP isCounted ≤ s.queued
  senders : ∀ t ∈ s.senders, SenderOk s.sent s.synced t

theorem inv_init (n : Nat) : Inv (init n : LogQueue κ δ) where
  order := rfl
  batch h := rfl
  counts := rfl
  covered := Nat.le_refl _
  inFile := Nat.le_refl _
  flushed h := rfl
  queued := by
    simp only [init, List.length_nil, Nat.zero_add, List.countP_replicate]
    exact Nat.le_refl _
  senders t ht := by
    obtain ⟨-, rfl⟩ := List.mem_replicate.mp ht
    trivial

namespace Inv

variable {s : LogQueue κ δ}

/-- Setting a thread to a state that is not counted. -/
theorem setSender (h : Inv s) {i : Nat} {t : Sender κ δ} (ht : SenderOk s.sent s.synced t)
    (hcount : isCounted t = false) : Inv (s.setSender i t) := by
  refine { h with queued := ?_, senders := ?_ }
  · refine Nat.le_trans (Nat.add_le_add_left ?_ _) h.queued
    simp only [LogQueue.setSender]
    by_cases hi : i < s.senders.length
    · rw [List.countP_set hi, hcount]
      simp
    · exact Nat.le_of_eq (by rw [List.set_eq_of_length_le (Nat.le_of_not_lt hi)])
  · intro u hu
    rcases List.mem_or_eq_of_mem_set hu with hu | rfl
    · exact h.senders u hu
    · exact ht

theorem count (h : Inv s) (i : Nat) (r : LogRecord κ δ) (ticketed : Bool) :
    Inv (s.count i r ticketed) := by
  unfold LogQueue.count
  split
  · next t hi =>
      split
      · refine { h with queued := ?_, senders := ?_ }
        · have hlt := (List.getElem?_eq_some_iff.mp hi).1
          have hq := h.queued
          have hset : (s.senders.set i (.counted r ticketed)).countP isCounted ≤
              s.senders.countP isCounted + 1 := by
            rw [List.countP_set hlt]
            simp only [isCounted, if_true]
            omega
          simp only [LogQueue.setSender]
          omega
        · intro u hu
          rcases List.mem_or_eq_of_mem_set hu with hu | rfl
          · exact h.senders u hu
          · trivial
      · exact h
  · exact h

theorem send (h : Inv s) (i : Nat) : Inv (s.send i) := by
  unfold LogQueue.send
  split
  · next r ticketed hi =>
      split
      · exact h.setSender trivial rfl
      · have hlt := (List.getElem?_eq_some_iff.mp hi).1
        have hprefix : s.sent <+: s.sent ++ [r] := List.prefix_append _ _
        refine { h with order := ?_, queued := ?_, senders := ?_ }
        · simp only [LogQueue.setSender, inChannel, List.filterMap_append, ← List.append_assoc]
          rw [← h.order]
          rfl
        · have hold : s.senders[i] = .counted r ticketed := (List.getElem?_eq_some_iff.mp hi).2
          have hq := h.queued
          have hpos : 0 < s.senders.countP isCounted :=
            List.countP_pos_iff.mpr ⟨_, List.getElem_mem hlt, by rw [hold]; rfl⟩
          have hnew : isCounted (if ticketed then .sent r s.sent.length else .idle : Sender κ δ) =
              false := by
            cases ticketed <;> rfl
          simp only [LogQueue.setSender, List.countP_set hlt, hold, hnew, List.length_append,
            List.length_singleton]
          simp only [isCounted, if_true, Bool.false_eq_true, if_false]
          omega
        · intro u hu
          rcases List.mem_or_eq_of_mem_set hu with hu | rfl
          · exact (h.senders u hu).mono hprefix (Nat.le_refl _)
          · cases ticketed with
            | false => trivial
            | true => exact List.getElem?_concat_length
  · exact h

theorem readTicket (h : Inv s) (i : Nat) : Inv (s.readTicket i) := by
  unfold LogQueue.readTicket
  split
  · next r pos hi =>
      have hsent : s.sent[pos]? = some r := h.senders _ (List.mem_of_getElem? hi)
      have hlt := (List.getElem?_eq_some_iff.mp hsent).1
      have hq := h.queued
      exact h.setSender ⟨hsent, by omega⟩ rfl
  · exact h

theorem waitUntilSynced (h : Inv s) (i : Nat) : Inv (s.waitUntilSynced i) := by
  unfold LogQueue.waitUntilSynced
  split
  · next r pos ticket hi =>
      split
      · next hge =>
          have hwait : s.sent[pos]? = some r ∧ pos < ticket :=
            h.senders _ (List.mem_of_getElem? hi)
          exact h.setSender ⟨hwait.1, Nat.lt_of_lt_of_le hwait.2 hge⟩ rfl
      · exact h
  · exact h

theorem sendSpecial (h : Inv s) (i : Nat) {msg : LogMsg κ δ} (hmsg : msg.record? = none) :
    Inv (s.sendSpecial i msg) := by
  unfold LogQueue.sendSpecial
  split
  · split
    · split
      · exact h.setSender trivial rfl
      · have hsent : Inv { s with channel := s.channel ++ [msg] } := by
          refine { h with order := ?_ }
          simp only [inChannel, List.filterMap_append, List.filterMap_cons, hmsg,
            List.filterMap_nil, List.append_nil]
          exact h.order
        exact hsent.setSender trivial rfl
    · exact h
  · exact h

theorem recv (h : Inv s) : Inv s.recv := by
  unfold LogQueue.recv
  split
  · next hcond =>
      obtain ⟨hphase, -, -⟩ := hcond
      have hnot : ¬ (s.runner.phase = .written ∨ s.runner.phase = .synced) := by simp [hphase]
      split
      · exact h
      · next r rest hch =>
          refine { h with order := ?_, batch := fun hp => absurd hp hnot, flushed := h.flushed }
          have horder := h.order
          simp only [inChannel, hch, List.filterMap_cons, LogMsg.record?] at horder ⊢
          simpa using horder
      · next msg rest hmsg hch =>
          refine { h with order := ?_, batch := fun hp => absurd hp hnot, flushed := h.flushed }
          have hnone : msg.record? = none := by
            cases msg with
            | record r => exact absurd rfl (hmsg r)
            | sync i => rfl
            | roll i floor => rfl
          have horder := h.order
          simp only [inChannel, hch, List.filterMap_cons, hnone] at horder ⊢
          exact horder
  · exact h

theorem endBatch (h : Inv s) : Inv s.endBatch := by
  unfold LogQueue.endBatch
  split
  · refine { h with
      order := by simpa [inChannel] using h.order
      batch := fun _ => rfl
      counts := ?_
      inFile := ?_
      flushed := (fun hp => nomatch hp) }
    · have hc := h.counts
      simp only [List.length_append]
      omega
    · have hf := h.inFile
      simp only [List.length_append]
      omega
  · exact h

theorem reply (h : Inv s) (i : Nat) : Inv (s.reply i) := by
  unfold LogQueue.reply
  split
  · exact h.setSender trivial rfl
  · exact h

theorem finishBatch (h : Inv s) (hbatch : s.runner.batch = []) : Inv s.finishBatch := by
  have hfresh : Inv { s with
      runner := freshBatch s.runner.unsyncedRecords s.runner.unsyncedLsn } := by
    refine { h with
      order := ?_
      batch := fun _ => rfl
      flushed := (fun hp => nomatch hp) }
    have horder := h.order
    rw [hbatch] at horder
    exact horder
  unfold LogQueue.finishBatch
  dsimp only
  split
  · exact hfresh.reply _
  · exact hfresh.reply _
  · exact hfresh

theorem fsync (h : Inv s) : Inv s.fsync := by
  unfold LogQueue.fsync
  split
  · next hphase =>
      have hbatch := h.batch (Or.inl hphase)
      split
      · refine { h with
          batch := fun _ => hbatch
          covered := ?_
          inFile := Nat.le_refl _
          flushed := fun _ => rfl }
        exact Nat.le_trans h.covered h.inFile
      · exact h.finishBatch hbatch
  · exact h

theorem mark (h : Inv s) : Inv s.mark := by
  unfold LogQueue.mark
  split
  · next hphase =>
      have hbatch := h.batch (Or.inr hphase)
      have hdur := h.flushed hphase
      have hc := h.counts
      refine finishBatch (s := { s with
          synced := s.synced + s.runner.unsyncedRecords
          lastWritten := max s.lastWritten (s.runner.unsyncedLsn.getD 0)
          runner := { s.runner with unsyncedRecords := 0, unsyncedLsn := none } }) ?_ hbatch
      refine { h with
        counts := hc
        covered := ?_
        senders := fun t ht => (h.senders t ht).mono (List.prefix_refl _) (Nat.le_add_right _ _) }
      dsimp only
      omega
  · exact h

end Inv

theorem inv_step (s : LogQueue κ δ) (a : QueueAction κ δ) (h : Inv s) : Inv (step s a) := by
  cases a with
  | log i r => exact h.count i r false
  | logTicketed i r => exact h.count i r true
  | send i => exact h.send i
  | readTicket i => exact h.readTicket i
  | waitUntilSynced i => exact h.waitUntilSynced i
  | sync i => exact h.sendSpecial i rfl
  | roll i floor => exact h.sendSpecial i rfl
  | recv => exact h.recv
  | endBatch => exact h.endBatch
  | fsync => exact h.fsync
  | mark => exact h.mark
  | ioError =>
    exact { h with
      batch := (fun hp => by rcases hp with hp | hp <;> cases hp)
      flushed := (fun hp => nomatch hp) }

/-- When the wait for a ticket has returned, its record is in the synced part of
the log, with all that were sent before it, in the order of sending. -/
theorem synced_commit_is_on_disk {n : Nat} {s : LogQueue κ δ} (h : Reachable n s)
    {r : LogRecord κ δ} {pos ticket : Nat} (hret : .returned r pos ticket ∈ s.senders) :
    s.sent[pos]? = some r ∧ s.sent.take (pos + 1) <+: s.file.take s.durable := by
  have hinv : Inv s := h.invariant (inv_init n) fun s a hs _ => inv_step s a hs
  obtain ⟨hsent, hlt⟩ : s.sent[pos]? = some r ∧ pos < s.synced := hinv.senders _ hret
  refine ⟨hsent, ?_⟩
  have hdur : pos + 1 ≤ s.durable := Nat.le_trans hlt hinv.covered
  have hfile : s.file.take s.durable = s.sent.take s.durable := by
    rw [← hinv.order, List.append_assoc, List.take_append_of_le_length hinv.inFile]
  rw [hfile]
  exact List.take_prefix_take_left hdur

/-- Two transactions commit; the second's record is sent and received first, and the first one
waits for both. -/
def commitsInterleaved : LogQueue Nat Nat :=
  Lib.run step (init 2) [.logTicketed 0 ⟨1, .commit 1⟩, .logTicketed 1 ⟨2, .commit 2⟩, .send 1,
    .send 0, .readTicket 0, .recv, .readTicket 1, .recv, .endBatch, .fsync, .mark,
    .waitUntilSynced 0]

theorem synced_commit_is_on_disk_interleaved :
    .returned ⟨1, .commit 1⟩ 1 2 ∈ commitsInterleaved.senders ∧
      commitsInterleaved.sent = [⟨2, .commit 2⟩, ⟨1, .commit 1⟩] ∧
      commitsInterleaved.sent.take 2 <+:
        commitsInterleaved.file.take commitsInterleaved.durable := by
  have hreach : Reachable 2 commitsInterleaved := Lib.reachable_run _ (Lib.allowed_true _ _)
  have hret : .returned ⟨1, .commit 1⟩ 1 2 ∈ commitsInterleaved.senders := List.mem_cons_self
  exact ⟨hret, rfl, (synced_commit_is_on_disk hreach hret).2⟩

/-! ## Who syncs -/

/-- A record that demands a sync. -/
def demands (r : LogRecord κ δ) : Bool := r.operation.demandsSync

/-- A thread that has counted such a record and not sent it. -/
def countedSync : Sender κ δ → Bool
  | .counted r _ => demands r
  | _ => false

/-- When a ticket is read, every record that it covers and that is not ahead of
the `Commit` it is read for demands a sync: those sent behind it, and those
counted and not sent yet. -/
def CoversSyncs (s : LogQueue κ δ) : QueueAction κ δ → Prop
  | .readTicket i => ∀ r pos, s.senders[i]? = some (.sent r pos) →
      (∀ r' ∈ s.sent.drop (pos + 1), demands r' = true) ∧
        ∀ t ∈ s.senders, isCounted t = true → countedSync t = true
  | _ => True

/-- Every thread has finished its call, and the writer has drained the channel
and waits for a message. -/
structure Drained (s : LogQueue κ δ) : Prop where
  senders : ∀ t ∈ s.senders, t.finished = true
  channel : s.channel = []
  phase : s.runner.phase = .collecting
  taken : s.runner.taken = 0

/-- A ticket covers no more records than demand a sync, of those from its own
record on. -/
def TicketOk (s : LogQueue κ δ) : Sender κ δ → Prop
  | .waiting r pos ticket => demands r = true →
      ticket ≤ pos + (s.sent.drop pos).countP demands + s.senders.countP countedSync
  | _ => True

/-- A ticket stays good as long as the records that demand a sync, sent or
counted, do not get fewer. -/
theorem TicketOk.mono {s s' : LogQueue κ δ} {t : Sender κ δ} (h : TicketOk s t)
    (hle : ∀ r pos ticket, t = .waiting r pos ticket →
      (s.sent.drop pos).countP demands + s.senders.countP countedSync ≤
        (s'.sent.drop pos).countP demands + s'.senders.countP countedSync) : TicketOk s' t := by
  cases t with
  | waiting r pos ticket =>
    intro hr
    have hold : ticket ≤ pos + (s.sent.drop pos).countP demands +
        s.senders.countP countedSync := h hr
    have hnew := hle r pos ticket rfl
    omega
  | idle => trivial
  | counted r ticketed => trivial
  | sent r pos => trivial
  | returned r pos ticket => trivial
  | syncing => trivial
  | failed => trivial

theorem countedSync_of_not_isCounted {t : Sender κ δ} (h : isCounted t = false) :
    countedSync t = false := by
  cases t with
  | counted r ticketed => cases h
  | idle => rfl
  | sent r pos => rfl
  | waiting r pos ticket => rfl
  | returned r pos ticket => rfl
  | syncing => rfl
  | failed => rfl

theorem isCounted_of_free {t : Sender κ δ} (h : t.free = true) : isCounted t = false := by
  cases t with
  | counted r ticketed => cases h
  | idle => rfl
  | sent r pos => rfl
  | waiting r pos ticket => rfl
  | returned r pos ticket => rfl
  | syncing => rfl
  | failed => rfl

/-- What the writer owes: everything that demands a sync is synced, or will be at
the end of the batch. -/
structure SyncInv (s : LogQueue κ δ) : Prop extends Inv s where
  taken : s.runner.batch.length ≤ s.runner.taken
  alive : s.runner.phase ≠ .stopped → s.queued = s.sent.length + s.senders.countP isCounted
  collecting : s.runner.phase = .collecting →
    (∀ r ∈ s.file.drop s.synced, demands r = false) ∧
      (s.runner.needsSync = false → ∀ r ∈ s.runner.batch, demands r = false)
  written : s.runner.phase = .written → s.runner.needsSync = false →
    ∀ r ∈ s.file.drop s.synced, demands r = false
  tickets : s.runner.phase ≠ .stopped → ∀ t ∈ s.senders, TicketOk s t

theorem syncInv_init (n : Nat) : SyncInv (init n : LogQueue κ δ) where
  toInv := inv_init n
  taken := Nat.le_refl _
  alive _ := by
    simp only [init, List.length_nil, Nat.zero_add, List.countP_replicate]
    rfl
  collecting _ := ⟨(fun _ hr => nomatch hr), (fun _ _ hr => nomatch hr)⟩
  written h := nomatch h
  tickets _ t ht := by
    obtain ⟨-, rfl⟩ := List.mem_replicate.mp ht
    trivial

/-- How a count of threads changes as one of them moves on. -/
theorem countP_set_add {l : List (Sender κ δ)} (p : Sender κ δ → Bool) {i : Nat} {u : Sender κ δ}
    (hi : l[i]? = some u) (t : Sender κ δ) :
    (l.set i t).countP p + (if p u then 1 else 0) = l.countP p + if p t then 1 else 0 := by
  obtain ⟨hlt, hu⟩ := List.getElem?_eq_some_iff.mp hi
  have hle : (if p u then 1 else 0) ≤ l.countP p := by
    split
    · next hp => exact List.countP_pos_iff.mpr ⟨u, hu ▸ List.getElem_mem hlt, hp⟩
    · exact Nat.zero_le _
  rw [List.countP_set hlt, hu]
  omega

namespace SyncInv

variable {s : LogQueue κ δ}

/-- A thread moves on without counting or sending. -/
theorem setSender (h : SyncInv s) {i : Nat} {u t : Sender κ δ} (hi : s.senders[i]? = some u)
    (ht : SenderOk s.sent s.synced t) (hu : isCounted u = false) (hcount : isCounted t = false)
    (hticket : s.runner.phase ≠ .stopped → TicketOk s t) : SyncInv (s.setSender i t) := by
  have hsame : (s.senders.set i t).countP isCounted = s.senders.countP isCounted := by
    have hadd := countP_set_add isCounted hi t
    simpa [hu, hcount] using hadd
  have hsame' : (s.senders.set i t).countP countedSync = s.senders.countP countedSync := by
    have hadd := countP_set_add countedSync hi t
    simpa [countedSync_of_not_isCounted hu, countedSync_of_not_isCounted hcount] using hadd
  refine { h with
    toInv := h.toInv.setSender ht hcount
    alive := ?_
    tickets := ?_ }
  · intro hp
    rw [show (s.setSender i t).senders.countP isCounted = _ from hsame]
    exact h.alive hp
  · intro hp v hv
    have hv' : TicketOk s v := by
      rcases List.mem_or_eq_of_mem_set hv with hv | rfl
      · exact h.tickets hp v hv
      · exact hticket hp
    refine hv'.mono fun r pos ticket _ => ?_
    simp only [LogQueue.setSender, hsame']
    exact Nat.le_refl _

theorem count (h : SyncInv s) (i : Nat) (r : LogRecord κ δ) (ticketed : Bool) :
    SyncInv (s.count i r ticketed) := by
  have hinv := h.toInv.count i r ticketed
  unfold LogQueue.count at hinv ⊢
  split
  · next t hi =>
      simp only [hi] at hinv
      split
      · next hfree =>
          simp only [hfree, if_true] at hinv
          have hnot := isCounted_of_free hfree
          have hone : (s.senders.set i (.counted r ticketed)).countP isCounted =
              s.senders.countP isCounted + 1 := by
            have hadd := countP_set_add isCounted hi (.counted r ticketed)
            rw [hnot] at hadd
            exact hadd
          have hmore : s.senders.countP countedSync ≤
              (s.senders.set i (.counted r ticketed)).countP countedSync := by
            have hadd := countP_set_add countedSync hi (.counted r ticketed)
            rw [countedSync_of_not_isCounted hnot] at hadd
            simp only [Bool.false_eq_true, if_false, Nat.add_zero] at hadd
            omega
          refine { h with toInv := hinv, alive := ?_, tickets := ?_ }
          · intro hp
            have hq := h.alive hp
            simp only [LogQueue.setSender, hone]
            omega
          · intro hp v hv
            rcases List.mem_or_eq_of_mem_set hv with hv | rfl
            · exact (h.tickets hp v hv).mono fun _ _ _ _ => Nat.add_le_add_left hmore _
            · trivial
      · exact h
  · exact h

theorem send (h : SyncInv s) (i : Nat) : SyncInv (s.send i) := by
  have hinv := h.toInv.send i
  unfold LogQueue.send at hinv ⊢
  split
  · next r ticketed hi =>
      simp only [hi] at hinv
      split
      · next hstop =>
          simp only [hstop, if_true] at hinv
          exact { h with
            toInv := hinv
            alive := fun hp => absurd hstop hp
            tickets := fun hp => absurd hstop hp }
      · next hrun =>
          simp only [hrun, if_false] at hinv
          have hnew : isCounted (if ticketed then .sent r s.sent.length else .idle : Sender κ δ) =
              false := by
            cases ticketed <;> rfl
          have hone := countP_set_add isCounted hi
            (if ticketed then .sent r s.sent.length else .idle)
          have hsync :=
            countP_set_add countedSync hi (if ticketed then .sent r s.sent.length else .idle)
          rw [hnew] at hone
          rw [countedSync_of_not_isCounted hnew] at hsync
          simp only [isCounted, countedSync, if_true, Bool.false_eq_true, if_false,
            Nat.add_zero] at hone hsync
          refine { h with toInv := hinv, alive := ?_, tickets := ?_ }
          · intro hp
            have hq := h.alive hp
            simp only [LogQueue.setSender, List.length_append, List.length_singleton]
            omega
          · intro hp v hv
            rcases List.mem_or_eq_of_mem_set hv with hv | rfl
            · refine (h.tickets hp v hv).mono ?_
              rintro r' pos ticket rfl
              -- the record moves from those counted to those sent
              have hpos : pos < s.sent.length :=
                (List.getElem?_eq_some_iff.mp (h.senders _ hv).1).1
              simp only [LogQueue.setSender,
                List.drop_append_of_le_length (Nat.le_of_lt hpos), List.countP_append,
                List.countP_singleton]
              cases hd : demands r with
              | true =>
                simp only [hd, if_true] at hsync ⊢
                omega
              | false =>
                simp only [hd, Bool.false_eq_true, if_false] at hsync ⊢
                omega
            · cases ticketed <;> trivial
  · exact h

theorem readTicket (h : SyncInv s) {i : Nat} (hok : CoversSyncs s (.readTicket i)) :
    SyncInv (s.readTicket i) := by
  unfold LogQueue.readTicket
  split
  · next r pos hi =>
      have hsent : s.sent[pos]? = some r := h.senders _ (List.mem_of_getElem? hi)
      obtain ⟨hlt, hget⟩ := List.getElem?_eq_some_iff.mp hsent
      have hq := h.queued
      refine h.setSender hi ⟨hsent, by omega⟩ rfl rfl fun hp hr => ?_
      obtain ⟨hbehind, hcounted⟩ := hok r pos hi
      have hdrop : (s.sent.drop pos).countP demands = s.sent.length - pos := by
        have hall : ∀ r' ∈ s.sent.drop pos, demands r' = true := by
          rw [List.drop_eq_getElem_cons hlt, hget]
          intro r' hr'
          rcases List.mem_cons.mp hr' with rfl | hr'
          · exact hr
          · exact hbehind r' hr'
        rw [List.countP_eq_length.mpr hall, List.length_drop]
      have hsync : s.senders.countP isCounted ≤ s.senders.countP countedSync :=
        List.countP_mono_left hcounted
      have halive := h.alive hp
      omega
  · exact h

theorem waitUntilSynced (h : SyncInv s) (i : Nat) : SyncInv (s.waitUntilSynced i) := by
  unfold LogQueue.waitUntilSynced
  split
  · next r pos ticket hi =>
      split
      · next hge =>
          have hwait : s.sent[pos]? = some r ∧ pos < ticket :=
            h.senders _ (List.mem_of_getElem? hi)
          exact h.setSender hi ⟨hwait.1, Nat.lt_of_lt_of_le hwait.2 hge⟩ rfl rfl fun _ => trivial
      · exact h
  · exact h

theorem sendSpecial (h : SyncInv s) (i : Nat) {msg : LogMsg κ δ} (hmsg : msg.record? = none) :
    SyncInv (s.sendSpecial i msg) := by
  unfold LogQueue.sendSpecial
  split
  · next t hi =>
      split
      · next hfree =>
          have hnot := isCounted_of_free hfree
          split
          · exact h.setSender hi trivial hnot rfl fun _ => trivial
          · have hsent : SyncInv { s with channel := s.channel ++ [msg] } := by
              refine { h with order := ?_ }
              simp only [inChannel, List.filterMap_append, List.filterMap_cons, hmsg,
                List.filterMap_nil, List.append_nil]
              exact h.order
            exact hsent.setSender hi trivial hnot rfl fun _ => trivial
      · exact h
  · exact h

theorem recv (h : SyncInv s) : SyncInv s.recv := by
  have hinv := h.toInv.recv
  unfold LogQueue.recv at hinv ⊢
  split
  · next hcond =>
      rw [if_pos hcond] at hinv
      obtain ⟨hphase, -, -⟩ := hcond
      have htaken := h.taken
      split
      · exact h
      · next r rest hch =>
          simp only [hch] at hinv
          refine { h with toInv := hinv, taken := ?_, collecting := ?_, written := ?_ }
          · simp only [List.length_append, List.length_singleton]
            omega
          · intro hp
            refine ⟨(h.collecting hp).1, fun hneeds r' hr' => ?_⟩
            obtain ⟨hold, hr⟩ := Bool.or_eq_false_iff.mp hneeds
            rcases List.mem_append.mp hr' with hr' | hr'
            · exact (h.collecting hp).2 hold r' hr'
            · rw [List.mem_singleton.mp hr']
              exact hr
          · intro hp
            rw [hphase] at hp
            cases hp
      · next msg rest hmsg hch =>
          have hrec : ∀ r, msg ≠ .record r := fun r hr => hmsg r hr
          simp only [hch] at hinv
          refine { h with toInv := ?_, taken := ?_ }
          · cases msg with
            | record r => exact absurd rfl (hrec r)
            | sync i => exact hinv
            | roll i floor => exact hinv
          · dsimp only
            omega
  · exact h

theorem endBatch (h : SyncInv s) : SyncInv s.endBatch := by
  have hinv := h.toInv.endBatch
  unfold LogQueue.endBatch at hinv ⊢
  split
  · next hcond =>
      rw [if_pos hcond] at hinv
      have hphase := hcond.1
      refine { h with
        toInv := hinv
        taken := Nat.zero_le _
        alive := ?_
        collecting := (fun hp => nomatch hp)
        written := ?_
        tickets := ?_ }
      · intro _
        exact h.alive (by simp [hphase])
      · intro _ hneeds r hr
        have hc := h.counts
        obtain ⟨hold, hbatch⟩ := h.collecting hphase
        rw [List.drop_append_of_le_length (show s.synced ≤ s.file.length by omega)] at hr
        rcases List.mem_append.mp hr with hr | hr
        · exact hold r hr
        · exact hbatch hneeds r hr
      · intro _ t ht
        exact h.tickets (by simp [hphase]) t ht
  · exact h

theorem reply (h : SyncInv s) (i : Nat) : SyncInv (s.reply i) := by
  unfold LogQueue.reply
  split
  · next hi => exact h.setSender hi trivial rfl rfl fun _ => trivial
  · exact h

/-- The writer starts its next batch, with nothing that demands a sync left
unsynced. -/
theorem finishBatch (h : SyncInv s) (hbatch : s.runner.batch = [])
    (hphase : s.runner.phase ≠ .stopped) (hdone : ∀ r ∈ s.file.drop s.synced, demands r = false) :
    SyncInv s.finishBatch := by
  have hfresh : SyncInv { s with
      runner := freshBatch s.runner.unsyncedRecords s.runner.unsyncedLsn } := by
    have horder := h.order
    rw [hbatch] at horder
    exact { h with
      order := horder
      batch := fun _ => rfl
      flushed := (fun hp => nomatch hp)
      taken := Nat.le_refl _
      alive := fun _ => h.alive hphase
      collecting := fun _ => ⟨hdone, (fun _ _ hr => nomatch hr)⟩
      written := (fun hp => nomatch hp)
      tickets := fun _ => h.tickets hphase }
  unfold LogQueue.finishBatch
  dsimp only
  split
  · exact hfresh.reply _
  · exact hfresh.reply _
  · exact hfresh

theorem fsync (h : SyncInv s) : SyncInv s.fsync := by
  have hinv := h.toInv.fsync
  unfold LogQueue.fsync at hinv ⊢
  split
  · next hphase =>
      have hrun : s.runner.phase ≠ .stopped := by simp [hphase]
      simp only [hphase, if_true] at hinv
      split
      · next hneeds =>
          simp only [hneeds, if_true] at hinv
          exact { h with
            toInv := hinv
            alive := fun _ => h.alive hrun
            collecting := (fun hp => nomatch hp)
            written := (fun hp => nomatch hp)
            tickets := fun _ => h.tickets hrun }
      · next hskip =>
          refine h.finishBatch (h.batch (Or.inl hphase)) hrun ?_
          -- no record of the batch demands the sync, or there is none to sync
          by_cases hneeds : s.runner.needsSync = true
          · have hnone : s.runner.unsyncedRecords = 0 := by
              simp only [hneeds, Bool.true_or, Bool.true_and, decide_eq_true_eq] at hskip
              omega
            have hc := h.counts
            rw [List.drop_of_length_le (by omega)]
            exact (fun _ hr => nomatch hr)
          · exact h.written hphase (by simpa using hneeds)
  · exact h

theorem mark (h : SyncInv s) : SyncInv s.mark := by
  unfold LogQueue.mark
  split
  · next hphase =>
      have hrun : s.runner.phase ≠ .stopped := by simp [hphase]
      have hdur := h.flushed hphase
      have hc := h.counts
      refine finishBatch (s := { s with
          synced := s.synced + s.runner.unsyncedRecords
          lastWritten := max s.lastWritten (s.runner.unsyncedLsn.getD 0)
          runner := { s.runner with unsyncedRecords := 0, unsyncedLsn := none } }) ?_
        (h.batch (Or.inr hphase)) hrun ?_
      · exact { h with
          counts := hc
          covered := by dsimp only; omega
          senders := fun t ht =>
            (h.senders t ht).mono (List.prefix_refl _) (Nat.le_add_right _ _)
          collecting := fun hp => by rw [hphase] at hp; cases hp
          written := fun hp => by rw [hphase] at hp; cases hp
          tickets := fun hp t ht => h.tickets hp t ht }
      · dsimp only
        rw [List.drop_of_length_le (by omega)]
        exact (fun _ hr => nomatch hr)
  · exact h

end SyncInv

theorem syncInv_step (s : LogQueue κ δ) (a : QueueAction κ δ) (h : SyncInv s)
    (hok : CoversSyncs s a) : SyncInv (step s a) := by
  cases a with
  | log i r => exact h.count i r false
  | logTicketed i r => exact h.count i r true
  | send i => exact h.send i
  | readTicket i => exact h.readTicket hok
  | waitUntilSynced i => exact h.waitUntilSynced i
  | sync i => exact h.sendSpecial i rfl
  | roll i floor => exact h.sendSpecial i rfl
  | recv => exact h.recv
  | endBatch => exact h.endBatch
  | fsync => exact h.fsync
  | mark => exact h.mark
  | ioError =>
    exact { h with
      toInv := inv_step s .ioError h.toInv
      alive := fun hp => absurd rfl hp
      collecting := (fun hp => nomatch hp)
      written := (fun hp => nomatch hp)
      tickets := fun hp => absurd rfl hp }

/-- In the drained state every record that demands a sync has been synced. -/
theorem SyncInv.unsynced_of_drained {s : LogQueue κ δ} (h : SyncInv s) (hd : Drained s) :
    ∀ r ∈ s.sent.drop s.synced, demands r = false := by
  have hbatch : s.runner.batch = [] :=
    List.eq_nil_of_length_eq_zero (by have ht := h.taken; have h0 := hd.taken; omega)
  have hsent : s.file = s.sent := by
    rw [← h.order, hbatch, inChannel, hd.channel]
    simp
  rw [← hsent]
  exact (h.collecting hd.phase).1

/-- In every run whose tickets cover no row's record behind the `Commit` they are
read for: with the channel drained and every call finished, no `Commit` waits for
more than has been synced. -/
theorem commit_finds_sync {n : Nat} {s : LogQueue κ δ}
    (h : Lib.Reachable step CoversSyncs (init n) s) (hd : Drained s)
    {r : LogRecord κ δ} {pos ticket : Nat} (hr : demands r = true)
    (hwait : .waiting r pos ticket ∈ s.senders) : ticket ≤ s.synced := by
  have hinv : SyncInv s := h.invariant (syncInv_init n) syncInv_step
  have hle : ticket ≤ pos + (s.sent.drop pos).countP demands + s.senders.countP countedSync :=
    hinv.tickets (by simp [hd.phase]) _ hwait hr
  have hnone : s.senders.countP countedSync = 0 := by
    refine List.countP_eq_zero.mpr fun t ht hc => ?_
    have hfin := hd.senders t ht
    cases t with
    | counted r' ticketed => cases hfin
    | idle => cases hc
    | sent r' pos' => cases hc
    | waiting r' pos' ticket' => cases hc
    | returned r' pos' ticket' => cases hc
    | syncing => cases hc
    | failed => cases hc
  obtain ⟨hsent, -⟩ : s.sent[pos]? = some r ∧ pos < ticket := hinv.senders _ hwait
  obtain ⟨hlt, hget⟩ := List.getElem?_eq_some_iff.mp hsent
  have hunsynced := hinv.unsynced_of_drained hd
  have hpos : pos < s.synced := by
    by_contra hge
    have hmem : r ∈ s.sent.drop s.synced := by
      rw [← hget]
      exact List.mem_drop_iff_getElem.mpr ⟨pos - s.synced, by omega, by congr 1; omega⟩
    rw [hunsynced r hmem] at hr
    cases hr
  have hcount : (s.sent.drop pos).countP demands ≤ s.synced - pos := by
    have hsplit : (s.sent.drop pos) =
        (s.sent.drop pos).take (s.synced - pos) ++ s.sent.drop s.synced := by
      conv_lhs => rw [← List.take_append_drop (s.synced - pos) (s.sent.drop pos)]
      rw [List.drop_drop]
      congr 2
      omega
    have hrest : (s.sent.drop s.synced).countP demands = 0 :=
      List.countP_eq_zero.mpr fun r hr => by simp [hunsynced r hr]
    rw [hsplit, List.countP_append, hrest]
    exact Nat.le_trans List.countP_le_length (List.length_take_le _ _)
  omega

/-- Two transactions commit side by side, and the second one's ticket is read
with both records counted. -/
def commitTogether : List (QueueAction Nat Nat) :=
  [.logTicketed 0 ⟨1, .commit 1⟩, .send 0, .logTicketed 1 ⟨2, .commit 2⟩, .readTicket 0, .recv,
    .endBatch, .fsync, .mark, .send 1, .readTicket 1, .recv, .endBatch, .fsync, .mark]

theorem commit_finds_sync_together :
    let s := Lib.run step (init 2) commitTogether
    .waiting ⟨1, .commit 1⟩ 0 2 ∈ s.senders ∧ 2 ≤ s.synced := by
  intro s
  have hcovers : Lib.Allowed step CoversSyncs (init 2) commitTogether := by
    refine ⟨trivial, trivial, trivial, ?_, trivial, trivial, trivial, trivial, trivial, ?_,
      trivial, trivial, trivial, trivial, trivial⟩
    · intro r pos hi
      obtain ⟨rfl, rfl⟩ : r = ⟨1, .commit 1⟩ ∧ pos = 0 := by
        cases hi
        exact ⟨rfl, rfl⟩
      refine ⟨(fun _ hr => nomatch hr), fun t ht hc => ?_⟩
      rcases List.mem_cons.mp ht with rfl | ht
      · cases hc
      · rw [List.mem_singleton.mp ht]
        rfl
    · intro r pos hi
      obtain ⟨rfl, rfl⟩ : r = ⟨2, .commit 2⟩ ∧ pos = 1 := by
        cases hi
        exact ⟨rfl, rfl⟩
      refine ⟨(fun _ hr => nomatch hr), fun t ht hc => ?_⟩
      rcases List.mem_cons.mp ht with rfl | ht
      · cases hc
      · rw [List.mem_singleton.mp ht] at hc
        cases hc
  have hwait : .waiting ⟨1, .commit 1⟩ 0 2 ∈ s.senders := List.mem_cons_self
  have hdrained : Drained s := by
    refine ⟨fun t ht => ?_, rfl, rfl, rfl⟩
    rcases List.mem_cons.mp ht with rfl | ht
    · rfl
    · rw [List.mem_singleton.mp ht]
      rfl
  exact ⟨hwait, commit_finds_sync (Lib.reachable_run _ hcovers) hdrained rfl hwait⟩

/-- Transaction 2 counts an `Add` before transaction 1 reads its ticket, and
sends it behind the batch of transaction 1's `Commit`: the writer writes it and
syncs no more. -/
theorem commit_left_waiting :
    let s : LogQueue Nat Nat := Lib.run step (init 2)
      [.logTicketed 0 ⟨1, .commit 1⟩, .send 0, .log 1 ⟨2, .add 2 ⟨7, 0, some 2, none, false⟩⟩,
        .readTicket 0, .recv, .endBatch, .fsync, .mark, .send 1, .recv, .endBatch, .fsync]
    Reachable 2 s ∧ Drained s ∧ .waiting ⟨1, .commit 1⟩ 0 2 ∈ s.senders ∧
      ⟨1, .commit 1⟩ ∈ s.file ∧ s.synced = 1 := by
  intro s
  refine ⟨Lib.reachable_run _ (Lib.allowed_true _ _), ⟨fun t ht => ?_, rfl, rfl, rfl⟩,
    List.mem_cons_self, List.mem_cons_self, rfl⟩
  rcases List.mem_cons.mp ht with rfl | ht
  · rfl
  · rw [List.mem_singleton.mp ht]
    rfl

end LogQueue

end SquealDb.Store
