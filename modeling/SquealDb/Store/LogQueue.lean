import SquealDb.Lib.Run
import SquealDb.Store.Record

/-!
# The log's queue

`Logger` and `log_runner` of `logger.rs`: any number of threads hand records to
one writer over a FIFO channel.  `log` counts its record in `queued` and then
sends it; `log_ticketed` then reads `queued`, and its caller waits until
`synced` has reached that number.  The writer takes messages into a batch,
writes the batch, and syncs it if some record of it demands that, or if a
`Sync` or `Roll` message ended it; then it adds to `synced` what it has synced.

Every access to a counter, to the channel or to the file is a step of its own.
The channel has no capacity here: a send that would block is one that comes
later.  `Roll` syncs as `Sync` does, and the segments it deletes are not the
queue's concern; `ShutDown` comes when no thread is left to call.  `Sequence`
records, which demand a sync as a `Commit` does, are modelled with the
generator.  A thread is also told where its record came in the order of sending,
and `sent` is that order.
-/

namespace SquealDb.Store

def maxLogBatch : Nat := 256

/-- Whether the writer's batch must be synced for a record of this kind. -/
def Operation.demandsSync {κ δ : Type*} : Operation κ δ → Bool
  | .add _ _ | .mod _ _ _ | .del _ _ => false
  | _ => true

/-- `LogMsg`, with the thread that is to be told. -/
inductive LogMsg (κ δ : Type*) where
  | record (r : LogRecord κ δ)
  | sync (thread : Nat)
  | roll (thread floor : Nat)

/-- The record a message carries. -/
def LogMsg.record? {κ δ : Type*} : LogMsg κ δ → Option (LogRecord κ δ)
  | .record r => some r
  | _ => none

/-- Where a thread is in its call. -/
inductive Sender (κ δ : Type*) where
  | idle
  | counted (r : LogRecord κ δ) (ticketed : Bool)
  | sent (r : LogRecord κ δ) (pos : Nat)
  | waiting (r : LogRecord κ δ) (pos ticket : Nat)
  | returned (r : LogRecord κ δ) (pos ticket : Nat)
  | syncing
  | failed

/-- Where the writer is in its loop. -/
inductive RunnerPhase where
  | collecting
  | written
  | synced
  | stopped
  deriving DecidableEq, Repr

/-- The writer's variables. -/
structure LogRunner (κ δ : Type*) where
  phase : RunnerPhase
  batch : List (LogRecord κ δ)
  taken : Nat
  needsSync : Bool
  highestLsn : Option Nat
  special : Option (LogMsg κ δ)
  unsyncedRecords : Nat
  unsyncedLsn : Option Nat

/-- The counters of `LsnClock`, the channel, the log file with the number of its
records that have been synced, the writer and the threads. -/
structure LogQueue (κ δ : Type*) where
  queued : Nat
  synced : Nat
  lastWritten : Nat
  channel : List (LogMsg κ δ)
  file : List (LogRecord κ δ)
  durable : Nat
  runner : LogRunner κ δ
  senders : List (Sender κ δ)
  sent : List (LogRecord κ δ)

/-- One step of a thread or of the writer. -/
inductive QueueAction (κ δ : Type*) where
  | log (thread : Nat) (r : LogRecord κ δ)
  | logTicketed (thread : Nat) (r : LogRecord κ δ)
  | send (thread : Nat)
  | readTicket (thread : Nat)
  | waitUntilSynced (thread : Nat)
  | sync (thread : Nat)
  | roll (thread floor : Nat)
  | recv
  | endBatch
  | fsync
  | mark
  | ioError

namespace Sender

variable {κ δ : Type*}

/-- No call is under way that has a record still to count or to send, or a
ticket to read. -/
def finished : Sender κ δ → Bool
  | .counted _ _ | .sent _ _ => false
  | _ => true

/-- A new call may be made. -/
def free : Sender κ δ → Bool
  | .idle | .returned _ _ _ | .failed => true
  | _ => false

end Sender

namespace LogQueue

variable {κ δ : Type*}

/-- The writer as it starts a batch. -/
def freshBatch (unsyncedRecords : Nat) (unsyncedLsn : Option Nat) : LogRunner κ δ :=
  ⟨.collecting, [], 0, false, none, none, unsyncedRecords, unsyncedLsn⟩

/-- A new log, and `n` threads. -/
def init (n : Nat) : LogQueue κ δ :=
  ⟨0, 0, 0, [], [], 0, freshBatch 0 none, List.replicate n .idle, []⟩

def nothingPending (s : LogQueue κ δ) : Bool := decide (s.synced ≥ s.queued)

def setSender (s : LogQueue κ δ) (i : Nat) (t : Sender κ δ) : LogQueue κ δ :=
  { s with senders := s.senders.set i t }

/-- The first half of `log`: the record is counted. -/
def count (s : LogQueue κ δ) (i : Nat) (r : LogRecord κ δ) (ticketed : Bool) : LogQueue κ δ :=
  match s.senders[i]? with
  | some t =>
    if t.free then { s with queued := s.queued + 1 }.setSender i (.counted r ticketed) else s
  | none => s

/-- The second half of `log`: the record is sent, or the writer is gone and the
send fails. -/
def send (s : LogQueue κ δ) (i : Nat) : LogQueue κ δ :=
  match s.senders[i]? with
  | some (.counted r ticketed) =>
    if s.runner.phase = .stopped then s.setSender i .failed
    else
      { s with
        channel := s.channel ++ [LogMsg.record r]
        sent := s.sent ++ [r] }.setSender i (if ticketed then .sent r s.sent.length else .idle)
  | _ => s

/-- `log_ticketed` reads `queued`. -/
def readTicket (s : LogQueue κ δ) (i : Nat) : LogQueue κ δ :=
  match s.senders[i]? with
  | some (.sent r pos) => s.setSender i (.waiting r pos s.queued)
  | _ => s

/-- `wait_until_synced` looks at `synced`. -/
def waitUntilSynced (s : LogQueue κ δ) (i : Nat) : LogQueue κ δ :=
  match s.senders[i]? with
  | some (.waiting r pos ticket) =>
    if s.synced ≥ ticket then s.setSender i (.returned r pos ticket) else s
  | _ => s

/-- `sync` and `roll` send their message and wait for the reply. -/
def sendSpecial (s : LogQueue κ δ) (i : Nat) (msg : LogMsg κ δ) : LogQueue κ δ :=
  match s.senders[i]? with
  | some t =>
    if t.free then
      if s.runner.phase = .stopped then s.setSender i .failed
      else { s with channel := s.channel ++ [msg] }.setSender i .syncing
    else s
  | none => s

/-- The larger of an LSN seen so far and another. -/
def maxLsn (seen : Option Nat) (lsn : Nat) : Option Nat :=
  match seen with
  | some l => if l ≥ lsn then some l else some lsn
  | none => some lsn

/-- The writer takes one message. -/
def recv (s : LogQueue κ δ) : LogQueue κ δ :=
  if s.runner.phase = .collecting ∧ s.runner.special.isNone ∧ s.runner.taken < maxLogBatch then
    match s.channel with
    | [] => s
    | .record r :: rest =>
      { s with
        channel := rest
        runner := { s.runner with
          batch := s.runner.batch ++ [r]
          taken := s.runner.taken + 1
          needsSync := s.runner.needsSync || r.operation.demandsSync
          highestLsn := maxLsn s.runner.highestLsn r.lsn } }
    | msg :: rest =>
      { s with
        channel := rest
        runner := { s.runner with taken := s.runner.taken + 1, special := some msg } }
  else s

/-- The writer has its batch, for want of another message, because it is full or
because a message ended it, and writes it to the file. -/
def endBatch (s : LogQueue κ δ) : LogQueue κ δ :=
  if s.runner.phase = .collecting ∧ 0 < s.runner.taken ∧
      (s.runner.special.isSome ∨ s.runner.taken = maxLogBatch ∨ s.channel.isEmpty) then
    { s with
      file := s.file ++ s.runner.batch
      runner := { s.runner with
        phase := .written
        batch := []
        unsyncedRecords := s.runner.unsyncedRecords + s.runner.batch.length
        unsyncedLsn :=
          match s.runner.highestLsn with
          | some lsn => maxLsn s.runner.unsyncedLsn lsn
          | none => s.runner.unsyncedLsn } }
  else s

/-- `reply.send`: the thread that waits for it goes on. -/
def reply (s : LogQueue κ δ) (i : Nat) : LogQueue κ δ :=
  match s.senders[i]? with
  | some .syncing => s.setSender i .idle
  | _ => s

/-- The end of a turn of the writer's loop: whoever sent the message that ended
the batch is told. -/
def finishBatch (s : LogQueue κ δ) : LogQueue κ δ :=
  let next := { s with
    runner := freshBatch s.runner.unsyncedRecords s.runner.unsyncedLsn }
  match s.runner.special with
  | some (.sync i) | some (.roll i _) => next.reply i
  | _ => next

/-- The writer syncs the file, if it has to. -/
def fsync (s : LogQueue κ δ) : LogQueue κ δ :=
  if s.runner.phase = .written then
    if (s.runner.needsSync || s.runner.special.isSome) && decide (0 < s.runner.unsyncedRecords) then
      { s with durable := s.file.length, runner := { s.runner with phase := .synced } }
    else s.finishBatch
  else s

/-- The writer counts what it has synced, and marks the LSN. -/
def mark (s : LogQueue κ δ) : LogQueue κ δ :=
  if s.runner.phase = .synced then
    { s with
      synced := s.synced + s.runner.unsyncedRecords
      lastWritten := max s.lastWritten (s.runner.unsyncedLsn.getD 0)
      runner := { s.runner with unsyncedRecords := 0, unsyncedLsn := none } }.finishBatch
  else s

/-- One step; a step that cannot be taken changes nothing. -/
def step (s : LogQueue κ δ) : QueueAction κ δ → LogQueue κ δ
  | .log i r => s.count i r false
  | .logTicketed i r => s.count i r true
  | .send i => s.send i
  | .readTicket i => s.readTicket i
  | .waitUntilSynced i => s.waitUntilSynced i
  | .sync i => s.sendSpecial i (.sync i)
  | .roll i floor => s.sendSpecial i (.roll i floor)
  | .recv => s.recv
  | .endBatch => s.endBatch
  | .fsync => s.fsync
  | .mark => s.mark
  | .ioError => { s with runner := { s.runner with phase := .stopped } }

/-- The states every interleaving leads to. -/
def Reachable (n : Nat) : LogQueue κ δ → Prop := Lib.Reachable step (fun _ _ => True) (init n)

/-- The records still in the channel. -/
def inChannel (s : LogQueue κ δ) : List (LogRecord κ δ) := s.channel.filterMap LogMsg.record?

/-- A thread that has counted a record and not sent it. -/
def isCounted : Sender κ δ → Bool
  | .counted _ _ => true
  | _ => false

end LogQueue

end SquealDb.Store
