import Mathlib.Algebra.Group.Nat.Defs
import Mathlib.Logic.Function.Basic
import SquealDb.Lib.Run

/-!
# Sequences

`generator.rs`, with what `checkpoint`, `open_using_with` and `process_log` of
`db.rs` do to it.

A call of `gen_key` is taken one read or write of the shared state at a time,
and so is one of `create_generator`: any number of callers may be anywhere in
between, while a checkpoint goes through its own steps.  A crash leaves a
prefix of the log that contains everything synced, the generator page as it was
last written, and the header of the last checkpoint that completed.

Row operations enter only by the numbers and the records they add.

The machine remembers, for its theorems, every value it has returned.  A
sequence of which a crash leaves neither a record nor a value on the page is
gone: another of its name is another incarnation.
-/

namespace SquealDb.Store

/-- `SEQUENCE_CHUNK`: how many values a sequence hands out before it must log
a new high-water mark. -/
def sequenceChunk : Nat := 32

/-- Values are `u64`. -/
def valueBound : Nat := 2 ^ 64

/-- `Seq`: the next value to hand out, and the mark that every value below it
is taken to be covered by a record. -/
structure Seq where
  next : Nat
  loggedHigh : Nat
  deriving DecidableEq, Repr

/-- The operations of the log that a sequence takes part in.  `row` stands for
the others. -/
inductive SeqOperation (ν : Type*) where
  | sequence (name : ν) (highWater : Nat) (dropped : Bool)
  | commit (txn : Nat)
  | row (txn : Nat)
  deriving DecidableEq, Repr

/-- A record of the log. -/
structure SeqRecord (ν : Type*) where
  lsn : Nat
  operation : SeqOperation ν
  deriving DecidableEq, Repr

/-- How far a call of `gen_key` has come. -/
inductive GenKeyPhase where
  /-- `next` is taken, `logged_high` not yet read. -/
  | fetched
  /-- The value was found past the mark. -/
  | uncovered
  /-- `log_new` has the LSN of the new mark's record. -/
  | minted (lsn : Nat)
  /-- The record is queued. -/
  | logged
  /-- The value may be handed out. -/
  | covered
  deriving DecidableEq, Repr

/-- A call of `gen_key`, made for a transaction or for none. -/
structure GenKeyCall (ν : Type*) where
  name : ν
  txn : Option Nat
  value : Nat
  phase : GenKeyPhase
  deriving DecidableEq, Repr

/-- How far a call of `create_generator` has come. -/
inductive CreatePhase where
  /-- The name was found to be free. -/
  | checked
  | minted (lsn : Nat)
  | logged
  deriving DecidableEq, Repr

/-- A call of `create_generator`. -/
structure CreateCall (ν : Type*) where
  name : ν
  start : Nat
  phase : CreatePhase
  deriving DecidableEq, Repr

/-- How far a checkpoint has come. -/
inductive CheckpointPhase (ν : Type*) where
  | idle
  | floorRead (floor : Nat)
  /-- `get_values` has been called. -/
  | valuesRead (floor : Nat) (values : ν → Option Nat)
  /-- The generator page is written, the header not yet. -/
  | written (floor : Nat)

/-- A value that a call returned, with the length the log had then. -/
structure Returned (ν : Type*) where
  name : ν
  value : Nat
  txn : Option Nat
  position : Nat
  deriving DecidableEq, Repr

/-- What was returned before the last crash.  No step reads it. -/
structure History (ν : Type*) where
  /-- How many crashes have left nothing of a sequence of the name. -/
  incarnation : ν → Nat
  /-- The values returned by the incarnations that are gone. -/
  lost : List (ν × Nat × Nat)
  /-- The values returned by those that came back. -/
  past : List (ν × Nat)
  /-- The values returned to a transaction whose `Commit` survived. -/
  committed : List (ν × Nat)

/-- A value with the incarnation of its sequence. -/
def History.numbered {ν : Type*} (h : History ν) (p : ν × Nat) : ν × Nat × Nat :=
  (p.1, h.incarnation p.1, p.2)

namespace GenKeyCall

variable {ν : Type*}

/-- What the call will return, and of which sequence. -/
def key (c : GenKeyCall ν) : ν × Nat := (c.name, c.value)

end GenKeyCall

namespace Returned

variable {ν : Type*}

def key (e : Returned ν) : ν × Nat := (e.name, e.value)

end Returned

namespace SeqRecord

variable {ν : Type*}

/-- The transaction a record names. -/
def txn? (r : SeqRecord ν) : Option Nat :=
  match r.operation with
  | .sequence _ _ _ => none
  | .commit txn | .row txn => some txn

/-- The transaction whose `Commit` a record is. -/
def commits (r : SeqRecord ν) : Option Nat :=
  match r.operation with
  | .commit txn => some txn
  | _ => none

/-- The largest number a record shows to have been issued. -/
def lastIssued (r : SeqRecord ν) : Nat := max r.lsn (r.txn?.getD 0)

end SeqRecord

/-- `gens` of `Generator`. -/
abbrev Gens (ν : Type*) := ν → Option Seq

namespace Gens

variable {ν : Type*} [DecidableEq ν]

def insert (gens : Gens ν) (name : ν) (seq : Seq) : Gens ν := Function.update gens name (some seq)

@[simp] theorem insert_self (gens : Gens ν) (name : ν) (seq : Seq) :
    gens.insert name seq name = some seq := Function.update_self ..

theorem insert_of_ne (gens : Gens ν) {name name' : ν} (seq : Seq) (h : name' ≠ name) :
    gens.insert name seq name' = gens name' := Function.update_of_ne h ..

def removeUnlogged (gens : Gens ν) (name : ν) : Gens ν := Function.update gens name none

/-- `ensure_at_least`: never lowers a sequence. -/
def ensureAtLeast (gens : Gens ν) (name : ν) (atLeast : Nat) : Gens ν :=
  match gens name with
  | some seq => gens.insert name ⟨max seq.next atLeast, max seq.loggedHigh atLeast⟩
  | none => gens.insert name ⟨atLeast, atLeast⟩

def getValues (gens : Gens ν) : ν → Option Nat := fun name => (gens name).map Seq.next

/-- `set_values`, into the empty generator of a database being opened. -/
def setValues (values : ν → Option Nat) : Gens ν := fun name => (values name).map fun v => ⟨v, v⟩

/-- The `Sequence` arm of `process_log`. -/
def replayOne (gens : Gens ν) (r : SeqRecord ν) : Gens ν :=
  match r.operation with
  | .sequence name _ true => gens.removeUnlogged name
  | .sequence name highWater false => gens.ensureAtLeast name highWater
  | _ => gens

end Gens

/-- The generator, its callers, the log, and what is on disk. -/
structure Sequences (ν : Type*) where
  clock : Nat
  gens : Gens ν
  log : List (SeqRecord ν)
  inFlight : List Nat
  calls : List (GenKeyCall ν)
  creates : List (CreateCall ν)
  checkpointing : CheckpointPhase ν
  /-- The generator page. -/
  disk : ν → Option Nat
  /-- `checkpoint_lsn` of the header. -/
  floor : Nat
  /-- `counter` of the header. -/
  counter : Nat
  /-- How much of the log is known to be durable. -/
  synced : Nat
  /-- The values returned since the database was opened. -/
  current : List (Returned ν)
  history : History ν

/-- One step of some thread, or a crash that leaves the first `records`
records of the log. -/
inductive SequenceAction (ν : Type*) where
  | begin
  | write (txn : Nat)
  | commit (txn : Nat)
  | abort (txn : Nat)
  | createGenerator (name : ν) (start : Option Nat)
  | createStep (i : Nat)
  | genKey (name : ν) (txn : Option Nat)
  | genKeyStep (i : Nat)
  | checkpointStep
  | sync (records : Nat)
  | crash (records : Nat)

namespace Sequences

variable {ν : Type*} [DecidableEq ν]

/-- A database as it was created: nothing logged, and the counter at 1. -/
def new : Sequences ν where
  clock := 1
  gens := fun _ => none
  log := []
  inFlight := []
  calls := []
  creates := []
  checkpointing := .idle
  disk := fun _ => none
  floor := 0
  counter := 1
  synced := 0
  current := []
  history := ⟨fun _ => 0, [], [], []⟩

/-- `log_new`, of a caller for whom nothing depends on what happens between
the LSN and the queue. -/
def logNew (s : Sequences ν) (op : SeqOperation ν) : Sequences ν :=
  { s with clock := s.clock + 1, log := s.log ++ [⟨s.clock, op⟩] }

/-- `begin`: ids and LSNs come from one counter. -/
def begin (s : Sequences ν) : Sequences ν :=
  { s with clock := s.clock + 1, inFlight := s.inFlight ++ [s.clock] }

/-- A row operation. -/
def write (s : Sequences ν) (txn : Nat) : Sequences ν :=
  if txn ∈ s.inFlight then s.logNew (.row txn) else s

/-- `commit`, which owns its `Transaction`: no call is being made for it. -/
def commit (s : Sequences ν) (txn : Nat) : Sequences ν :=
  if txn ∈ s.inFlight ∧ ¬ (s.calls.any fun c => c.txn == some txn) then
    { s.logNew (.commit txn) with inFlight := s.inFlight.filter (· ≠ txn) }
  else s

/-- The end of an abort, or of a transaction that wrote nothing. -/
def abort (s : Sequences ν) (txn : Nat) : Sequences ν :=
  { s with inFlight := s.inFlight.filter (· ≠ txn) }

/-- `create_generator`, up to its `DuplicateName` check. -/
def createGenerator (s : Sequences ν) (name : ν) (start : Option Nat) : Sequences ν :=
  match s.gens name with
  | some _ => s
  | none => { s with creates := s.creates ++ [⟨name, start.getD 0, .checked⟩] }

/-- The next step of a `create_generator`. -/
def createStep (s : Sequences ν) (i : Nat) : Sequences ν :=
  match s.creates[i]? with
  | none => s
  | some c =>
    match c.phase with
    | .checked =>
      { s with
        clock := s.clock + 1
        creates := s.creates.set i { c with phase := .minted s.clock } }
    | .minted lsn =>
      { s with
        log := s.log ++ [⟨lsn, .sequence c.name c.start false⟩]
        creates := s.creates.set i { c with phase := .logged } }
    | .logged =>
      { s with
        gens := s.gens.insert c.name ⟨c.start, c.start⟩
        creates := s.creates.eraseIdx i }

/-- `gen_key`, up to its `fetch_add`.  A transaction it is called for has
begun and not ended. -/
def genKey (s : Sequences ν) (name : ν) (txn : Option Nat) : Sequences ν :=
  match s.gens name with
  | none => s
  | some seq =>
    if txn.all (· ∈ s.inFlight) then
      { s with
        gens := s.gens.insert name { seq with next := (seq.next + 1) % valueBound }
        calls := s.calls ++ [⟨name, txn, seq.next, .fetched⟩] }
    else s

/-- The mark that a call logs when its value is past the one it read. -/
def newHigh (value : Nat) : Nat := (value + sequenceChunk) % valueBound

/-- The next step of a `gen_key`. -/
def genKeyStep (s : Sequences ν) (i : Nat) : Sequences ν :=
  match s.calls[i]? with
  | none => s
  | some c =>
    match c.phase with
    | .fetched =>
      match s.gens c.name with
      | none => s
      | some seq =>
        let phase := if c.value ≥ seq.loggedHigh then .uncovered else .covered
        { s with calls := s.calls.set i { c with phase := phase } }
    | .uncovered =>
      { s with
        clock := s.clock + 1
        calls := s.calls.set i { c with phase := .minted s.clock } }
    | .minted lsn =>
      { s with
        log := s.log ++ [⟨lsn, .sequence c.name (newHigh c.value) false⟩]
        calls := s.calls.set i { c with phase := .logged } }
    | .logged =>
      { s with
        gens :=
          match s.gens c.name with
          | some seq =>
            s.gens.insert c.name
              { seq with loggedHigh := max seq.loggedHigh (newHigh c.value) }
          | none => s.gens
        calls := s.calls.set i { c with phase := .covered } }
    | .covered =>
      { s with
        calls := s.calls.eraseIdx i
        current := s.current ++ [⟨c.name, c.value, c.txn, s.log.length⟩] }

def retentionFloor (s : Sequences ν) : Nat := s.inFlight.foldl min s.clock

/-- The next step of a checkpoint: the floor, the values, the generator page
(with the log synced), the header. -/
def checkpointStep (s : Sequences ν) : Sequences ν :=
  match s.checkpointing with
  | .idle => { s with checkpointing := .floorRead s.retentionFloor }
  | .floorRead floor => { s with checkpointing := .valuesRead floor s.gens.getValues }
  | .valuesRead floor values =>
    { s with disk := values, synced := s.log.length, checkpointing := .written floor }
  | .written floor => { s with floor := floor, counter := s.clock, checkpointing := .idle }

/-- The records recovery replays, if the first `n` records of the log
survived. -/
def survivors (s : Sequences ν) (n : Nat) : List (SeqRecord ν) :=
  (s.log.take n).filter fun r => decide (s.floor ≤ r.lsn)

/-- Whether a value was returned to a transaction whose `Commit` is among the
first `n` records. -/
def committedBy (s : Sequences ν) (n : Nat) (e : Returned ν) : Bool :=
  match e.txn with
  | none => false
  | some txn => (s.log.take n).any fun r => r.commits == some txn

/-- The values returned since the last crash, and before by the sequences that have come
back. -/
def kept (s : Sequences ν) : List (ν × Nat) := s.history.past ++ s.current.map Returned.key

/-- Every value that was ever returned, with the incarnation of its sequence. -/
def returned (s : Sequences ν) : List (ν × Nat × Nat) :=
  s.history.lost ++ s.kept.map s.history.numbered

/-- The sequences that come back from the first `n` records of the log. -/
def recoveredGens (s : Sequences ν) (n : Nat) : Gens ν :=
  (s.survivors n).foldl Gens.replayOne (Gens.setValues s.disk)

/-- What is remembered after a crash that left the first `n` records. -/
def recoveredHistory (s : Sequences ν) (n : Nat) : History ν where
  incarnation name :=
    if (s.recoveredGens n name).isSome then s.history.incarnation name
    else s.history.incarnation name + 1
  lost := s.history.lost ++
    (s.kept.filter fun p => ! (s.recoveredGens n p.1).isSome).map s.history.numbered
  past := s.kept.filter fun p => (s.recoveredGens n p.1).isSome
  committed := s.history.committed ++ (s.current.filter (s.committedBy n)).map Returned.key

/-- The database opened after a crash that left the first `n` records of the
log. -/
def recover (s : Sequences ν) (n : Nat) : Sequences ν where
  clock := (s.survivors n).foldl (fun clock r => max clock (r.lastIssued + 1)) s.counter
  gens := s.recoveredGens n
  log := s.log.take n
  inFlight := []
  calls := []
  creates := []
  checkpointing := .idle
  disk := s.disk
  floor := s.floor
  counter := s.counter
  synced := n
  current := []
  history := s.recoveredHistory n

/-- A crash, after which the database is opened again. -/
def crash (s : Sequences ν) (n : Nat) : Sequences ν :=
  if s.synced ≤ n ∧ n ≤ s.log.length then s.recover n else s

def step (s : Sequences ν) : SequenceAction ν → Sequences ν
  | .begin => s.begin
  | .write txn => s.write txn
  | .commit txn => s.commit txn
  | .abort txn => s.abort txn
  | .createGenerator name start => s.createGenerator name start
  | .createStep i => s.createStep i
  | .genKey name txn => s.genKey name txn
  | .genKeyStep i => s.genKeyStep i
  | .checkpointStep => s.checkpointStep
  | .sync n => { s with synced := max s.synced (min n s.log.length) }
  | .crash n => s.crash n

end Sequences

end SquealDb.Store
