import Soroscan.Store
import Soroscan.Lib.Run
import Soroscan.Lib.Fallible

/-!
# The indexer's processes

`main.go`: the commands `follow` and `backfill`, any number of processes of them at a time over one database. A `World` is the
database and the processes that are alive; an `Event` is one thing that happens: a process starts, goes one round, writes its
range checkpoint or stops, at any point. `step` gives the world after an event, if the event can happen.

Two things are recorded beside the program's own state: the ledgers that were saved, and where the first follower began.

The archive is a parameter: the close meta it holds for each ledger. A round in which the archive does not deliver is a failed
round.
-/

namespace Soroscan

/-! ## Follow -/

/-- A follower: the ledger it began at, whether a checkpoint gave it, the ledger it is at, and its caches. -/
structure Follow where
  began : BitVec 32
  resumed : Bool
  next : BitVec 32
  store : Store

/-- The start of `follow`: it goes on after the checkpoint, or begins at its flag when there is none yet. -/
def startFollow (db : Db) (startFlag : BitVec 32) : Option Follow :=
  if db.checkpointLedger worker = 0 then
    if startFlag = 0 then none
    else some { began := startFlag, resumed := false, next := startFlag, store := Store.new }
  else
    some { began := uint32 (db.checkpointLedger worker) + 1, resumed := true,
           next := uint32 (db.checkpointLedger worker) + 1, store := Store.new }

/-! ## Backfill -/

/-- A backfill of a range: its batch size, the ledger it is at, the end of a batch that was saved and has no range checkpoint
yet, and its caches. -/
structure Backfill where
  start : BitVec 32
  «end» : BitVec 32
  concurrency : BitVec 32
  next : BitVec 32
  pending : Option (BitVec 32)
  store : Store

/-- The checkpoint name of a range. -/
def backfillName (start stop : BitVec 32) : Text :=
  ['b', 'a', 'c', 'k', 'f', 'i', 'l', 'l', ':'] ++ decimal start.toNat ++ '-' :: decimal stop.toNat

/-- The flag checks of `run` on a backfill. -/
def backfillFlagsOk (start stop concurrency : BitVec 32) : Bool :=
  decide (start ≠ 0) && decide (stop ≠ 0) && decide (start ≤ stop) && decide (1 ≤ concurrency) && decide (concurrency ≤ 64)

/-- The start of `backfill`: it goes on after its range checkpoint; a range that is complete has nothing to do. -/
def startBackfill (db : Db) (start stop concurrency : BitVec 32) : Option Backfill :=
  let done := db.checkpointLedger (backfillName start stop)
  let next := if start.toNat ≤ done then uint32 done + 1 else start
  if next ≤ stop then some { start, «end» := stop, concurrency, next, pending := none, store := Store.new } else none

/-- The last ledger of the next batch. -/
def Backfill.batchEnd (b : Backfill) : BitVec 32 :=
  if b.end < b.next + b.concurrency - 1 then b.end else b.next + b.concurrency - 1

/-- The ledgers `indexBatch` fetches. -/
def batchLedgers (start stop : BitVec 32) : List (BitVec 32) :=
  (List.range (stop - start + 1).toNat).map fun i => start + BitVec.ofNat 32 i

/-- A backfill after a round in which nothing failed: the batch is saved and has its range checkpoint. -/
def Backfill.roundDone (b : Backfill) : Backfill := { b with next := b.batchEnd + 1, pending := none }

/-- The loop of `backfill` when every fetch, save and checkpoint succeeds, for at most so many rounds: the ledgers that are
requested, batch by batch, and the range checkpoint that is left. There is no answer when the loop has not come to its end. -/
def Backfill.loop : Nat → Backfill → Nat → Option (List (BitVec 32) × Nat)
  | 0, b, done => if b.next ≤ b.end then none else some ([], done)
  | rounds + 1, b, done =>
    if b.next ≤ b.end then
      (Backfill.loop rounds b.roundDone b.batchEnd.toNat).map fun r => (batchLedgers b.next b.batchEnd ++ r.1, r.2)
    else some ([], done)

/-- `backfill` when nothing fails, for at most so many rounds. -/
def backfill (rounds : Nat) (db : Db) (start stop concurrency : BitVec 32) : Option (List (BitVec 32) × Nat) :=
  match startBackfill db start stop concurrency with
  | none => some ([], db.checkpointLedger (backfillName start stop))
  | some b => b.loop rounds (db.checkpointLedger (backfillName start stop))

/-! ## The world -/

inductive Process where
  | follow (f : Follow)
  | backfill (b : Backfill)

structure World where
  db : Db
  processes : Nat → Option Process
  saved : List (BitVec 32)
  firstStart : Option (BitVec 32)

/-- A database after the migrations, and no process. -/
def World.start : World := ⟨Db.empty, fun _ => none, [], none⟩

/-- A process is replaced, or gone. -/
def World.put (w : World) (pid : Nat) (p : Option Process) : World :=
  { w with processes := Function.update w.processes pid p }

/-- The worker checkpoint. -/
def World.checkpoint (w : World) : Nat := w.db.checkpointLedger worker

inductive Event where
  | startFollow (pid : Nat) (startFlag : BitVec 32)
  | followSaves (pid : Nat) (call : Call)
  | followFails (pid : Nat) (fetched : Bool) (call : Call)
  | startBackfill (pid : Nat) (start stop concurrency : BitVec 32)
  | batchSaves (pid : Nat) (call : Call)
  | batchFails (pid : Nat) (fetched : Bool) (call : Call)
  | batchCheckpoint (pid : Nat)
  | stop (pid : Nat)

section Step

variable (scValString : ScVal → Bytes) (acceptsTime : Time → Bool) (archive : BitVec 32 → LedgerCloseMeta)

/-- `indexOne`: the archive's ledger is extracted and saved under its own sequence number. -/
def indexOne (st : Store) (db : Db) (call : Call) (seq : BitVec 32) : Option Saved :=
  (extract scValString (archive seq)).map fun result =>
    saveLedger acceptsTime st db call result.sequence result.invocations

/-- `indexBatch`: the ledgers of a batch are extracted, and their rows saved together under the last one. -/
def indexBatch (st : Store) (db : Db) (call : Call) (start stop : BitVec 32) : Option Saved :=
  ((batchLedgers start stop).mapM fun seq => extract scValString (archive seq)).map fun results =>
    saveLedger acceptsTime st db call stop (results.flatMap LedgerResult.invocations)

/-- A successful round of a follower. -/
def followSaves (w : World) (pid : Nat) (call : Call) (f : Follow) : Option World :=
  (indexOne scValString acceptsTime archive f.store w.db call f.next).bind fun r =>
    if r.error = none then
      some { w.put pid (some (.follow { f with next := f.next + 1, store := r.store })) with
        db := r.db, saved := f.next :: w.saved }
    else none

/-- A round in which the ledger was not delivered, or was not saved: the follower stays at it. -/
def followFails (w : World) (fetched : Bool) (call : Call) (f : Follow) : Option World :=
  if fetched then
    match indexOne scValString acceptsTime archive f.store w.db call f.next with
    | none => some w
    | some r => if r.error = none then none else some { w with db := r.db }
  else some w

/-- A successful batch of a backfill; its range checkpoint is still to be written. -/
def batchSaves (w : World) (pid : Nat) (call : Call) (b : Backfill) : Option World :=
  if b.pending = none ∧ b.next ≤ b.end then
    (indexBatch scValString acceptsTime archive b.store w.db call b.next b.batchEnd).bind fun r =>
      if r.error = none then
        some { w.put pid (some (.backfill { b with pending := some b.batchEnd, store := r.store })) with
          db := r.db, saved := batchLedgers b.next b.batchEnd ++ w.saved }
      else none
  else none

/-- A batch that was not fetched, or was not saved: the backfill stays at it. -/
def batchFails (w : World) (fetched : Bool) (call : Call) (b : Backfill) : Option World :=
  if b.pending = none ∧ b.next ≤ b.end then
    if fetched then
      match indexBatch scValString acceptsTime archive b.store w.db call b.next b.batchEnd with
      | none => some w
      | some r => if r.error = none then none else some { w with db := r.db }
    else some w
  else none

/-- The range checkpoint of a saved batch is written, and the backfill goes on behind it. -/
def batchCheckpoint (w : World) (pid : Nat) (b : Backfill) : Option World :=
  b.pending.map fun batchEnd =>
    { w.put pid (some (.backfill { b with next := batchEnd + 1, pending := none })) with
      db := w.db.setCheckpoint (backfillName b.start b.end) batchEnd.toNat }

/-- The world after an event, if the event can happen. -/
def step (w : World) : Event → Option World
  | .startFollow pid startFlag =>
    if w.processes pid = none then
      match startFollow w.db startFlag with
      | none => some w
      | some f => some { w.put pid (some (.follow f)) with firstStart := w.firstStart.or (some f.began) }
    else none
  | .startBackfill pid start stop concurrency =>
    if w.processes pid = none ∧ backfillFlagsOk start stop concurrency = true then
      some (w.put pid ((startBackfill w.db start stop concurrency).map .backfill))
    else none
  | .followSaves pid call =>
    match w.processes pid with
    | some (.follow f) => followSaves scValString acceptsTime archive w pid call f
    | _ => none
  | .followFails pid fetched call =>
    match w.processes pid with
    | some (.follow f) => followFails scValString acceptsTime archive w fetched call f
    | _ => none
  | .batchSaves pid call =>
    match w.processes pid with
    | some (.backfill b) => batchSaves scValString acceptsTime archive w pid call b
    | _ => none
  | .batchFails pid fetched call =>
    match w.processes pid with
    | some (.backfill b) => batchFails scValString acceptsTime archive w fetched call b
    | _ => none
  | .batchCheckpoint pid =>
    match w.processes pid with
    | some (.backfill b) => batchCheckpoint w pid b
    | _ => none
  | .stop pid => some (w.put pid none)

end Step

end Soroscan
