import ChainSync.Engine.Exchange
import ChainSync.Engine.Import
import ChainSync.Engine.Snapshot
import ChainSync.Fast.PivotWalk
import ChainSync.Fast.TrieImport

/-!
# The jobs of tasks

A task has one job. A turn of a job does what can be done now and says how long the task then
pauses, or that it ends. The jobs that repeat follow a ticker; ticks that come a little late are all
made up for, and those that one very late tick missed are skipped.
-/

namespace ChainSync

/-- A clock for something that is repeated. -/
structure Ticker where
  /-- The time from tick to tick. -/
  period : Millis
  /-- When the next tick is due; the first one is due when the task first runs. -/
  due : Option Millis
  deriving DecidableEq, Repr

namespace Ticker

/-- How late a tick may be before later ones are skipped. -/
def tolerance : Millis := 5

/-- A ticker that has not started. -/
def new (period : Millis) : Ticker := ⟨period, none⟩

/-- When the tick after one is due. -/
def after (period due now : Millis) : Millis :=
  if due + tolerance < now then now + period - (now - due) % period else due + period

/-- Counts the ticks that are due by `settled`, from one on, and says when the next one is due. -/
def count (period now settled : Millis) : Nat → Millis → Nat × Millis
  | 0, due => (0, due)
  | fuel + 1, due =>
    if due ≤ settled then
      let (more, due) := count period now settled fuel (after period due now)
      (more + 1, due)
    else (0, due)

/-- Takes the ticks that are due by the moment up to which timers have rung. A tick within the
tolerance is followed by a later one, and any other by one that is yet to come, so there are no more
of them than moments within the tolerance. -/
def take (t : Ticker) (now settled : Millis) : Nat × Ticker :=
  let (ticks, due) := count t.period now settled (tolerance + 1) (t.due.getD now)
  (ticks, { t with due := some due })

end Ticker

/-- How far the importer of pivot blocks has come. -/
structure PivotProgress where
  /-- The block that is required next, once the pivot is known. -/
  required : Option BlockId
  /-- When blocks were asked for. -/
  blocksAskedAt : Option Millis
  /-- When receipts were asked for. -/
  receiptsAskedAt : Option Millis
  deriving DecidableEq, Repr

namespace PivotProgress

def start : PivotProgress := ⟨none, none, none⟩

/-- The least time between two requests of a kind, and the time between two looks at the state. -/
def interval : Millis := 1000

/-- Something asked for at a time may be asked for again. -/
def isDue (askedAt : Option Millis) (now : Millis) : Bool :=
  askedAt.all fun asked ↦ interval ≤ now - asked

end PivotProgress

/-- What a task does. -/
inductive Job where
  /-- Passes of header requests. -/
  | headerRequests (ticker : Ticker)
  /-- Requests for what peers advertise. -/
  | statusRequests (ticker : Ticker)
  /-- Lines about the status. There is none for the first tick, which may be still to come. -/
  | statusLog (ticker : Ticker) (skipsTick : Bool)
  /-- The import of trie nodes. -/
  | trieImport
  /-- The import of the trie nodes that are left in an inbox that was replaced. -/
  | trieRest (jobs : List TrieJob)
  /-- The import of blocks down from the pivot, and of their receipts. -/
  | pivotBlocks (progress : PivotProgress)
  /-- The import of batches, which waits for fast synchronisation if it is gated. -/
  | importBatches (gated : Bool)
  deriving DecidableEq, Repr

namespace Job

/-- A job whose turn starts with a look at the switch of its task, and not with work. -/
def looksFirst : Job → Bool
  | .pivotBlocks _ | .importBatches _ => false
  | _ => true

end Job

/-- How long a task pauses, apart from signals. -/
inductive Pause where
  /-- Until a time, for which a timer is set. -/
  | until (due : Millis)
  /-- Until a tick; a timer that is set for it stays as it is. -/
  | untilTick (due : Millis)
  /-- Until something happens. -/
  | forever
  deriving DecidableEq, Repr

/-- How a turn of a task ended. -/
inductive TurnEnd where
  /-- The task pauses and goes on with a job. -/
  | pauses (job : Job) (pause : Pause)
  /-- The task gives way to others and then goes on with a job. -/
  | yields (job : Job)
  /-- The task has ended. -/
  | ends
  deriving DecidableEq, Repr

/-- What a task needs to know for a turn. -/
structure Turn where
  /-- The number of the task. -/
  task : TaskId
  /-- The time. -/
  now : Millis
  /-- The moment up to which timers have rung. -/
  settled : Millis
  /-- A signal woke the task. -/
  woken : Bool
  deriving DecidableEq, Repr

namespace Seat

def times (step : Step Seat Unit) : Nat → Step Seat Unit
  | 0 => return
  | count + 1 => do
    step
    times step count

/-- The signal that asks for header requests. -/
def headerSignal : Part Seat Signal :=
  enginePart.comp ⟨Engine.headerSignal, fun signal e ↦ { e with headerSignal := signal }⟩

/-- The signal that blocks from the pivot downwards have come. -/
def pivotSignal : Part Seat Signal :=
  enginePart.comp
    ⟨fun e ↦ e.fast.signal, fun signal e ↦ { e with fast := { e.fast with signal } }⟩

/-- The signal that batches wait for import. -/
def queueSignal : Part Seat Signal :=
  enginePart.comp
    ⟨fun e ↦ e.queue.signal, fun signal e ↦ { e with queue := { e.queue with signal } }⟩

/-- Waits on a signal; the answer says whether the task goes on at once. -/
def wait (signal : Part Seat Signal) (task : TaskId) : Step Seat Bool :=
  signal.run (Step.update (Signal.wait task))

/-- Waits on a signal after everything was done that a wake-up asks for, so that one which was
kept is used up. -/
def settle (signal : Part Seat Signal) (task : TaskId) : Step Seat Unit := do
  if ← wait signal task then
    discard (wait signal task)

/-- The pause until the next tick. -/
def untilTick (t : Turn) (ticker : Ticker) : Pause := .untilTick (ticker.due.getD t.now)

/-- A turn of the header requests: one pass for every tick, and one for a wake-up. -/
def turnHeaderRequests (t : Turn) (ticker : Ticker) : Step Seat TurnEnd := do
  let (ticks, ticker) := ticker.take t.now t.settled
  times (discard requestHeaders) (ticks + t.woken.toNat)
  if ← wait headerSignal t.task then
    discard requestHeaders
    discard (wait headerSignal t.task)
  return .pauses (.headerRequests ticker) (untilTick t ticker)

def turnStatusRequests (t : Turn) (ticker : Ticker) : Step Seat TurnEnd := do
  let (ticks, ticker) := ticker.take t.now t.settled
  times (discard requestStatus) ticks
  return .pauses (.statusRequests ticker) (untilTick t ticker)

def turnStatusLog (t : Turn) (ticker : Ticker) (skipsTick : Bool) : Step Seat TurnEnd := do
  let (ticks, ticker) := ticker.take t.now t.settled
  times (discard snapshot) (ticks - skipsTick.toNat)
  return .pauses (.statusLog ticker (skipsTick && ticks = 0)) (untilTick t ticker)

def importTries : List TrieJob → Step Seat Unit
  | [] => return
  | job :: rest => do
    discard (importTrie job)
    importTries rest

/-- How many trie nodes a task imports before it gives way. -/
def trieBudget : Nat := 128

/-- A turn of the import of trie nodes. It ends when no more can come. -/
def turnTrieImport : Step Seat TurnEnd := do
  let inbox := (← get).engine.inbox
  onEngine fun e ↦ { e with inbox := { e.inbox with jobs := inbox.jobs.drop trieBudget } }
  importTries (inbox.jobs.take trieBudget)
  return if trieBudget ≤ inbox.jobs.length then .yields .trieImport
    else if inbox.hasSender then .pauses .trieImport .forever
    else .ends

/-- A turn of the import of the trie nodes that are left. -/
def turnTrieRest (jobs : List TrieJob) : Step Seat TurnEnd := do
  importTries (jobs.take trieBudget)
  return if trieBudget ≤ jobs.length then .yields (.trieRest (jobs.drop trieBudget)) else .ends

/-- Takes the earliest batch that waits with a block of this hash. -/
def takeContaining (hash : Digest) : Step Seat (Option BlockBatch) :=
  Step.update fun s ↦
    match s.engine.fast.takeContaining hash with
    | none => (none, s)
    | some (batch, fast) => (some batch, { s with engine := { s.engine with fast } })

/-- What is left to do for the pivot's blocks. -/
inductive PivotNeed where
  /-- Blocks from one downwards. -/
  | blocks (target : BlockId)
  /-- A pivot. -/
  | pivot
  /-- Receipts only. -/
  | receipts
  /-- Nothing. -/
  | nothing
  deriving DecidableEq, Repr

/-- What is left to do, after walking down every batch that waits for its turn. Each walk takes a
batch away, so there are no more of them than batches. -/
def walkBuffered (now : Millis) : Nat → PivotProgress → Step Seat (PivotNeed × PivotProgress)
  | fuel, p => do
    let blocksDone ← isBlockDataComplete
    let fast := (← get).engine.fast
    if blocksDone then
      return (if fast.receipts.isEmpty then .nothing else .receipts, p)
    match p.required.or (fast.pivot.map Block.id) with
    | none => return (.pivot, p)
    | some target =>
      let p := { p with required := some target }
      match fuel with
      | 0 => return (.blocks target, p)
      | fuel + 1 =>
        match ← takeContaining target.hash with
        | none => return (.blocks target, p)
        | some batch =>
          let before := fast.receipts.size
          let required ← walkPivotChain target batch
          let after := (← get).engine.fast.receipts.size
          walkBuffered now fuel
            { p with
              required
              receiptsAskedAt := if before < after then some now else p.receiptsAskedAt }

/-- Asks for something again if it is due, and answers when it was asked for last. -/
def askIfDue (askedAt : Option Millis) (now : Millis) (ask : Step Seat Bool) :
    Step Seat (Option Millis) := do
  if PivotProgress.isDue askedAt now then
    if ← ask then
      return some now
  return askedAt

/-- A turn of the import of blocks down from the pivot. -/
def turnPivotBlocks (t : Turn) (p : PivotProgress) : Step Seat TurnEnd := do
  let batches := (← get).engine.fast.buffer.length
  let (need, p) ← walkBuffered t.now batches p
  if need = .nothing then
    return .ends
  let p ← match need with
    | .blocks target => do
      let blocksAskedAt ← askIfDue p.blocksAskedAt t.now (requestPivotBlocks target)
      pure { p with blocksAskedAt }
    | _ => pure p
  let receiptsAskedAt ← askIfDue p.receiptsAskedAt t.now requestWantedReceipts
  settle pivotSignal t.task
  return .pauses (.pivotBlocks { p with receiptsAskedAt })
    (.until (t.now + PivotProgress.interval))

/-- Imports every batch that waits; there are no more than `count`. -/
def importQueued : Nat → Step Seat Unit
  | 0 => return
  | count + 1 => do
    match ← popBatch with
    | none => return
    | some batch =>
      discard (processBatch batch)
      importQueued count

def gateInterval : Millis := 1000

/-- A turn of the import of batches. -/
def turnImportBatches (t : Turn) (gated : Bool) : Step Seat TurnEnd := do
  let isOpen ← if gated then isFastComplete else pure true
  if isOpen then
    importQueued (← get).engine.queue.size
    settle queueSignal t.task
    return .pauses (.importBatches gated) .forever
  else
    return .pauses (.importBatches gated) (.until (t.now + gateInterval))

def turn (t : Turn) : Job → Step Seat TurnEnd
  | .headerRequests ticker => turnHeaderRequests t ticker
  | .statusRequests ticker => turnStatusRequests t ticker
  | .statusLog ticker skipsTick => turnStatusLog t ticker skipsTick
  | .trieImport => turnTrieImport
  | .trieRest jobs => turnTrieRest jobs
  | .pivotBlocks p => turnPivotBlocks t p
  | .importBatches gated => turnImportBatches t gated

/-- The signal that a job waits on, if there is one. -/
def signal? : Job → Option (Part Seat Signal)
  | .headerRequests _ => some headerSignal
  | .pivotBlocks _ => some pivotSignal
  | .importBatches _ => some queueSignal
  | .statusRequests _ | .statusLog _ _ | .trieImport | .trieRest _ => none

/-- A task goes on: it leaves the signal that it waited on, and the answer says whether that woke
it. -/
def leave (task : TaskId) (job : Job) (s : Seat) : Bool × Seat :=
  match signal? job with
  | none => (false, s)
  | some part =>
    let (woken, signal) := (part.get s).leave task
    (woken, part.put signal s)

/-- A task has ended or is given up: it no longer waits, and takes no more answers. -/
def release (task : TaskId) (job : Job) (s : Seat) : Seat :=
  let s := match signal? job with
    | none => s
    | some part => part.put ((part.get s).forget task) s
  match job with
  | .trieImport => { s with engine := { s.engine with inbox := s.engine.inbox.dropReceiver } }
  | _ => s

/-- Something happened that lets a task that pauses go on. -/
def isRoused (task : TaskId) (job : Job) (s : Seat) : Bool :=
  match job, signal? job with
  | .trieImport, _ => !s.engine.inbox.jobs.isEmpty || !s.engine.inbox.hasSender
  | .trieRest _, _ => true
  | _, some part => (part.get s).woken.contains task
  | _, none => false

end Seat
end ChainSync
