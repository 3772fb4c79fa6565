import ChainSync.Engine.Basic

/-!
# Importing batches

A batch loses the blocks that were imported before and those that are pruned, and what is left is
handed to the chain. A batch without a parent goes to the pending store. After a batch that was
stored, the levels of the pending store from its first number on are drained: every range that can
be linked now is linked, and each one linked may raise the last level.
-/

namespace ChainSync

/-- What became of a batch. -/
structure BatchReport where
  /-- The number of blocks left to import. -/
  filtered : Nat
  /-- The batch was passed over, its last block being stored. -/
  skipped : Bool
  /-- What became of the last block attempted. -/
  outcome : Option ImportOutcome
  /-- The number of blocks imported. -/
  imported : Nat
  /-- The number of blocks stored as pending. -/
  storedPending : Nat
  /-- The number of blocks imported from the pending store afterwards. -/
  drained : Nat
  /-- The mode that the batch moved its peer to. -/
  mode : Option SyncMode
  deriving DecidableEq, Repr

namespace BatchReport

/-- The report of a batch with so many blocks left, before anything is done with them. -/
def start (filtered : Nat) : BatchReport := ⟨filtered, false, none, 0, 0, 0, none⟩

end BatchReport

/-- How far a drain of the pending store has come. -/
structure Drain where
  /-- The last level to visit. -/
  lastLevel : UInt64
  /-- The number of blocks imported. -/
  drained : Nat
  /-- The keys of the current level that are done with, latest first. -/
  settled : List Digest
  deriving DecidableEq, Repr

namespace Drain

def settle (d : Drain) (key : Digest) : Drain := { d with settled := key :: d.settled }

/-- Is done with a key whose range was imported and lets the drain go up to a level. -/
def advance (d : Drain) (key : Digest) (imported : Nat) (level : UInt64) : Drain :=
  { lastLevel := max d.lastLevel level
    drained := d.drained + imported
    settled := key :: d.settled }

end Drain

namespace Seat

/-- The blocks that are neither imported nor pruned. -/
def wanted (s : Seat) (blocks : List Block) : List Block :=
  blocks.filter fun block ↦
    !s.engine.imported.contains block.hash && !s.node.chain.isPruned block.number

/-- The level above everything that a connected range reached. -/
def levelAbove (report : ConnectReport) (last : UInt64) : Except Fault UInt64 :=
  checkedAdd (max report.bestNumber last) 1

def loadPending (level : UInt64) : Step Seat (Except StoreError PendingQueues) :=
  Step.update fun s ↦
    let (answer, pending) := s.node.pending.load level
    (answer, { s with node := { s.node with pending } })

/-- Drops the ranges of a level that are done with. -/
def dropPending (level : UInt64) (keys : List Digest) (loaded : PendingQueues) :
    Step Seat Unit := do
  if !keys.isEmpty then
    let answer ← Step.update fun s ↦
      let (answer, pending) := s.node.pending.drop level keys loaded
      (answer, { s with node := { s.node with pending } })
    match answer with
    | .ok () => return
    | .error e => onNode (Node.reportStoreError e)

/-- Stores the blocks of a peer as pending and answers how many were written. -/
def storePending (peer : PeerId) (blocks : List Block) : Step Seat Nat := do
  let answer ← Step.update fun s ↦
    let (answer, pending) := s.node.pending.store blocks
    (answer, { s with node := { s.node with pending } })
  match answer with
  | .ok stored =>
    statsPart.run (Stats.recordStored peer (UInt64.ofNat stored))
    return stored
  | .error e =>
    onNode (Node.reportStoreError e)
    return 0

/-- Takes the batch with the lowest first number from the queue. -/
def popBatch : Step Seat (Option BlockBatch) :=
  Step.update fun s ↦
    let (batch, queue) := s.engine.queue.pop
    (batch, { s with engine := { s.engine with queue } })

end Seat

/-- Where batches are imported: a seat in a larger state, and what links blocks and remembers
hashes there. -/
structure ImportSite (σ : Type) where
  /-- The seat. -/
  seat : Part σ Seat
  /-- Links a list of blocks. It is given with the level and the key of the pending range that it is
  from; the blocks of a batch are from none. -/
  connect : Option (UInt64 × Digest) → List Block → Step σ (Except ChainError ConnectReport)
  /-- Remembers hashes as imported. -/
  remember : List Digest → Step σ Unit

namespace ImportSite

variable {σ : Type} (site : ImportSite σ)

/-- Remembers and counts what the chain imported of a peer's blocks. -/
def recordConnected (peer : PeerId) (report : ConnectReport) : Step σ Unit := do
  site.remember report.imported
  site.seat.run (Seat.statsPart.run
    (Stats.recordImported peer (UInt64.ofNat report.imported.length)))

/-- Hands a list to the chain and reports its error, or records what was imported. -/
def handOver (peer : PeerId) (range : Option (UInt64 × Digest)) (blocks : List Block) :
    Step σ (Except ChainError ConnectReport) := do
  match ← site.connect range blocks with
  | .error e =>
    site.seat.run (Seat.onNode (Node.reportChainError e))
    return .error e
  | .ok report =>
    site.recordConnected peer report
    return .ok report

/-- Hands the ranges of a level to the chain, one after the other. It answers whether the drain
goes on; an unrecoverable error of the chain ends it at once. -/
def drainRanges (peer : PeerId) (level : UInt64) :
    List (Digest × List Block) → Drain → Step σ (Bool × Drain)
  | [], d => return (true, d)
  | (key, blocks) :: rest, d => do
    let wanted := (← site.seat.run get).wanted blocks
    match wanted.getLast? with
    | none => drainRanges peer level rest (d.settle key)
    | some last =>
      match ← site.handOver peer (some (level, key)) wanted with
      | .error e => if e.isFatal then return (false, d) else drainRanges peer level rest d
      | .ok report =>
        match report.outcome with
        | .exist | .imported _ =>
          let above ← Seat.levelAbove report last.number
          let _ ← site.seat.run (Seat.applyMode peer (.drained report.outcome))
          drainRanges peer level rest (d.advance key report.imported.length above)
        | .invalid => drainRanges peer level rest (d.settle key)
        | .noParent => drainRanges peer level rest d

/-- Drains one level. It answers whether the drain goes on. -/
def drainLevel (peer : PeerId) (level : UInt64) (d : Drain) : Step σ (Bool × Drain) := do
  match ← site.seat.run (Seat.loadPending level) with
  | .error e =>
    site.seat.run (Seat.onNode (Node.reportStoreError e))
    return (false, d)
  | .ok queues =>
    let (goesOn, d) ← site.drainRanges peer level queues.toList { d with settled := [] }
    if goesOn then
      site.seat.run (Seat.dropPending level d.settled.reverse queues)
    return (goesOn, d)

/-- Drains the levels from one on, and answers how many blocks were imported. -/
def drain (peer : PeerId) (level : UInt64) (d : Drain) : Step σ Nat := do
  if d.lastLevel < level then
    return d.drained
  else
    let (goesOn, d) ← site.drainLevel peer level d
    if goesOn then
      match h : checkedAdd level 1 with
      | .error fault => throw fault
      | .ok next =>
        have := toNat_of_checkedAdd_eq_ok h
        have : next.toNat < UInt64.size := next.toNat_lt
        drain peer next d
    else
      return d.drained
termination_by UInt64.size - level.toNat
decreasing_by
  have : (1 : UInt64).toNat = 1 := rfl
  omega

/-- Hands the wanted blocks of a peer to the chain, the best block having been `bestBefore`, and
drains the pending store after them. -/
def importWanted (peer : PeerId) (bestBefore : UInt64) (blocks : List Block) (first last : Block) :
    Step σ BatchReport := do
  let start := BatchReport.start blocks.length
  match ← site.handOver peer none blocks with
  | .error _ => return start
  | .ok report =>
    let storedPending ← match report.outcome with
      | .noParent => site.seat.run (Seat.storePending peer blocks)
      | .invalid | .exist | .imported _ => pure 0
    let salvageLimit ← checkedAdd bestBefore 1
    let mode ← site.seat.run
      (Seat.applyMode peer (.connected report.outcome (first.number ≤ salvageLimit)))
    let drained ← if report.outcome.isStored then do
        let lastLevel ← Seat.levelAbove report last.number
        site.drain peer first.number ⟨lastLevel, 0, []⟩
      else pure 0
    return { start with
      outcome := some report.outcome
      imported := report.imported.length
      storedPending
      drained
      mode }

/-- Imports a batch. It is passed over when its last block is stored, except while a common
ancestor is looked for. -/
def processBatch (batch : BlockBatch) : Step σ BatchReport := do
  let s ← site.seat.run get
  let bestBefore := s.node.chain.bestNumber
  let mode := s.engine.modes.mode batch.peer
  let blocks := s.wanted batch.blocks
  let report ← match blocks.head?, blocks.getLast? with
    | some first, some last =>
      if mode ≠ .backward && s.node.chain.isStored last.hash last.number then do
        site.remember [last.hash]
        let mode ← site.seat.run (Seat.applyMode batch.peer .skippedKnown)
        pure { BatchReport.start blocks.length with skipped := true, mode }
      else site.importWanted batch.peer bestBefore blocks first last
    | _, _ => do
      let mode ← site.seat.run (Seat.applyMode batch.peer .emptyAfterFilter)
      pure { BatchReport.start 0 with mode }
  site.seat.run Seat.noteBest
  return report

end ImportSite

namespace Seat

/-- The seat itself as the place where batches are imported. -/
def importSite : ImportSite Seat := ⟨.whole, fun _ ↦ connect, remember⟩

/-- Remembers and counts what the chain imported of a peer's blocks. -/
def recordConnected (peer : PeerId) (report : ConnectReport) : Step Seat Unit :=
  importSite.recordConnected peer report

def drainRanges (peer : PeerId) (level : UInt64) (ranges : List (Digest × List Block))
    (d : Drain) : Step Seat (Bool × Drain) := importSite.drainRanges peer level ranges d

def drainLevel (peer : PeerId) (level : UInt64) (d : Drain) : Step Seat (Bool × Drain) :=
  importSite.drainLevel peer level d

def drain (peer : PeerId) (level : UInt64) (d : Drain) : Step Seat Nat :=
  importSite.drain peer level d

def importWanted (peer : PeerId) (bestBefore : UInt64) (blocks : List Block)
    (first last : Block) : Step Seat BatchReport :=
  importSite.importWanted peer bestBefore blocks first last

def processBatch (batch : BlockBatch) : Step Seat BatchReport := importSite.processBatch batch

@[simp] theorem importSite_run {α : Type} (step : Step Seat α) :
    importSite.seat.run step = step := rfl

@[simp] theorem importSite_connect (range : Option (UInt64 × Digest)) :
    importSite.connect range = connect := rfl

@[simp] theorem importSite_remember : importSite.remember = remember := rfl

@[simp] theorem importSite_recordConnected :
    importSite.recordConnected = recordConnected := rfl

@[simp] theorem importSite_drainRanges : importSite.drainRanges = drainRanges := rfl

@[simp] theorem importSite_drainLevel : importSite.drainLevel = drainLevel := rfl

@[simp] theorem importSite_drain : importSite.drain = drain := rfl

@[simp] theorem importSite_importWanted : importSite.importWanted = importWanted := rfl

end Seat
end ChainSync
