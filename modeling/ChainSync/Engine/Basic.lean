import ChainSync.Fast.State
import ChainSync.Node
import ChainSync.Settings
import ChainSync.Sync.ImportQueue
import ChainSync.Sync.RequestSchedule
import ChainSync.Sync.Stats

/-!
# Engines

An engine is the state of one synchronisation: the modes and counters of its peers, what it
imported, the queue of batches, the schedule of requests and the state of fast synchronisation. A
seat is an engine together with the node that it works on; the steps of synchronisation are steps
over a seat.
-/

namespace ChainSync

/-- The best chain that any peer advertised, as it was accepted last. -/
structure NetworkStatus where
  /-- The name of that peer. -/
  name : String
  /-- The total difficulty of the chain. -/
  totalDifficulty : Difficulty
  /-- The height of its best block. -/
  bestNumber : UInt64
  /-- The hash of its best block. -/
  bestHash : Digest
  deriving DecidableEq, Repr

namespace NetworkStatus

def none : NetworkStatus := ⟨"", 0, 0, .zero⟩

end NetworkStatus

/-- Answers with trie nodes on their way to the task that imports them. -/
structure TrieInbox where
  /-- The answers, earliest first. -/
  jobs : List TrieJob
  /-- More answers can be sent. -/
  hasSender : Bool
  /-- Somebody takes answers, now or later. -/
  hasReceiver : Bool
  /-- A task was given the receiving end. -/
  claimed : Bool
  deriving DecidableEq, Repr

namespace TrieInbox

/-- An inbox whose receiving end no task was given yet. -/
def opened : TrieInbox := ⟨[], true, true, false⟩

/-- An inbox with neither end. -/
def closed : TrieInbox := ⟨[], false, false, false⟩

/-- Sends an answer; it is accepted while there are both ends. -/
def send (job : TrieJob) (i : TrieInbox) : Bool × TrieInbox :=
  if i.hasSender && i.hasReceiver then (true, { i with jobs := i.jobs ++ [job] }) else (false, i)

/-- The receiving end is gone, and the answers with it. -/
def dropReceiver (i : TrieInbox) : TrieInbox := { i with jobs := [], hasReceiver := false }

end TrieInbox

/-- The state of one synchronisation. -/
structure Engine where
  /-- Its settings. -/
  settings : Settings
  /-- The modes of its peers. -/
  modes : ModeTable
  /-- The counters of its peers. -/
  stats : Stats
  /-- The hashes imported last. -/
  imported : RecentSet Digest
  /-- The batches that wait for import. -/
  queue : ImportQueue
  /-- The schedule of header requests. -/
  requests : RequestSchedule
  /-- The state of fast synchronisation. -/
  fast : FastSync
  /-- The hashes announced last. -/
  announced : RecentSet Digest
  /-- The best chain advertised. -/
  network : NetworkStatus
  /-- When that was accepted. -/
  networkUpdatedAt : Option Millis
  /-- Asks for a pass of header requests at once. -/
  headerSignal : Signal
  /-- Answers with trie nodes. -/
  inbox : TrieInbox

namespace Engine

/-- A new engine over a chain at a height. -/
def new (settings : Settings) (best : UInt64) (inbox : TrieInbox) : Engine where
  settings
  modes := .empty
  stats := .new best
  imported := .empty settings.importedCacheSize.toNat
  queue := .new settings.blocksQueueMax.toNat settings.importSlack
  requests := .new settings.requestLimit settings.headerLife (settings.seed.getD 0)
  fast := .new settings.fastSync settings.importedCacheSize.toNat
  announced := .empty settings.propagationCacheSize.toNat
  network := .none
  networkUpdatedAt := none
  headerSignal := .idle
  inbox

end Engine

/-- An engine at work on a node. -/
structure Seat where
  /-- The node. -/
  node : Node
  /-- The engine. -/
  engine : Engine

namespace Seat

def nodePart : Part Seat Node := ⟨node, fun node s ↦ { s with node }⟩

def enginePart : Part Seat Engine := ⟨engine, fun engine s ↦ { s with engine }⟩

def chainPart : Part Seat Chain := nodePart.comp Node.chainPart

def statsPart : Part Seat Stats :=
  enginePart.comp ⟨Engine.stats, fun stats e ↦ { e with stats }⟩

def requestsPart : Part Seat RequestSchedule :=
  enginePart.comp ⟨Engine.requests, fun requests e ↦ { e with requests }⟩

/-- The queue of the engine with the pending store of the node. -/
def queuePart : Part Seat (ImportQueue × PendingStore) where
  get s := (s.engine.queue, s.node.pending)
  put p s :=
    { node := { s.node with pending := p.2 }, engine := { s.engine with queue := p.1 } }

def onNode (f : Node → Node) : Step Seat Unit := modify fun s ↦ { s with node := f s.node }

def onEngine (f : Engine → Engine) : Step Seat Unit :=
  modify fun s ↦ { s with engine := f s.engine }

def onStats (f : Stats → Stats) : Step Seat Unit :=
  onEngine fun e ↦ { e with stats := f e.stats }

def onFast (f : FastSync → FastSync) : Step Seat Unit :=
  onEngine fun e ↦ { e with fast := f e.fast }

def remember (hashes : List Digest) : Step Seat Unit :=
  onEngine fun e ↦ { e with imported := e.imported.insertAll hashes }

/-- Moves the mode of a peer and answers it. -/
def applyMode (peer : PeerId) (event : ImportEvent) : Step Seat (Option SyncMode) :=
  Step.update fun s ↦
    let (mode, modes) := s.engine.modes.apply peer event
    (mode, { s with engine := { s.engine with modes } })

/-- Sends a message to a peer and counts the request. -/
def request (peer : PeerId) (kind : RequestKind) (message : Message) : Step Seat Unit := do
  onNode (Node.send peer message)
  let now := (← get).node.clock
  onStats fun s ↦ s.recordRequest peer kind now

def connect (blocks : List Block) : Step Seat (Except ChainError ConnectReport) :=
  nodePart.run (Node.connect blocks)

def noteBest : Step Seat Unit := do
  let best := (← get).node.chain.bestNumber
  onStats fun s ↦ s.noteBest best

end Seat
end ChainSync
