import ChainSync.Engine.HeaderPass
import ChainSync.Engine.Propagation
import ChainSync.Fast.Completion

/-!
# Messages from peers

Headers that pass the rule for headers wait for their bodies, which are asked for at once; bodies
that fit make a batch of blocks, which is queued for import. Blocks that arrive whole belong to
fast synchronisation as long as its block data is incomplete. A status may start a pass of header
requests, and is taken for the network's at most once a second.
-/

namespace ChainSync

namespace Engine

/-- The least time between two statuses taken for the network's. -/
def statusThrottle : Millis := 1000

/-- Takes a status for the network's, unless another was taken within the last second or knows a
heavier chain. -/
def noteNetwork (name : String) (status : PeerStatus) (now : Millis) (e : Engine) : Engine :=
  let throttled := e.networkUpdatedAt.any fun updated ↦ now - updated < statusThrottle
  if throttled || status.totalDifficulty < e.network.totalDifficulty then e
  else { e with
    network := ⟨name, status.totalDifficulty, status.bestNumber, status.bestHash⟩
    networkUpdatedAt := some now }

end Engine

namespace Seat

def recordResponse (peer : PeerId) (kind : RequestKind) : Step Seat Unit := do
  let now := (← get).node.clock
  statsPart.run (Stats.recordResponse peer kind now)

/-- A pass of header requests against the local chain. -/
def requestHeaders : Step Seat (List HeaderRequest) := do
  let n := (← get).node
  let requests ← headerPass n.clock n.chain.bestNumber n.chain.totalDifficulty
  let height := (← get).engine.requests.networkHeight
  onStats fun s ↦ s.noteNetworkBest height
  return requests

def requestStatusOf : List PeerId → Step Seat Unit
  | [] => return
  | peer :: rest => do
    request peer .status .requestStatus
    requestStatusOf rest

/-- Asks every peer for its status and answers how many there are. -/
def requestStatus : Step Seat Nat := do
  let peers := (← get).node.registry.active.map Prod.fst
  requestStatusOf peers
  return peers.length

/-- Takes the status of a peer at a time. It answers whether a pass of header requests is asked
for, which a chain heavier than the local one does. -/
def onStatus (peer : PeerId) (name : String) (status : PeerStatus) (now : Millis) :
    Step Seat Bool := do
  recordResponse peer .status
  onStats fun s ↦ s.noteNetworkBest status.bestNumber
  onEngine (Engine.noteNetwork name status now)
  let heavier : Bool := (← get).node.chain.totalDifficulty < status.totalDifficulty
  if heavier then
    onEngine fun e ↦ { e with headerSignal := e.headerSignal.raise }
  return heavier

/-- Takes headers from a peer, and answers how many bodies are asked for. -/
def onHeaders (peer : PeerId) (name : String) (headers : List Header) : Step Seat Nat := do
  recordResponse peer .headers
  let s ← get
  let now := s.node.clock
  match ← HeaderBatch.screen s.node.accepts s.engine.imported ⟨peer, name, headers, now⟩ with
  | none => return 0
  | some batch =>
    onEngine fun e ↦ { e with requests := e.requests.storeHeaders batch now }
    request peer .bodies (.requestBodies (batch.headers.map Header.hash))
    return batch.size

/-- Queues a batch for import. There is no answer when the pending store fails. -/
def enqueue (batch : BlockBatch) : Step Seat (Option PushOutcome) := do
  let best := (← get).node.chain.bestNumber
  match ← queuePart.run (ImportQueue.push batch best) with
  | .ok (.diverted stored) =>
    statsPart.run (Stats.recordStored batch.peer (UInt64.ofNat stored))
    return some (.diverted stored)
  | .ok outcome => return some outcome
  | .error e =>
    onNode (Node.reportStoreError e)
    return none

/-- Takes the earliest headers of a peer that are as many as the bodies. -/
def matchHeaders (peer : PeerId) (count : Nat) : Step Seat (Option HeaderBatch) :=
  requestsPart.run (Step.update (RequestSchedule.matchHeaders peer count))

/-- Counts the blocks of a batch as received from a peer. -/
def recordReceived (peer : PeerId) (count : Nat) : Step Seat Unit :=
  statsPart.run (Stats.recordReceived peer (UInt64.ofNat count))

/-- Takes the headers that bodies of a peer are for, and answers the batch of blocks that they make.
There is none where no headers wait that are as many, or where a body does not fit. -/
def pairBodies (peer : PeerId) (bodies : List Body) : Step Seat (Option BlockBatch) := do
  recordResponse peer .bodies
  match ← matchHeaders peer bodies.length with
  | none => return none
  | some headers =>
    match headers.assemble bodies with
    | none => return none
    | some batch =>
      recordReceived peer batch.size
      return some batch

/-- Takes bodies from a peer and hands the batch that they make to the import queue. -/
def onBodies (peer : PeerId) (bodies : List Body) : Step Seat (Option PushOutcome) := do
  match ← pairBodies peer bodies with
  | none => return none
  | some batch => enqueue batch

/-- Takes whole blocks from a peer: for fast synchronisation as long as its block data is
incomplete, and for import otherwise. -/
def onBlocks (peer : PeerId) (name : String) (blocks : List Block) :
    Step Seat (Option PushOutcome) := do
  recordResponse peer .blocks
  recordReceived peer blocks.length
  let enabled := (← get).engine.fast.enabled
  let needed ← if enabled then (! ·) <$> isBlockDataComplete else pure false
  if needed then
    onFast fun f ↦ f.bufferBlocks ⟨peer, name, blocks⟩
    return none
  else
    enqueue ⟨peer, name, blocks.mergeSort fun a b ↦ a.number ≤ b.number⟩

/-- Puts an answer with a trie node into the inbox, and answers whether it was accepted. -/
def postTrieNode (job : TrieJob) : Step Seat Bool :=
  Step.update fun s ↦
    let (accepted, inbox) := s.engine.inbox.send job
    (accepted, { s with engine := { s.engine with inbox } })

/-- Takes a trie node from a peer for import later; it is accepted while fast synchronisation is
in use. -/
def onTrieNode (job : TrieJob) : Step Seat Bool := do
  if (← get).engine.fast.enabled then postTrieNode job else return false

/-- Takes receipts, and answers how many of them were wanted. -/
def takeReceipts (transactions : List Digest) : Step Seat Nat :=
  Step.update fun s ↦
    let (answered, fast) := s.engine.fast.takeReceipts transactions
    (answered, { s with engine := { s.engine with fast } })

/-- Takes receipts from a peer, and answers how many of them were wanted. -/
def onReceipts (peer : PeerId) (transactions : List Digest) : Step Seat Nat := do
  recordResponse peer .receipts
  takeReceipts transactions

/-- Takes a block that a peer announced. -/
def onNewBlock (peer : PeerId) (block : Block) : Step Seat Propagation := do
  let became ← receiveAnnounced peer block
  if became.isConnected then
    noteBest
  return became

/-- Chooses the pivot, and answers whether that was still possible. -/
def choosePivot (block : Block) : Step Seat Bool :=
  Step.update fun s ↦
    let (accepted, fast) := s.engine.fast.updatePivot block
    (accepted, { s with engine := { s.engine with fast } })

end Seat
end ChainSync
