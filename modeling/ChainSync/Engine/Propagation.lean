import ChainSync.Engine.Basic

/-!
# Propagation of new blocks

A block made here is announced to every peer. A block announced by a peer is forwarded and linked
when its header is accepted, its hash was not announced before, and it follows the best block. It
is forwarded to the peers that do not advertise more than it, and never back to its sender.
-/

namespace ChainSync

/-- What became of a block that a peer announced. -/
inductive Propagation where
  /-- Nothing was done with it. -/
  | dropped
  /-- It was forwarded only. -/
  | propagated
  /-- It was linked only. -/
  | connected
  /-- It was forwarded and linked. -/
  | propagatedAndConnected
  deriving DecidableEq, Repr

namespace Propagation

/-- What became of a block that was or was not forwarded, and was or was not linked. -/
def ofFlags : Bool → Bool → Propagation
  | true, true => propagatedAndConnected
  | false, true => connected
  | true, false => propagated
  | false, false => dropped

def isConnected : Propagation → Bool
  | connected | propagatedAndConnected => true
  | dropped | propagated => false

def text : Propagation → String
  | dropped => "dropped"
  | propagated => "propagated"
  | connected => "connected"
  | propagatedAndConnected => "prop_connected"

end Propagation

namespace Node

/-- Sends a new block to some peers, in order. -/
def broadcast (block : Block) (peers : List PeerId) (n : Node) : Node :=
  peers.foldl (fun n peer ↦ n.send peer (.broadcastNewBlock block)) n

/-- The peers that a block from a peer is for: those that do not advertise more than it. -/
def forwardTargets (n : Node) (sender : PeerId) (block : Block) : List PeerId :=
  (n.registry.active.filter fun entry ↦
    entry.1 ≠ sender && entry.2.bestNumber ≤ block.number).map Prod.fst

end Node

namespace Seat

/-- Announces a block to every peer and answers how many there are. -/
def announce (block : Block) : Step Seat Nat := do
  onEngine fun e ↦ { e with announced := e.announced.insert block.hash }
  let peers := (← get).node.registry.active.map Prod.fst
  onNode (Node.broadcast block peers)
  return peers.length

/-- Forwards a block that a peer announced, unless nothing is to be forwarded here. It answers
whether there is anybody to forward it to. -/
def forward (sender : PeerId) (block : Block) : Step Seat Bool := do
  let s ← get
  let targets := s.node.forwardTargets sender block
  if !s.engine.settings.syncOnlyNode then
    onNode (Node.broadcast block targets)
  return !targets.isEmpty

/-- Links a block that a peer announced and answers whether it is stored now. -/
def linkAnnounced (block : Block) : Step Seat Bool := do
  match ← connect [block] with
  | .ok report =>
    if report.outcome.isStored then
      remember [block.hash]
      return true
    else
      return false
  | .error e =>
    onNode (Node.reportChainError e)
    return false

/-- Notes that a hash was announced and answers whether that is new. -/
def noteAnnounced (hash : Digest) : Step Seat Bool :=
  Step.update fun s ↦
    let (fresh, announced) := s.engine.announced.checkInsert hash
    (fresh, { s with engine := { s.engine with announced } })

/-- Takes a block that a peer announced. -/
def receiveAnnounced (sender : PeerId) (block : Block) : Step Seat Propagation := do
  if !(← get).node.accepts block.header then
    return .dropped
  if !(← noteAnnounced block.hash) then
    return .dropped
  if !(← (← get).node.extendsBest block) then
    return .dropped
  let forwarded ← forward sender block
  let linked ← linkAnnounced block
  return .ofFlags forwarded linked

end Seat
end ChainSync
