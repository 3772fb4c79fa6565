import ChainSync.Json.Report
import ChainSync.Simulation.Network
import ChainSync.Simulation.Settings
import ChainSync.Task.Control
import ChainSync.Task.Remote

/-!
# Runs of a simulation

A simulation starts an engine among peers that hold a longer chain, and lets time pass until the
engine has caught up or the deadline has come. Time passes in milliseconds; the peers answer one
message after the other, each of them the latency after the one before.
-/

namespace ChainSync

/-- A simulation under way. -/
structure Simulation where
  /-- The host. -/
  host : Host
  /-- The peers. -/
  remote : Remote
  /-- The last block that the peers hold. -/
  goal : Block
  /-- The number of the pivot that was chosen. -/
  pivot : Option UInt64
  /-- How late the peers answer. -/
  latency : Millis
  /-- The messages to be answered, earliest first. -/
  waiting : List Outbound
  /-- When the earliest of them is answered. -/
  answersAt : Millis

/-- What became of a simulation. -/
structure SimulationSummary where
  /-- The engine has caught up with the peers. -/
  caughtUp : Bool
  /-- How long it ran. -/
  elapsed : Millis
  /-- The number of peers. -/
  peers : Nat
  /-- The number of the last block that the peers hold. -/
  remoteBest : UInt64
  /-- The number of the last block of the node. -/
  localBest : UInt64
  /-- The node holds that last block of the peers too. -/
  headMatches : Bool
  /-- The number of the pivot. -/
  pivot : Option UInt64
  /-- What became of a block that was announced after catching up. -/
  newBlock : Option Propagation
  /-- The tasks that did not end in time. -/
  abandoned : Nat
  /-- How far the engine came. -/
  snapshot : Snapshot

namespace SimulationSummary

/-- The members of a summary that do not tell about time and about the engine's state. -/
def members (s : SimulationSummary) : List (String × Json) :=
  [("caught_up", .bool s.caughtUp), ("peers", .ofNat s.peers),
    ("remote_best", .word s.remoteBest), ("local_best", .word s.localBest),
    ("head_matches", .bool s.headMatches), ("fast_sync_pivot", .ofOption .word s.pivot),
    ("new_block", .ofOption (fun p ↦ .text p.text) s.newBlock),
    ("abandoned_tasks", .ofNat s.abandoned)]

def toJson (s : SimulationSummary) : Json :=
  .object (s.members ++ [("elapsed_ms", .ofNat s.elapsed), ("status", s.snapshot.toJson)])

end SimulationSummary

namespace Simulation

/-- What the names of simulated peers start with. -/
def stem : String := "sim"

/-- The peer with the lowest number. -/
def firstPeer : PeerId := PeerId.ofNat 1

/-- How far below the last block the pivot is. -/
def pivotDistance : UInt64 := 16

/-- The time between two looks at the node. -/
def lookInterval : Nat := 100

/-- Runs a step of the engine. A fault ends the step; what it did before stays done. -/
def act {α : Type} (step : Step Seat α) (s : Simulation) : Except Fault α × Simulation :=
  let (answer, host) := (Host.act .manager step).exec s.host
  (answer, { s with host })

/-- Runs a step of the engine for what it does. -/
def perform {α : Type} (step : Step Seat α) (s : Simulation) : Simulation := (s.act step).2

/-- Connects the peers, each of them with the whole chain. -/
def connectPeers (remote : Remote) (goal : Block) (count : Nat) (registry : Registry) : Registry :=
  (List.range count).foldl
    (fun registry index ↦
      let peer := PeerId.ofNat (index + 1)
      let total : Difficulty := BitVec.ofNat 256 remote.blocks.length
      registry.upsert peer ⟨goal.number, total, remote.nameOf peer⟩)
    registry

def pivotNumber (goal : Block) : UInt64 := max (monus goal.number pivotDistance) 1

/-- Chooses the pivot, and hands the whole state to the engine. -/
def startFastSync (s : Simulation) : Simulation :=
  match s.remote.blockAt? (pivotNumber s.goal) with
  | none => s
  | some pivot =>
    let s := { s with pivot := some pivot.number }.perform (Seat.choosePivot pivot)
    SampleState.responses.foldl
      (fun s response ↦
        s.perform (Seat.onTrieNode ⟨firstPeer, s.remote.nameOf firstPeer, response⟩))
      s

/-- A simulation over a pending store, at its start. -/
def start (settings : SimulationSettings) (pending : PendingStore) : Except Fault Simulation := do
  let chain ← Chain.new .genesis
  let later ← Block.genesis.sampleChildren settings.blockCount
  let goal := later.getLast?.getD .genesis
  let remote : Remote := ⟨.genesis :: later, [], 0, .manager, stem⟩
  let node := Node.new chain pending Header.isAcceptable
  let registry := connectPeers remote goal settings.peerCount node.registry
  let s : Simulation :=
    { host := .ofSettings settings.engine { node with registry }
      remote
      goal
      pivot := none
      latency := settings.latency.toNat
      waiting := []
      answersAt := 0 }
  let s := if settings.engine.fastSync then s.startFastSync else s
  return { s with host := s.host.startManager }

/-- Takes the messages that the host sent. -/
def collect (s : Simulation) : Simulation :=
  let (sent, registry) := s.host.node.registry.drain
  { s with
    host := { s.host with node := { s.host.node with registry } }
    waiting := s.waiting ++ sent
    answersAt := if s.waiting.isEmpty then s.host.now + s.latency else s.answersAt }

/-- Answers messages in order, as long as they are due, and hands on those that are not. -/
def answerDue : List Outbound → Simulation → Simulation
  | [], s => { s with waiting := [] }
  | message :: rest, s =>
    if s.answersAt ≤ s.host.now then
      let (answer, host) := (Host.answer s.remote message).exec s.host
      let remote := match answer with
        | .ok remote => remote
        | .error _ => s.remote
      answerDue rest { s with host, remote, answersAt := s.answersAt + s.latency }
    else { s with waiting := message :: rest }

def tick (s : Simulation) : Simulation :=
  let host := s.host.pass 1
  let s := { s with host := { host with node := { host.node with clock := host.now } } }.collect
  (answerDue s.waiting s).collect

def ticks : Nat → Simulation → Simulation
  | 0, s => s
  | count + 1, s => ticks count s.tick

/-- The node has as many blocks as the peers. -/
def isCaughtUp (s : Simulation) : Bool := s.goal.number ≤ s.host.node.chain.bestNumber

/-- Lets time pass until the node has caught up, for so many looks at most. -/
def watch : Nat → Simulation → Simulation
  | 0, s => s
  | looks + 1, s => if s.isCaughtUp then s else watch looks (ticks lookInterval s)

/-- Announces a new block, if the node has caught up. -/
def announceNext (s : Simulation) : Except Fault (Option Propagation) × Simulation :=
  if s.isCaughtUp then
    s.act do
      let next ← s.goal.sampleSuccessor
      return some (← Seat.onNewBlock firstPeer next)
  else (.ok none, s)

/-- Ends a simulation: what became of it, and the host. -/
def finish (s : Simulation) : Except Fault (SimulationSummary × Host) := do
  let caughtUp := s.isCaughtUp
  let elapsed := s.host.now
  let (newBlock, s) := s.announceNext
  let (snapshot, s) := s.act Seat.snapshot
  let (abandoned, host) := s.host.stopManager
  let chain := host.node.chain
  let summary : SimulationSummary :=
    { caughtUp
      elapsed
      peers := host.node.registry.peers.size
      remoteBest := s.goal.number
      localBest := chain.bestNumber
      headMatches := chain.canonicalHash? s.goal.number = some s.goal.hash
      pivot := s.pivot
      newBlock := ← newBlock
      abandoned
      snapshot := ← snapshot }
  return (summary, host)

/-- Runs a simulation over a pending store. -/
def run (settings : SimulationSettings) (pending : PendingStore) :
    Except Fault (SimulationSummary × Host) := do
  let s ← start settings pending
  let looks := settings.deadline.toNat * 1000 / lookInterval
  (watch looks s).finish

end Simulation
end ChainSync
