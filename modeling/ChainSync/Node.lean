import ChainSync.Chain.FastImport
import ChainSync.Peer.Registry
import ChainSync.Pending.Store
import ChainSync.Sync.Batch

/-!
# The node that engines work on

A node holds what all engines on it share: the chain, the connected peers, the pending store, the
rule for headers, and the alarms that unrecoverable errors raised.
-/

namespace ChainSync

/-- What engines work on. -/
structure Node where
  /-- The chain. -/
  chain : Chain
  /-- The connected peers and the messages to them. -/
  registry : Registry
  /-- The store of ranges that cannot be linked yet. -/
  pending : PendingStore
  /-- The rule for headers from peers. -/
  accepts : Header → Bool
  /-- The texts of unrecoverable errors, latest first. -/
  alarms : List String
  /-- An error that an engine's import of blocks answers, and how many imports come before it. -/
  laterFailure : Option (Nat × ChainError)
  /-- The time that requests and headers are stamped with. -/
  clock : Millis

namespace Node

def chainPart : Part Node Chain := ⟨chain, fun chain n ↦ { n with chain }⟩

/-- A node without peers over a chain and a pending store. -/
def new (chain : Chain) (pending : PendingStore) (accepts : Header → Bool) : Node :=
  ⟨chain, .empty, pending, accepts, [], none, 0⟩

def send (peer : PeerId) (message : Message) (n : Node) : Node :=
  { n with registry := n.registry.send peer message }

def alarm (text : String) (n : Node) : Node := { n with alarms := text :: n.alarms }

/-- Reports an error of the chain: an alarm is raised for an unrecoverable one only. -/
def reportChainError (e : ChainError) (n : Node) : Node :=
  if e.isFatal then n.alarm e.message else n

/-- Reports an error of the pending store: an alarm is raised for an unrecoverable one only. -/
def reportStoreError (e : StoreError) (n : Node) : Node :=
  if e.isFatal then n.alarm e.message else n

/-- Counts down to the error set for a later import; it is answered once. -/
def takeLaterFailure (n : Node) : Option ChainError × Node :=
  match n.laterFailure with
  | none => (none, n)
  | some (0, e) => (some e, { n with laterFailure := none })
  | some (count + 1, e) => (none, { n with laterFailure := some (count, e) })

def connect (blocks : List Block) : Step Node (Except ChainError ConnectReport) := do
  match ← Step.update takeLaterFailure with
  | some e => return .error e
  | none => chainPart.run (Chain.connect blocks)

/-- The block follows the best one, by number and by parent. -/
def extendsBest (n : Node) (block : Block) : Except Fault Bool := do
  let next ← checkedAdd n.chain.bestNumber 1
  return block.number = next && block.parent = n.chain.bestBlock.hash

end Node
end ChainSync
