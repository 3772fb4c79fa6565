import ChainSync.Task.Host

/-!
# A network of peers with one chain

Every peer of the network holds the same blocks and answers the requests of a host from them,
except for the peers that never answer and for the first so many requests for receipts.
-/

namespace ChainSync

/-- What the peers of a network hold, and which requests they leave without an answer. -/
structure Remote where
  /-- The blocks in order. -/
  blocks : List Block
  /-- The peers that never answer. -/
  mute : List PeerId
  /-- How many requests for receipts are still to be left without an answer. -/
  lostReceipts : Nat
  /-- The engine that blocks and receipts are for. -/
  fastSeat : SeatName
  /-- What the names of the peers start with. -/
  stem : String := "peer"
  deriving Repr

namespace Remote

/-- The status of the network: the height of its last block, and one more as its difficulty. -/
def status? (r : Remote) : Option PeerStatus :=
  r.blocks.getLast?.map fun last ↦
    ⟨last.number, last.hash, BitVec.ofNat 256 (last.number.toNat + 1)⟩

def blockAt? (r : Remote) (number : UInt64) : Option Block :=
  r.blocks.find? fun block ↦ block.number = number

def block? (r : Remote) (hash : Digest) : Option Block :=
  r.blocks.find? fun block ↦ block.hash = hash

/-- The blocks from a number on without a gap, `count` at most. -/
def upFrom (r : Remote) : Nat → UInt64 → List Block
  | 0, _ => []
  | count + 1, number =>
    match r.blockAt? number with
    | none => []
    | some block => block :: upFrom r count (number + 1)

/-- The blocks from a number down without a gap, `count` at most and none below number one. -/
def downFrom (r : Remote) : Nat → UInt64 → List Block
  | 0, _ => []
  | count + 1, number =>
    match r.blockAt? number with
    | none => []
    | some block => if number = 0 then [] else block :: downFrom r count (number - 1)

def nameOf (r : Remote) (peer : PeerId) : String := r.stem ++ "-" ++ toString peer.toNat

end Remote

namespace Host

def answerStatus (r : Remote) (peer : PeerId) : Step Host Unit := do
  match r.status? with
  | none => return
  | some status =>
    let now := (← get).now
    act .manager do
      Seat.onNode fun n ↦ { n with registry := n.registry.updateStatus peer status }
      discard (Seat.onStatus peer (r.nameOf peer) status now)

/-- Answers a message, and hands on the network with what it leaves out from now on. -/
def answer (r : Remote) (sent : Outbound) : Step Host Remote := do
  let peer := sent.peer
  let name := r.nameOf peer
  if r.mute.contains peer then
    return r
  match sent.message with
  | .requestStatus =>
    answerStatus r peer
    return r
  | .requestHeaders first count =>
    let blocks := r.upFrom count.toNat first
    discard (act .manager (Seat.onHeaders peer name (blocks.map Block.header)))
    return r
  | .requestBodies hashes =>
    discard (act .manager (Seat.onBodies peer ((hashes.filterMap r.block?).map Block.body)))
    return r
  | .requestBlocks start count _ =>
    let top := match start with
      | .hash hash => (r.block? hash).map Block.number
      | .number number => some number
    let blocks := (top.map fun number ↦ r.downFrom count.toNat number).getD []
    match r.fastSeat with
    | .manager => discard (act .manager (Seat.onBlocks peer name blocks))
    | .bench => act .bench (Seat.onFast fun f ↦ f.bufferBlocks ⟨peer, name, blocks⟩)
    return r
  | .requestReceipts hashes =>
    match r.lostReceipts with
    | lost + 1 => return { r with lostReceipts := lost }
    | 0 =>
      match r.fastSeat with
      | .manager => discard (act .manager (Seat.onReceipts peer hashes))
      | .bench => discard (act .bench (Seat.takeReceipts hashes))
      return r
  | .broadcastNewBlock _ => return r

/-- Answers messages in order. -/
def answerAll : List Outbound → Remote → Step Host Remote
  | [], r => return r
  | sent :: rest, r => do
    let r ← answer r sent
    answerAll rest r

/-- Takes the messages that were sent and not delivered yet. -/
def drainMessages : Step Host (List Outbound) :=
  Step.update fun h ↦
    let (sent, registry) := h.node.registry.drain
    (sent, { h with node := { h.node with registry } })

/-- Lets so many ticks pass. After each of them, the messages sent so far are answered, in the order
of the peers they were sent to. -/
def serveTicks (tick : Millis) : Nat → Remote → Step Host Unit
  | 0, _ => return
  | ticks + 1, r => do
    modify (Host.pass tick)
    let sent ← drainMessages
    let r ← answerAll (sent.mergeSort fun a b ↦ a.peer.toNat ≤ b.peer.toNat) r
    serveTicks tick ticks r

/-- Lets time pass in ticks, the last of which may end later. -/
def serve (tick span : Millis) (r : Remote) : Step Host Unit :=
  serveTicks tick ((span + tick - 1) / tick) r

end Host
end ChainSync
