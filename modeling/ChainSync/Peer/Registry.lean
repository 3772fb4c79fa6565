import ChainSync.Peer.Basic

/-!
# The registry of connected peers

The registry holds what each connected peer last advertised, and collects outgoing messages in
the order in which they were sent.
-/

namespace ChainSync

/-- The connected peers, and the messages that wait for delivery. -/
structure Registry where
  /-- What each connected peer last advertised. -/
  peers : Std.ExtTreeMap PeerId PeerInfo
  /-- The messages that wait, latest first. -/
  outbox : List Outbound

namespace Registry

def empty : Registry := ⟨∅, []⟩

/-- The peers with what they advertised, in order of their identities. -/
def active (r : Registry) : List (PeerId × PeerInfo) := r.peers.toList

/-- Connects a peer, or replaces what it advertised. -/
def upsert (r : Registry) (peer : PeerId) (info : PeerInfo) : Registry :=
  { r with peers := r.peers.insert peer info }

def remove (r : Registry) (peer : PeerId) : Registry :=
  { r with peers := r.peers.erase peer }

/-- Takes the height and difficulty of a connected peer from its status. -/
def updateStatus (r : Registry) (peer : PeerId) (status : PeerStatus) : Registry :=
  match r.peers[peer]? with
  | none => r
  | some info => r.upsert peer
    { info with bestNumber := status.bestNumber, totalDifficulty := status.totalDifficulty }

/-- The largest of some heights, if there are any. -/
def highest (heights : List UInt64) : Option UInt64 :=
  heights.foldl (fun top n ↦ some (top.elim n (max n))) none

/-- The greatest height that any peer advertises. -/
def bestHead (r : Registry) : Option UInt64 :=
  highest (r.active.map fun entry ↦ entry.2.bestNumber)

def send (r : Registry) (peer : PeerId) (message : Message) : Registry :=
  { r with outbox := ⟨peer, message⟩ :: r.outbox }

/-- The messages that wait, in sending order, and the registry without them. -/
def drain (r : Registry) : List Outbound × Registry :=
  (r.outbox.reverse, { r with outbox := [] })

/-- The peer with the greatest height of at least `least`; of several, the one with the least
identity. -/
def bestPeer (r : Registry) (least : UInt64) : Option (PeerId × PeerInfo) :=
  (r.active.filter fun entry ↦ least ≤ entry.2.bestNumber).foldl
    (fun best entry ↦ match best with
      | some held => if held.2.bestNumber < entry.2.bestNumber then some entry else some held
      | none => some entry)
    none

end Registry
end ChainSync
