import ChainSync.ChaCha
import ChainSync.Peer.Registry
import ChainSync.Sync.HeaderStore
import ChainSync.Sync.Mode

/-!
# The schedule of header requests

Every connected peer is tracked and is either available or booked. A pass visits the available
peers whose chain is not lighter than the local one, in order of their identities, and gives each a
range of headers by its mode. A peer is booked by a request, and is available again while fewer
requests than allowed lie in the last second.
-/

namespace ChainSync

/-- A request for headers that a pass issues. -/
structure HeaderRequest where
  /-- The peer that is asked. -/
  peer : PeerId
  /-- The first height asked for. -/
  first : UInt64
  /-- How many headers are asked for. -/
  count : UInt32
  deriving DecidableEq, Repr

/-- What the schedule knows of one peer. -/
structure PeerRequests where
  /-- The name it is shown under. -/
  name : String
  /-- Its mode in the latest pass. -/
  mode : SyncMode
  /-- Where its latest request started, or zero when it was withheld. -/
  first : UInt64
  /-- The size of its latest request. -/
  size : UInt32
  /-- The height it advertises. -/
  lastBest : UInt64
  /-- When it was asked, earliest first. -/
  times : List Millis
  deriving DecidableEq, Repr

namespace PeerRequests

def minSize : UInt32 := 24

def maxSize : UInt32 := 40

/-- The span in which requests are counted. -/
def window : Millis := 1000

/-- A peer that was never asked. -/
def new (info : PeerInfo) : PeerRequests :=
  ⟨info.name, .normal, 0, minSize, info.bestNumber, []⟩

/-- The size that comes after one: two less, and from the least on to the greatest. Neighbouring
requests differ in size, so that answers can be told apart. -/
def sizeAfter (size : UInt32) : UInt32 := if size < minSize + 2 then maxSize else size - 2

def nextSize (p : PeerRequests) : UInt32 := sizeAfter p.size

/-- Is there room for another request in the last second? The earliest request is forgotten when
it is no longer in it. -/
def tryRelease (p : PeerRequests) (now : Millis) (maxPerSecond : Nat) : Bool × PeerRequests :=
  if p.times.length < maxPerSecond then (true, p)
  else match p.times with
    | [] => (false, p)
    | oldest :: rest =>
      if window ≤ now - oldest then (true, { p with times := rest }) else (false, p)

end PeerRequests

/-- The schedule of header requests. -/
structure RequestSchedule where
  /-- How many requests a peer may get in any second. -/
  maxPerSecond : Nat
  /-- The tracked peers. -/
  peers : Std.ExtTreeMap PeerId PeerRequests
  /-- The peers that can be asked. -/
  available : Std.ExtTreeSet PeerId
  /-- The peers that were asked as often as allowed. -/
  booked : Std.ExtTreeSet PeerId
  /-- Headers that wait for their bodies. -/
  headers : HeaderStore
  /-- The greatest local height so far. -/
  localHeight : UInt64
  /-- The greatest height that a connected peer advertises. -/
  networkHeight : UInt64
  /-- The end of the furthest request. -/
  requestHeight : UInt64
  /-- Picks one peer of several. -/
  random : ChaCha.Random

namespace RequestSchedule

/-- The overlap with the local chain while it is far behind. -/
def farOverlap : UInt64 := 3

/-- The overlap with the local chain while it is close. -/
def closeOverlap : UInt64 := 15

/-- From this distance on the local chain is far behind. -/
def overlapSwitch : UInt64 := 128

/-- How far a search for a common ancestor goes back in one step. -/
def backwardStep : UInt64 := 128

/-- From this distance of requests ahead of the local chain only one peer is asked in a pass. -/
def maxAhead : UInt64 := 10000

def new (maxPerSecond : Nat) (expiry : Millis) (seed : UInt64) : RequestSchedule where
  maxPerSecond := max maxPerSecond 1
  peers := ∅
  available := ∅
  booked := ∅
  headers := .empty expiry
  localHeight := 0
  networkHeight := 0
  requestHeight := 0
  random := .ofSeed seed

/-- Drops everything about a peer. -/
def removePeer (s : RequestSchedule) (peer : PeerId) : RequestSchedule :=
  { s with
    peers := s.peers.erase peer
    available := s.available.erase peer
    booked := s.booked.erase peer
    headers := (s.headers.removePeer peer).2 }

/-- Makes a booked peer available if it may be asked again. -/
def releaseIfAllowed (now : Millis) (s : RequestSchedule) (peer : PeerId) : RequestSchedule :=
  if !s.booked.contains peer then s
  else match s.peers[peer]? with
    | none => s
    | some p =>
      let (released, p) := p.tryRelease now s.maxPerSecond
      let s := { s with peers := s.peers.insert peer p }
      if released then
        { s with booked := s.booked.erase peer, available := s.available.insert peer }
      else s

/-- Tracks a peer that is connected, or notes what it advertises now. -/
def meet (s : RequestSchedule) (peer : PeerId) (info : PeerInfo) : RequestSchedule :=
  match s.peers[peer]? with
  | some p =>
    let p := { p with lastBest := info.bestNumber, name := info.name }
    { s with peers := s.peers.insert peer p }
  | none =>
    { s with
      peers := s.peers.insert peer (.new info)
      available := s.available.insert peer }

/-- The tracked peers that are no longer connected. -/
def departed (s : RequestSchedule) (registry : Registry) : List PeerId :=
  s.peers.keys.filter fun peer ↦ !registry.peers.contains peer

/-- The connected peers that are not tracked yet. -/
def joining (s : RequestSchedule) (registry : Registry) : List (PeerId × PeerInfo) :=
  registry.active.filter fun entry ↦ !s.peers.contains entry.1

/-- Brings the tracked peers in line with the connected ones and releases those that may be asked
again. -/
def refresh (s : RequestSchedule) (registry : Registry) (now : Millis) : RequestSchedule :=
  let s := (s.departed registry).foldl removePeer s
  let s := { s with
    networkHeight := (registry.bestHead).getD 0 }
  let s := registry.active.foldl (fun s entry ↦ s.meet entry.1 entry.2) s
  s.booked.toList.foldl (releaseIfAllowed now) s

/-- Drops header batches that waited too long. -/
def pruneHeaders (s : RequestSchedule) (now : Millis) : RequestSchedule :=
  { s with headers := (s.headers.prune now).2 }

/-- The available peers whose chain is at least as heavy as the local one. -/
def candidates (s : RequestSchedule) (registry : Registry) (localTotal : Difficulty) :
    List PeerId :=
  s.available.toList.filter fun peer ↦
    (registry.peers[peer]?).any fun info ↦ localTotal ≤ info.totalDifficulty

def setPeer (peer : PeerId) (p : PeerRequests) : Step RequestSchedule Unit :=
  modify fun s ↦ { s with peers := s.peers.insert peer p }

/-- Visits a peer in its mode: the request for it, unless it starts above what the peer advertises,
and where the next peer in the normal mode starts. -/
def visit (mode : SyncMode) (now : Millis) (peer : PeerId) (nextFirst : UInt64) :
    Step RequestSchedule (Option HeaderRequest × UInt64) := do
  match (← get).peers[peer]? with
  | none => return (none, nextFirst)
  | some p =>
    let p := { p with mode }
    setPeer peer p
    let size := p.nextSize
    let (first, nextFirst) ← match mode with
      | .backward => pure (max (monus p.first backwardStep) 1, nextFirst)
      | .forward => do
        let first ← checkedAdd p.first p.size.toUInt64
        pure (first, nextFirst)
      | .normal => do
        let first ← if p.first = nextFirst then checkedAdd nextFirst p.size.toUInt64
          else pure nextFirst
        setPeer peer { p with first }
        let after ← checkedAdd first size.toUInt64
        pure (first, max (← get).requestHeight after)
    let p := { p with first, size }
    setPeer peer p
    if first ≤ p.lastBest || p.lastBest = 0 then
      let after ← checkedAdd first size.toUInt64
      modify fun s ↦ { s with
        requestHeight := max s.requestHeight after
        peers := s.peers.insert peer { p with times := p.times ++ [now] }
        available := s.available.erase peer
        booked := s.booked.insert peer }
      return (some ⟨peer, first, size⟩, nextFirst)
    else
      setPeer peer { p with first := 0 }
      return (none, nextFirst)

def visitAll (modes : ModeTable) (now : Millis) :
    List PeerId → UInt64 → Step RequestSchedule (List HeaderRequest)
  | [], _ => return []
  | peer :: rest, nextFirst => do
    let (request, nextFirst) ← visit (modes.mode peer) now peer nextFirst
    let requests ← visitAll modes now rest nextFirst
    return request.toList ++ requests

/-- One of the candidates at random when requests are far ahead of the local chain, and else all of
them. -/
def pick (candidates : List PeerId) : Step RequestSchedule (List PeerId) := do
  let s ← get
  let limit ← checkedAdd s.localHeight maxAhead
  if limit < s.requestHeight && !candidates.isEmpty then
    let (index, random) := s.random.below candidates.length
    set { s with random }
    return candidates[index]?.toList
  else
    return candidates

/-- Issues the requests of a pass for the tracked peers as they stand. -/
def issue (registry : Registry) (modes : ModeTable) (now : Millis) (localBest : UInt64)
    (localTotal : Difficulty) : Step RequestSchedule (List HeaderRequest) := do
  modify fun s ↦ { s with localHeight := max s.localHeight localBest }
  let switch ← checkedAdd localBest overlapSwitch
  let s ← get
  let overlap := if switch ≤ s.networkHeight then farOverlap else closeOverlap
  let chosen ← pick (s.candidates registry localTotal)
  visitAll modes now chosen (max (monus localBest overlap) 1)

/-- Stores headers of a tracked peer until their bodies arrive, and releases the peer if it may be
asked again. -/
def storeHeaders (s : RequestSchedule) (batch : HeaderBatch) (now : Millis) : RequestSchedule :=
  if s.peers.contains batch.peer then
    releaseIfAllowed now { s with headers := s.headers.store batch } batch.peer
  else s

/-- Takes the earliest stored headers of a peer that are as many as `size`. -/
def matchHeaders (peer : PeerId) (size : Nat) (s : RequestSchedule) :
    Option HeaderBatch × RequestSchedule :=
  let (batch, headers) := s.headers.take peer size
  (batch, { s with headers })

end RequestSchedule
end ChainSync
