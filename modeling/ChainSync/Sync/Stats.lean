import ChainSync.Progress
import ChainSync.Sync.Batch

/-!
# Statistics

For each peer the statistics count requests by kind and the blocks received, imported and stored,
and measure how long answers take. An answer is paired with the earliest request of its kind that
waits; of those the latest sixty-four are remembered.
-/

namespace ChainSync

/-- The kinds of requests, in the order in which they are listed. -/
inductive RequestKind where
  /-- For what a peer advertises. -/
  | status
  /-- For headers. -/
  | headers
  /-- For bodies. -/
  | bodies
  /-- For whole blocks. -/
  | blocks
  /-- For receipts. -/
  | receipts
  deriving DecidableEq, Repr, Inhabited

namespace RequestKind

def all : List RequestKind := [status, headers, bodies, blocks, receipts]

def rank : RequestKind → Nat
  | status => 0
  | headers => 1
  | bodies => 2
  | blocks => 3
  | receipts => 4

def text : RequestKind → String
  | status => "status"
  | headers => "headers"
  | bodies => "bodies"
  | blocks => "blocks"
  | receipts => "receipts"

def ofText? (word : String) : Option RequestKind := all.find? fun k ↦ k.text = word

/-- The word tells kinds apart. -/
@[simp] theorem ofText?_text (k : RequestKind) : ofText? k.text = some k := by
  cases k <;> decide

instance : Ord RequestKind := ⟨fun a b ↦ compare a.rank b.rank⟩

instance : Std.TransOrd RequestKind where
  eq_swap := Std.OrientedOrd.eq_swap (α := Nat)
  isLE_trans := Std.TransOrd.isLE_trans (α := Nat)

instance : Std.LawfulEqOrd RequestKind where
  compare_self := Std.ReflOrd.compare_self (α := Nat)
  eq_of_compare {a b} h := by
    have hr : a.rank = b.rank := Std.LawfulEqOrd.eq_of_compare h
    cases a <;> cases b <;> first | rfl | cases hr

def sort (kinds : List RequestKind) : List RequestKind :=
  kinds.mergeSort fun a b ↦ a.rank ≤ b.rank

end RequestKind

/-- The requests of one kind to one peer. -/
structure RequestLog where
  /-- How many were sent. -/
  count : Nat
  /-- When those were sent that wait for an answer, earliest first. -/
  waiting : List Millis
  deriving DecidableEq, Repr

/-- The counters of one peer. -/
structure PeerCounters where
  /-- The name it is shown under. -/
  name : String
  /-- The requests of each kind that were sent. -/
  requests : Std.ExtTreeMap RequestKind RequestLog
  /-- The time answers took, summed. -/
  responseMillis : UInt64
  /-- How many answers were timed. -/
  responses : Nat
  /-- Blocks received from it. -/
  received : UInt64
  /-- Blocks of it imported. -/
  imported : UInt64
  /-- Blocks of it stored as pending. -/
  stored : UInt64

namespace PeerCounters

def zero : PeerCounters := ⟨"", ∅, 0, 0, 0, 0, 0⟩

/-- The mean time an answer took, once there is one. -/
def meanResponse (c : PeerCounters) : Option Float :=
  if c.responses = 0 then none
  else some (c.responseMillis.toFloat / (UInt64.ofNat c.responses).toFloat)

end PeerCounters

/-- The statistics of an engine. -/
structure Stats where
  /-- The local best block at the start. -/
  startBlock : UInt64
  /-- The local best block. -/
  bestBlock : UInt64
  /-- The greatest height reported by a peer. -/
  networkBest : UInt64
  /-- The counters of each peer. -/
  peers : Std.ExtTreeMap PeerId PeerCounters

namespace Stats

/-- Statistics that start at a block. -/
def new (startBlock : UInt64) : Stats := ⟨startBlock, startBlock, 0, ∅⟩

/-- How many requests of a kind wait for an answer at most. -/
def waitingLimit : Nat := 64

def counters (s : Stats) (peer : PeerId) : PeerCounters := s.peers[peer]?.getD .zero

def setCounters (s : Stats) (peer : PeerId) (c : PeerCounters) : Stats :=
  { s with peers := s.peers.insert peer c }

def notePeer (s : Stats) (peer : PeerId) (name : String) : Stats :=
  s.setCounters peer { s.counters peer with name }

/-- Keeps the counters of some peers only, and answers how many were dropped. -/
def retain (s : Stats) (keep : PeerId → Bool) : Nat × Stats :=
  let kept := s.peers.filter fun peer _ ↦ keep peer
  (s.peers.size - kept.size, { s with peers := kept })

def recordRequest (s : Stats) (peer : PeerId) (kind : RequestKind) (now : Millis) : Stats :=
  let c := s.counters peer
  let log := c.requests[kind]?.getD ⟨0, []⟩
  let waiting := if log.waiting.length < waitingLimit then log.waiting else log.waiting.drop 1
  s.setCounters peer
    { c with requests := c.requests.insert kind ⟨log.count + 1, waiting ++ [now]⟩ }

/-- Times an answer by the earliest request of its kind that waits, if there is one. -/
def recordResponse (peer : PeerId) (kind : RequestKind) (now : Millis) : Step Stats Unit := do
  let s ← get
  if let some c := s.peers[peer]? then
    if let some ⟨count, sent :: waiting⟩ := c.requests[kind]? then
      let c := { c with requests := c.requests.insert kind ⟨count, waiting⟩ }
      set (s.setCounters peer c)
      let responseMillis ← checkedAdd c.responseMillis (UInt64.ofNat (now - sent))
      set (s.setCounters peer { c with responseMillis, responses := c.responses + 1 })

/-- Counts blocks received from a peer. -/
def recordReceived (peer : PeerId) (blocks : UInt64) : Step Stats Unit := do
  let s ← get
  let c := s.counters peer
  set (s.setCounters peer c)
  let received ← checkedAdd c.received blocks
  set (s.setCounters peer { c with received })

/-- Counts imported blocks of a peer. -/
def recordImported (peer : PeerId) (blocks : UInt64) : Step Stats Unit := do
  if blocks ≠ 0 then
    let s ← get
    let c := s.counters peer
    set (s.setCounters peer c)
    let imported ← checkedAdd c.imported blocks
    set (s.setCounters peer { c with imported })

/-- Counts blocks of a peer that were stored as pending. -/
def recordStored (peer : PeerId) (blocks : UInt64) : Step Stats Unit := do
  if blocks ≠ 0 then
    let s ← get
    let c := s.counters peer
    set (s.setCounters peer c)
    let stored ← checkedAdd c.stored blocks
    set (s.setCounters peer { c with stored })

/-- Notes a height that a peer reported; only a greater one counts. -/
def noteNetworkBest (s : Stats) (number : UInt64) : Stats :=
  { s with networkBest := max s.networkBest number }

def noteBest (s : Stats) (number : UInt64) : Stats := { s with bestBlock := number }

/-- The distance to the greatest height reported. -/
def lag (s : Stats) : Option UInt64 := Progress.lag s.networkBest s.bestBlock

/-- The counters of every peer, by name and for equal names by identity. -/
def byName (s : Stats) : List (PeerId × PeerCounters) :=
  s.peers.toList.mergeSort fun a b ↦ a.2.name ≤ b.2.name

/-- The requests sent to a peer by kind, in the order of the kinds. -/
def requestCounts (c : PeerCounters) : List (RequestKind × Nat) :=
  c.requests.toList.map fun entry ↦ (entry.1, entry.2.count)

end Stats
end ChainSync
