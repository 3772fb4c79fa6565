import ChainSync.Sync.Batch

/-!
# Header batches that wait for their bodies

An answer with bodies does not say which headers it belongs to. All there is to go by is the peer
and the number of bodies, so for each peer and each number of headers there is a queue, and the
earliest batch of it is taken. A batch that waited for the whole expiry time is dropped. Every
operation that takes batches away also drops the queues it leaves empty, and then the peers that
have no queue left.
-/

namespace ChainSync

/-- The batches of one peer by their number of headers, earliest first. -/
abbrev HeaderQueues := Std.ExtTreeMap Nat (List HeaderBatch)

/-- Header batches by the peer that sent them and by their number. -/
structure HeaderStore where
  /-- The batches of each peer. -/
  queues : Std.ExtTreeMap PeerId HeaderQueues
  /-- How long a batch may wait. -/
  expiry : Millis

namespace HeaderQueues

def total (q : HeaderQueues) : Nat := q.foldl (fun count _ batches ↦ count + batches.length) 0

/-- Replaces the batches of one number of headers, and drops the queue if none is left. -/
def put (q : HeaderQueues) (size : Nat) (batches : List HeaderBatch) : HeaderQueues :=
  if batches.isEmpty then q.erase size else q.insert size batches

/-- Keeps some of the batches, and the queues that are left with any. -/
def retain (q : HeaderQueues) (keeps : HeaderBatch → Bool) : HeaderQueues :=
  q.filterMap fun _ batches ↦
    let kept := batches.filter keeps
    if kept.isEmpty then none else some kept

/-- The number of batches that are not kept. -/
def dropped (q : HeaderQueues) (keeps : HeaderBatch → Bool) : Nat :=
  q.foldl (fun count _ batches ↦ count + (batches.length - (batches.filter keeps).length)) 0

end HeaderQueues

namespace HeaderStore

def empty (expiry : Millis) : HeaderStore := ⟨∅, expiry⟩

/-- The queues of a peer; a peer that is not filed has none. -/
def queuesOf (s : HeaderStore) (peer : PeerId) : HeaderQueues := s.queues[peer]?.getD ∅

/-- The batches of a peer with so many headers, earliest first. -/
def queue (s : HeaderStore) (peer : PeerId) (size : Nat) : List HeaderBatch :=
  (s.queuesOf peer)[size]?.getD []

def waiting (s : HeaderStore) (peer : PeerId) : List HeaderBatch :=
  (s.queuesOf peer).toList.flatMap Prod.snd

/-- Adds a batch unless it is empty. -/
def store (s : HeaderStore) (batch : HeaderBatch) : HeaderStore :=
  if batch.headers.isEmpty then s
  else
    let queues := (s.queuesOf batch.peer).insert batch.size
      (s.queue batch.peer batch.size ++ [batch])
    { s with queues := s.queues.insert batch.peer queues }

/-- Takes the earliest batch of a peer with exactly `size` headers. -/
def take (s : HeaderStore) (peer : PeerId) (size : Nat) : Option HeaderBatch × HeaderStore :=
  match s.queues[peer]? with
  | none => (none, s)
  | some queues =>
    match queues[size]? with
    | none => (none, s)
    | some batches =>
      let left := queues.put size batches.tail
      let filed := if left.isEmpty then s.queues.erase peer else s.queues.insert peer left
      (batches.head?, { s with queues := filed })

/-- Drops the batches of a peer and answers how many there were. -/
def removePeer (s : HeaderStore) (peer : PeerId) : Nat × HeaderStore :=
  ((s.queuesOf peer).total, { s with queues := s.queues.erase peer })

def size (s : HeaderStore) : Nat := s.queues.foldl (fun count _ queues ↦ count + queues.total) 0

def isEmpty (s : HeaderStore) : Bool := s.queues.isEmpty

/-- A batch has not waited for the whole expiry time. -/
def isFresh (s : HeaderStore) (now : Millis) (batch : HeaderBatch) : Bool :=
  now - batch.receivedAt < s.expiry

/-- Drops the batches that waited for the whole expiry time and answers how many there were. -/
def prune (s : HeaderStore) (now : Millis) : Nat × HeaderStore :=
  let dropped := s.queues.foldl (fun count _ queues ↦ count + queues.dropped (s.isFresh now)) 0
  let kept := s.queues.filterMap fun _ queues ↦
    let left := queues.retain (s.isFresh now)
    if left.isEmpty then none else some left
  (dropped, { s with queues := kept })

end HeaderStore
end ChainSync
