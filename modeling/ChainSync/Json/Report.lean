import ChainSync.Engine.Import
import ChainSync.Engine.Snapshot
import ChainSync.Json.Block
import ChainSync.Task.Job

/-!
# Reports in JSON

What an engine reports, as JSON. A peer is written as its number, except in the counters, which
show its whole identity. Statistics are the counters of an engine without what depends on how fast
it runs, unless the mean time of answers is asked for.
-/

namespace ChainSync

def PeerId.toJson (p : PeerId) : Json := .ofNat p.toNat

/-- The bits of a number as JSON. -/
def Json.bits (x : Float) : Json := .text (Hex.ofBytes (Bytes.ofNatBE 8 x.toBits.toNat))

def Duration.toJson (d : Duration) : Json :=
  .object [("secs", .word d.seconds), ("nanos", .ofNat d.nanos)]

def ImportOutcome.toJson (o : ImportOutcome) : Json := .text o.text

/-- An outcome as JSON in which the import of a block says in a member of its own whether the block
became the best one. -/
def ImportOutcome.toTaggedJson : ImportOutcome → Json
  | imported best => .object [("imported", .object [("best", .bool best)])]
  | o => o.toJson

def SyncMode.toJson (m : SyncMode) : Json := .text m.text

def NetworkStatus.toJson (n : NetworkStatus) : Json :=
  .object [("display_name", .text n.name),
    ("total_difficulty", Difficulty.toJson n.totalDifficulty),
    ("best_number", .word n.bestNumber), ("best_hash", n.bestHash.toJson)]

def PeerCounters.toJson (withMean : Bool) (peer : PeerId) (c : PeerCounters) : Json :=
  let requests := Stats.requestCounts c
  .object ([("peer", .text peer.text), ("name", .text c.name),
    ("requests", .ofList (fun r ↦ .array [.text r.1.text, .ofNat r.2]) requests),
    ("received", .word c.received), ("imported", .word c.imported), ("stored", .word c.stored)] ++
    if withMean then [("avg_response_ms", .ofOption .bits c.meanResponse)] else [])

def Stats.toJson (withMean : Bool) (s : Stats) : Json :=
  .object [("start", .word s.startBlock), ("best", .word s.bestBlock),
    ("network", .word s.networkBest), ("lag", .ofOption .word s.lag),
    ("peers", .ofList (fun entry ↦ entry.2.toJson withMean entry.1) s.byName)]

/-- The members of a snapshot, but for the statistics. -/
def Snapshot.members (s : Snapshot) : List (String × Json) :=
  [("local_best", .word s.localBest), ("network", s.network.toJson),
    ("lag", .ofOption .word s.lag), ("queue", .ofNat s.queueSize),
    ("pending", .ofNat s.pendingCount), ("header_batches", .ofNat s.headerBatches),
    ("backward", .ofNat s.backward), ("forward", .ofNat s.forward),
    ("fast_complete", .bool s.fastComplete)]

def Snapshot.toJson (s : Snapshot) : Json :=
  .object (s.members ++ [("stats", s.stats.toJson false)])

def HeaderBatch.toJson (b : HeaderBatch) : Json :=
  .object [("peer", b.peer.toJson), ("name", .text b.name), ("len", .ofNat b.size),
    ("hashes", .ofList (fun h ↦ h.hash.toJson) b.headers)]

def BlockBatch.toJson (b : BlockBatch) : Json :=
  .object [("peer", b.peer.toJson), ("name", .text b.name),
    ("first", .ofOption .word b.firstNumber?), ("last", .ofOption .word b.lastNumber?),
    ("len", .ofNat b.size), ("empty", .bool b.blocks.isEmpty)]

def BatchReport.toJson (r : BatchReport) : Json :=
  .object [("filtered", .ofNat r.filtered), ("skipped", .bool r.skipped),
    ("outcome", .ofOption ImportOutcome.toJson r.outcome), ("imported", .ofNat r.imported),
    ("stored_pending", .ofNat r.storedPending), ("drained", .ofNat r.drained),
    ("mode", .ofOption SyncMode.toJson r.mode)]

def PushOutcome.toJson : PushOutcome → Json
  | queued => .text "queued"
  | replaced => .text "replaced"
  | superseded => .text "superseded"
  | diverted stored => .object [("diverted", .ofNat stored)]
  | empty => .text "empty"

def ConnectReport.toJson (r : ConnectReport) : Json :=
  .object [("best_number", .word r.bestNumber), ("imported", .ofList Digest.toJson r.imported),
    ("outcome", r.outcome.toJson)]

def HeaderRequest.toJson (r : HeaderRequest) : Json :=
  .array [r.peer.toJson, .word r.first, .ofNat r.count.toNat]

def TrieReport.toJson (r : TrieReport) : Json :=
  .object [("imported", .ofNat r.imported), ("skipped", .ofNat r.skipped),
    ("failed", .ofNat r.failed)]

def FailureReason.toJson : FailureReason → Json
  | rejected outcome => .object [("rejected", .text outcome.text)]
  | error text => .object [("error", .text text)]

def TrieFailure.toJson (f : TrieFailure) : Json :=
  .object [("key", f.key.toJson), ("db", f.trie.toJson), ("peer", f.peer.toJson),
    ("name", .text f.name), ("reason", f.reason.toJson), ("pivot", .ofOption .word f.pivotNumber)]

/-- What a message says besides its name, as members of an object. -/
def Message.members : Message → List (String × Json)
  | requestStatus => []
  | requestHeaders first count => [("from", .word first), ("count", .ofNat count.toNat)]
  | requestBodies hashes => [("hashes", .ofList Digest.toJson hashes)]
  | requestBlocks (.hash hash) count reverse =>
    [("start", hash.toJson), ("count", .ofNat count.toNat), ("reverse", .bool reverse)]
  | requestBlocks (.number number) count reverse =>
    [("start", .word number), ("count", .ofNat count.toNat), ("reverse", .bool reverse)]
  | broadcastNewBlock block => [("block", block.hash.toJson)]
  | requestReceipts hashes => [("hashes", .ofList Digest.toJson hashes)]

def Outbound.toJson (o : Outbound) : Json :=
  .object ([("to", o.peer.toJson), ("msg", .text o.message.name)] ++ o.message.members)

/-- What a schedule knows of a peer, as members of an object. -/
def PeerRequests.members (p : PeerRequests) (available : Bool) : List (String × Json) :=
  [("mode", p.mode.toJson), ("from", .word p.first), ("size", .ofNat p.size.toNat),
    ("best", .word p.lastBest), ("available", .bool available)]

def ChainError.toJson (e : ChainError) : Json :=
  .object [("error", .text e.kind), ("message", .text e.message), ("fatal", .bool e.isFatal)]

def StoreError.toJson (e : StoreError) : Json :=
  .object [("error", .text e.kind), ("message", .text e.message), ("fatal", .bool e.isFatal)]

end ChainSync
