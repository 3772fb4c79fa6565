import ChainSync.Pending.Store
import ChainSync.Sync.Batch
import ChainSync.Sync.Signal

/-!
# The import queue

Batches wait in order of their first block. Of two batches with the same first number the longer
stays. A full queue still takes batches near the local best block, and hands those that are
further ahead to the pending store.
-/

namespace ChainSync

/-- What became of a batch that was pushed. -/
inductive PushOutcome where
  /-- It waits. -/
  | queued
  /-- It waits in place of a shorter one. -/
  | replaced
  /-- One at least as long waits already. -/
  | superseded
  /-- It went to the pending store, which wrote this many blocks. -/
  | diverted (stored : Nat)
  /-- It has no blocks. -/
  | empty
  deriving DecidableEq, Repr

/-- Batches that wait for import. -/
structure ImportQueue where
  /-- The batches by the number of their first block. -/
  batches : Std.ExtTreeMap UInt64 BlockBatch
  /-- From this number of batches on, batches far ahead are diverted. -/
  preferredSize : Nat
  /-- How far above the local best block a batch is not yet far ahead. -/
  slack : UInt64
  /-- Wakes the consumer. -/
  signal : Signal

namespace ImportQueue

/-- An empty queue; it prefers one batch at least. -/
def new (preferredSize : Nat) (slack : UInt64) : ImportQueue :=
  ⟨∅, max preferredSize 1, slack, .idle⟩

def size (q : ImportQueue) : Nat := q.batches.size

def wake (q : ImportQueue) : ImportQueue := { q with signal := q.signal.raise }

/-- Is a batch that starts at `first` to be diverted? The sum is taken of a full queue only. -/
def isFarAhead (q : ImportQueue) (first localBest : UInt64) : Except Fault Bool :=
  if q.size < q.preferredSize then .ok false
  else (checkedAdd localBest q.slack).map fun horizon ↦ decide (horizon < first)

/-- Lets a batch wait under its first number, unless one as long waits there. -/
def hold (q : ImportQueue) (first : UInt64) (batch : BlockBatch) : PushOutcome × ImportQueue :=
  let held := { q with batches := q.batches.insert first batch }.wake
  match q.batches[first]? with
  | none => (.queued, held)
  | some other => if batch.size ≤ other.size then (.superseded, q) else (.replaced, held)

def push (batch : BlockBatch) (localBest : UInt64) :
    Step (ImportQueue × PendingStore) (Except StoreError PushOutcome) := do
  let (q, pending) ← get
  match batch.firstNumber? with
  | none => return .ok .empty
  | some first =>
    if ← q.isFarAhead first localBest then
      let (stored, pending) := pending.store batch.blocks
      set (q, pending)
      return stored.map .diverted
    else
      let (outcome, q) := q.hold first batch
      set (q, pending)
      return .ok outcome

/-- Takes the batch with the lowest first number. -/
def pop (q : ImportQueue) : Option BlockBatch × ImportQueue :=
  match q.batches.minEntry? with
  | none => (none, q)
  | some (first, batch) => (some batch, { q with batches := q.batches.erase first })

end ImportQueue
end ChainSync
