import ChainSync.Fast.Ledger
import ChainSync.Sync.Batch
import ChainSync.Sync.Signal

/-!
# The state of fast synchronisation

Fast synchronisation fetches the state at a pivot block and the chain from the pivot downwards. Its
state is the pivot, the ledger of trie nodes, the receipts still wanted, the block batches that
wait for their turn, the latest failures, and two latches: all blocks are there, and all is done.
-/

namespace ChainSync

/-- Why a trie node was not imported. -/
inductive FailureReason where
  /-- The chain refused it. -/
  | rejected (outcome : TrieNodeOutcome)
  /-- The chain failed. -/
  | error (text : String)
  deriving DecidableEq, Repr

/-- A trie node that was not imported. -/
structure TrieFailure where
  /-- The key of the node. -/
  key : Digest
  /-- The trie of the node. -/
  trie : Trie
  /-- The peer that sent it. -/
  peer : PeerId
  /-- The name of that peer. -/
  name : String
  /-- Why it was not imported. -/
  reason : FailureReason
  /-- The number of the pivot at that time. -/
  pivotNumber : Option UInt64
  deriving DecidableEq, Repr

/-- Chooses the pivot after a failure, from the one before. -/
abbrev PivotPolicy := Block → TrieFailure → Block

namespace PivotPolicy

/-- Stays with the pivot. -/
def keep : PivotPolicy := fun pivot _ ↦ pivot

def always (block : Block) : PivotPolicy := fun _ _ ↦ block

end PivotPolicy

/-- Answers to take in place of measured ones. -/
structure CompletenessOverride where
  /-- All blocks are there. -/
  blocks : Option Bool
  /-- No receipts are wanted. -/
  receipts : Option Bool
  /-- The world state is complete. -/
  worldState : Option Bool
  /-- Contract details are complete. -/
  details : Option Bool
  /-- Contract storage is complete. -/
  storage : Option Bool
  deriving DecidableEq, Repr

namespace CompletenessOverride

/-- Every answer is measured. -/
def none : CompletenessOverride :=
  ⟨Option.none, Option.none, Option.none, Option.none, Option.none⟩

/-- Every answer is given. -/
def all (blocks receipts worldState details storage : Bool) : CompletenessOverride :=
  ⟨some blocks, some receipts, some worldState, some details, some storage⟩

end CompletenessOverride

/-- An answer with a trie node. -/
structure TrieResponse where
  /-- The key of the node. -/
  key : Digest
  /-- The value of the node. -/
  value : Bytes
  /-- The nodes it refers to, each key once; an empty value says only that there is such a node. -/
  references : List (Digest × Bytes)
  /-- The trie of the node. -/
  trie : Trie
  deriving DecidableEq, Repr

namespace TrieResponse

/-- Sets the value of a reference; a key that is there keeps its place. -/
def refer (r : TrieResponse) (key : Digest) (value : Bytes) : TrieResponse :=
  if r.references.any fun entry ↦ entry.1 = key then
    { r with
      references := r.references.map fun entry ↦ if entry.1 = key then (key, value) else entry }
  else { r with references := r.references ++ [(key, value)] }

end TrieResponse

/-- An answer with a trie node, and who sent it. -/
structure TrieJob where
  /-- The sender. -/
  peer : PeerId
  /-- The sender's name. -/
  name : String
  /-- The answer. -/
  response : TrieResponse
  deriving DecidableEq, Repr

/-- What became of an answer with a trie node. -/
structure TrieReport where
  /-- Nodes imported. -/
  imported : Nat
  /-- Nodes that were there before. -/
  skipped : Nat
  /-- Nodes that were not imported. -/
  failed : Nat
  deriving DecidableEq, Repr

/-- The state of fast synchronisation. -/
structure FastSync where
  /-- It is in use. -/
  enabled : Bool
  /-- Answers taken in place of measured ones. -/
  completeness : CompletenessOverride
  /-- Chooses the pivot after a failure. -/
  policy : PivotPolicy
  /-- The block whose state is fetched. -/
  pivot : Option Block
  /-- Every block down from the pivot has been there. -/
  blocksComplete : Bool
  /-- Everything has been complete. -/
  complete : Bool
  /-- The nodes of each trie. -/
  ledger : PerTrie TrieLedger
  /-- The transactions whose receipts are wanted. -/
  receipts : Std.ExtTreeSet Digest
  /-- The latest failures, latest first. -/
  failures : List TrieFailure
  /-- The top blocks of batches that were buffered. -/
  receivedBlocks : RecentSet Digest
  /-- The blocks that were imported. -/
  importedBlocks : RecentSet Digest
  /-- The batches that wait for their turn, earliest first. -/
  buffer : List BlockBatch
  /-- Wakes the importer of blocks. -/
  signal : Signal

namespace FastSync

/-- How many batches wait at most. -/
def bufferLimit : Nat := 64

/-- How many failures are remembered. -/
def failureLimit : Nat := 256

/-- The state before a pivot is chosen. -/
def new (enabled : Bool) (cacheSize : Nat) : FastSync where
  enabled
  completeness := .none
  policy := .keep
  pivot := none
  blocksComplete := false
  complete := false
  ledger := .replicate .empty
  receipts := ∅
  failures := []
  receivedBlocks := .empty cacheSize
  importedBlocks := .empty cacheSize
  buffer := []
  signal := .idle

def editLedger (f : FastSync) (trie : Trie) (edit : TrieLedger → TrieLedger) : FastSync :=
  { f with ledger := f.ledger.set (edit (f.ledger.get trie)) trie }

/-- No longer wants the state of the pivot before, if there was one. -/
def forgetPivot (f : FastSync) : FastSync :=
  match f.pivot with
  | none => f
  | some pivot => f.editLedger .state fun l ↦ l.settle pivot.header.stateRoot

/-- Chooses a pivot and wants its state. This is refused once all blocks are there. -/
def updatePivot (f : FastSync) (pivot : Block) : Bool × FastSync :=
  if f.blocksComplete then (false, f)
  else
    let root := pivot.header.stateRoot
    let f := { f.forgetPivot with pivot := some pivot }
    (true, if root = .zero then f else f.editLedger .state fun l ↦ l.want root)

/-- Remembers a failure; the earliest one gives way. -/
def recordFailure (f : FastSync) (failure : TrieFailure) : FastSync :=
  { f with failures := (failure :: f.failures).take failureLimit }

/-- Records a failure, and moves the pivot if the policy chooses another one. -/
def handleFailure (f : FastSync) (key : Digest) (trie : Trie) (peer : PeerId) (name : String)
    (reason : FailureReason) : FastSync :=
  let failure : TrieFailure :=
    { key, trie, peer, name, reason, pivotNumber := f.pivot.map Block.number }
  let f := match f.pivot with
    | none => f
    | some pivot =>
      if f.blocksComplete then f
      else
        let chosen := f.policy pivot failure
        if chosen.hash = pivot.hash then f else (f.updatePivot chosen).2
  f.recordFailure failure

/-- The last of the blocks with the greatest number. -/
def topBlock (blocks : List Block) : Option Block :=
  blocks.foldl
    (fun top block ↦ match top with
      | some held => if held.number ≤ block.number then some block else some held
      | none => some block)
    none

/-- Lets a batch of blocks wait for its turn, without those that were imported. A batch whose top
block was received before is dropped; the earliest batch gives way to a new one. -/
def bufferBlocks (f : FastSync) (batch : BlockBatch) : FastSync :=
  let blocks := batch.blocks.filter fun block ↦ !f.importedBlocks.contains block.hash
  match topBlock blocks with
  | none => f
  | some top =>
    let (fresh, receivedBlocks) := f.receivedBlocks.checkInsert top.hash
    if !fresh then f
    else
      let buffer := if f.buffer.length < bufferLimit then f.buffer else f.buffer.drop 1
      { f with
        receivedBlocks
        buffer := buffer ++ [{ batch with blocks }]
        signal := f.signal.raise }

/-- The batch holds a block with this hash. -/
def holds (hash : Digest) (batch : BlockBatch) : Bool :=
  batch.blocks.any fun block ↦ block.hash = hash

/-- Takes the earliest batch that holds a block with this hash, its blocks from the highest to the
lowest. -/
def takeContaining (f : FastSync) (hash : Digest) : Option (BlockBatch × FastSync) :=
  match f.buffer.find? (holds hash) with
  | none => none
  | some batch =>
    some ({ batch with blocks := batch.blocks.mergeSort fun a b ↦ b.number ≤ a.number },
      { f with buffer := f.buffer.eraseP (holds hash) })

/-- One more receipt arrived: it counts if it is wanted, and then no longer is. -/
def takeReceipt (taken : Nat × Std.ExtTreeSet Digest) (hash : Digest) :
    Nat × Std.ExtTreeSet Digest :=
  if taken.2.contains hash then (taken.1 + 1, taken.2.erase hash) else taken

/-- Takes receipts that arrived, and answers how many of them were wanted. -/
def takeReceipts (f : FastSync) (transactions : List Digest) : Nat × FastSync :=
  let (answered, receipts) := transactions.foldl takeReceipt (0, f.receipts)
  (answered, { f with receipts })

def wantReceipts (f : FastSync) (transactions : List Digest) : FastSync :=
  { f with receipts := transactions.foldl (fun wanted hash ↦ wanted.insert hash) f.receipts }

end FastSync
end ChainSync
