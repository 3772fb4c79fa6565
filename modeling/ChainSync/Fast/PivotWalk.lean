import ChainSync.Engine.Basic

/-!
# The walk down from the pivot

Blocks below the pivot are asked for from a known hash downwards. A batch of them is walked from
the hash that is required next: a block that has it is stored, and its parent is required in turn.
A block that is there already moves the walk to the first ancestor that is missing, and ends it
when there is none.
-/

namespace ChainSync

/-- How far a walk has come. -/
structure PivotWalk where
  /-- The block that is required next. -/
  required : BlockId
  /-- The transactions of the blocks stored, in order. -/
  transactions : List Digest
  /-- No block is missing any more. -/
  finished : Bool
  deriving DecidableEq, Repr

namespace PivotWalk

/-- A walk from a block downwards. -/
def start (target : BlockId) : PivotWalk := ⟨target, [], false⟩

/-- A block was stored: its parent is required. -/
def descend (w : PivotWalk) (block : Block) : PivotWalk :=
  { w with
    required := ⟨block.parent, monus block.number 1⟩
    transactions := w.transactions ++ block.body.transactions }

end PivotWalk

namespace FastSync

/-- How many blocks are asked for at once. -/
def requestSize : UInt32 := 40

end FastSync

namespace Seat

/-- Stores a block whose ancestors may be missing. -/
def storeFast (block : Block) : Step Seat (Except ChainError ImportOutcome) :=
  Step.update fun s ↦
    let (answer, chain) := s.node.chain.fastImport block
    (answer, { s with node := { s.node with chain } })

end Seat

/-- Where blocks are walked down: a seat in a larger state, and what stores blocks there. -/
structure WalkSite (σ : Type) where
  /-- The seat. -/
  seat : Part σ Seat
  /-- Stores a block whose ancestors may be missing. -/
  storeFast : Block → Step σ (Except ChainError ImportOutcome)

namespace WalkSite

variable {σ : Type} (site : WalkSite σ)

/-- Walks down some blocks, the highest first. -/
def walkBlocks : List Block → PivotWalk → Step σ PivotWalk
  | [], w => return w
  | block :: rest, w => do
    if w.required.number < block.number then
      walkBlocks rest w
    else if block.hash ≠ w.required.hash then
      return w
    else
      match ← site.storeFast block with
      | .ok (.imported _) =>
        site.seat.run (Seat.onFast fun f ↦
          { f with importedBlocks := f.importedBlocks.insert block.hash })
        walkBlocks rest (w.descend block)
      | .ok .exist =>
        match (← site.seat.run get).node.chain.missingAncestor block with
        | some missing => walkBlocks rest { w with required := missing }
        | none => return { w with finished := true }
      | .ok .noParent | .ok .invalid => return w
      | .error e =>
        site.seat.run (Seat.onNode (Node.reportChainError e))
        return w

/-- Walks down a batch from a block, and asks its sender for the receipts of what was stored. It
answers the block that is required next, if any is. -/
def walkPivotChain (target : BlockId) (batch : BlockBatch) : Step σ (Option BlockId) := do
  let w ← site.walkBlocks batch.blocks (.start target)
  if !w.transactions.isEmpty then
    site.seat.run (Seat.onFast fun f ↦ f.wantReceipts w.transactions)
    site.seat.run (Seat.request batch.peer .receipts (.requestReceipts w.transactions))
  return if w.finished then none else some w.required

end WalkSite

namespace Seat

/-- The seat itself as the place where blocks are walked down. -/
def walkSite : WalkSite Seat := ⟨.whole, storeFast⟩

/-- Walks down some blocks, the highest first. -/
def walkBlocks (blocks : List Block) (w : PivotWalk) : Step Seat PivotWalk :=
  walkSite.walkBlocks blocks w

def walkPivotChain (target : BlockId) (batch : BlockBatch) : Step Seat (Option BlockId) :=
  walkSite.walkPivotChain target batch

@[simp] theorem walkSite_run {α : Type} (step : Step Seat α) : walkSite.seat.run step = step := rfl

@[simp] theorem walkSite_storeFast : walkSite.storeFast = storeFast := rfl

@[simp] theorem walkSite_walkBlocks : walkSite.walkBlocks = walkBlocks := rfl

/-- Asks the best peer for the blocks from one downwards. It answers whether there is a peer. -/
def requestPivotBlocks (target : BlockId) : Step Seat Bool := do
  match (← get).node.registry.bestPeer target.number with
  | none => return false
  | some (peer, _) =>
    request peer .blocks (.requestBlocks (.hash target.hash) FastSync.requestSize true)
    return true

/-- Asks the best peer for every receipt still wanted. It answers whether any was asked for. -/
def requestWantedReceipts : Step Seat Bool := do
  let s ← get
  let fast := s.engine.fast
  if fast.receipts.isEmpty then
    return false
  match s.node.registry.bestPeer ((fast.pivot.map Block.number).getD 0) with
  | none => return false
  | some (peer, _) =>
    request peer .receipts (.requestReceipts fast.receipts.toList)
    return true

end Seat
end ChainSync
