import ChainSync.Engine.Basic

/-!
# When fast synchronisation is complete

Block data is complete once no ancestor of the pivot is missing; the pivot is then promoted to the
best block, which happens once. All is complete once block data, receipts and the three tries are.
Both are latches: once they hold, they are not checked again.
-/

namespace ChainSync

namespace FastSync

/-- Everything except block data is complete, an answer that was given counting for a measured
one. -/
def isRestComplete (f : FastSync) : Bool :=
  f.completeness.receipts.getD f.receipts.isEmpty &&
    f.completeness.worldState.getD ((f.ledger.get .state).isComplete true) &&
    f.completeness.details.getD ((f.ledger.get .details).isComplete false) &&
    f.completeness.storage.getD ((f.ledger.get .storage).isComplete false)

end FastSync

namespace Seat

/-- Every block from the first one to the pivot is there. -/
def reachesPivot (s : Seat) (pivot : Block) : Bool :=
  s.node.chain.hasBlockAt 1 && (s.node.chain.missingAncestor pivot).isNone

/-- Makes the pivot the best block, corrects the chain and flushes it. -/
def promote (pivot : Block) : Step Seat Unit := do
  onFast fun f ↦ { f with blocksComplete := true }
  chainPart.run (Chain.setBest pivot)
  chainPart.run Chain.correct
  onNode fun n ↦ { n with chain := n.chain.flush }

/-- Is block data complete? The first time it is, the pivot is promoted. -/
def isBlockDataComplete : Step Seat Bool := do
  let s ← get
  if s.engine.fast.blocksComplete then
    return true
  match s.engine.fast.pivot with
  | none => return false
  | some pivot =>
    if s.reachesPivot pivot then
      promote pivot
      return true
    else
      return false

/-- Is everything complete? It is when fast synchronisation is not in use. -/
def isFastComplete : Step Seat Bool := do
  let fast := (← get).engine.fast
  if !fast.enabled || fast.complete then
    return true
  let blocks ← match fast.completeness.blocks with
    | some answer => pure answer
    | none => isBlockDataComplete
  let done := blocks && (← get).engine.fast.isRestComplete
  if done then
    onFast fun f ↦ { f with complete := true }
  return done

/-- What is complete as measured: blocks, receipts, world state, details and storage. -/
def measuredCompleteness : Step Seat (List Bool) := do
  let blocks ← isBlockDataComplete
  let fast := (← get).engine.fast
  return [blocks, fast.receipts.isEmpty, (fast.ledger.get .state).isComplete true,
    (fast.ledger.get .details).isComplete false, (fast.ledger.get .storage).isComplete false]

end Seat
end ChainSync
