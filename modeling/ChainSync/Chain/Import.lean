import ChainSync.Chain.Basic

/-!
# Linking blocks into the chain

A block is linked when its parent is stored with the number before its own, its header is sealed
and its body matches. A linked block whose total difficulty exceeds the best one becomes the head:
entries above it are cut, and parent links are followed down to the first height at which the
index already agrees. A list of blocks is linked in order up to the first one refused.
-/

namespace ChainSync
namespace Chain

/-- Follows parent links from a hash and makes each block canonical at its height. It stops where
the index already agrees, at height zero, and where no block is stored. -/
def relink (blocks : Std.ExtTreeMap Digest Block) : Nat → Digest → Canonical → Canonical
  | 0, _, index => index
  | fuel + 1, cursor, index =>
    match blocks[cursor]? with
    | none => index
    | some block =>
      if index.byNumber[block.number]? = some cursor then index
      else
        let index := index.put block.number cursor
        if block.number = 0 then index else relink blocks fuel block.parent index

/-- Makes a stored block the head of the canonical branch. A walk along parent links that ends at
all visits each stored block twice at most. It faults at the last height. -/
def setHead (c : Chain) (head : Digest) : Except Fault Chain :=
  match c.block? head with
  | none => .ok c
  | some block => do
    let _ ← checkedAdd block.number 1
    return { c with
      canonical := relink c.blocks (2 * c.blocks.size) head (c.canonical.cutAbove block.number)
      best := head }

/-- A new chain that holds one block only; it faults for a first block at the last height. -/
def new (genesis : Block) : Except Fault Chain :=
  setHead
    { blocks := (∅ : Std.ExtTreeMap Digest Block).insert genesis.hash genesis
      totals := (∅ : Std.ExtTreeMap Digest Difficulty).insert genesis.hash genesis.header.difficulty
      canonical := .empty
      best := genesis.hash
      pruneFloor := none
      trieNodes := .replicate ∅
      nextFailure := none
      nextTrieFailure := none
      handed := []
      flushes := 0
      corrections := 0 }
    genesis.hash

/-- Takes the error set for the next import of blocks, if there is one. -/
def takeFailure (c : Chain) : Option ChainError × Chain :=
  (c.nextFailure, { c with nextFailure := none })

def importBlock (block : Block) : Step Chain ImportOutcome := do
  let c ← get
  if (c.block? block.hash).isSome then
    return .exist
  match c.block? block.parent with
  | none => return .noParent
  | some parent =>
    let next ← checkedAdd parent.number 1
    if next ≠ block.number || !block.header.isSealed || !block.hasMatchingBody then
      return .invalid
    let c := { c with blocks := c.blocks.insert block.hash block }
    match c.totals[block.parent]? with
    | none =>
      set c
      return .imported false
    | some parentTotal =>
      let total := parentTotal + block.header.difficulty
      let c := { c with totals := c.totals.insert block.hash total }
      set c
      if c.totalDifficulty < total then
        let c ← c.setHead block.hash
        set c
        return .imported true
      else
        return .imported false

/-- Links blocks in order up to the first one refused: the hashes stored, and what became of the
last block attempted (`last` when there is none). -/
def importBlocks : List Block → ImportOutcome → Step Chain (List Digest × ImportOutcome)
  | [], last => return ([], last)
  | block :: rest, _ => do
    modify fun c ↦ { c with handed := block.hash :: c.handed }
    let outcome ← importBlock block
    match outcome with
    | .imported _ =>
      let (imported, last) ← importBlocks rest outcome
      return (block.hash :: imported, last)
    | .exist => importBlocks rest outcome
    | .noParent | .invalid => return ([], outcome)

/-- Links a list of blocks and reports what became of it, or answers the error set for it. -/
def connect (blocks : List Block) : Step Chain (Except ChainError ConnectReport) := do
  match ← Step.update takeFailure with
  | some error => return .error error
  | none =>
    let (imported, outcome) ← importBlocks blocks .exist
    return .ok { bestNumber := (← get).bestNumber, imported, outcome }

end Chain
end ChainSync
