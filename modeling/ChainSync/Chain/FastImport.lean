import ChainSync.Chain.Import

/-!
# Blocks without their ancestors

A fast import stores a sealed block before its parent is known, so that a branch can be fetched
from its head downwards. The first missing ancestor of a block says where the branch still has a
hole; once there is none, the block can be promoted to the head, which fills in total difficulties
along its branch and corrects the canonical index.
-/

namespace ChainSync
namespace Chain

/-- Stores a sealed block whether or not its parent is stored. -/
def fastImport (block : Block) (c : Chain) : Except ChainError ImportOutcome × Chain :=
  match c.takeFailure with
  | (some error, c) => (.error error, c)
  | (none, c) =>
    if (c.block? block.hash).isSome then (.ok .exist, c)
    else if !block.header.isSealed then (.ok .invalid, c)
    else
      let totals := match c.totals[block.parent]? with
        | some parentTotal =>
          c.totals.insert block.hash (parentTotal + block.header.difficulty)
        | none => c.totals
      (.ok (.imported false),
        { c with
          totals
          blocks := c.blocks.insert block.hash block
          canonical := c.canonical.put block.number block.hash })

/-- Follows parent links from a block with this number and parent to the first one not stored.
There is none below a block whose parent has a total difficulty, nor below height zero. -/
def missingFrom (c : Chain) : Nat → UInt64 → Digest → Option BlockId
  | 0, _, _ => none
  | fuel + 1, number, parent =>
    if number = 0 || (c.totals[parent]?).isSome then none
    else match c.block? parent with
      | some ancestor => missingFrom c fuel ancestor.number ancestor.parent
      | none => some ⟨parent, number - 1⟩

/-- The first ancestor of a block that is not stored, if there is one. -/
def missingAncestor (c : Chain) (block : Block) : Option BlockId :=
  c.missingFrom (c.blocks.size + 1) block.number block.parent

/-- The total difficulty at a hash, summed along parent links from the nearest one on record or
from nothing, with the totals met on the way put on record. -/
def totalAt (blocks : Std.ExtTreeMap Digest Block) :
    Nat → Digest → Std.ExtTreeMap Digest Difficulty → Difficulty × Std.ExtTreeMap Digest Difficulty
  | 0, _, totals => (0, totals)
  | fuel + 1, cursor, totals =>
    match totals[cursor]? with
    | some total => (total, totals)
    | none =>
      match blocks[cursor]? with
      | none => (0, totals)
      | some block =>
        let (below, totals) := totalAt blocks fuel block.parent totals
        let total := below + block.header.difficulty
        (total, totals.insert cursor total)

/-- Puts the total difficulties of a stored block and its branch on record. -/
def recordTotals (c : Chain) (hash : Digest) : Chain :=
  { c with totals := (totalAt c.blocks (c.blocks.size + 1) hash c.totals).2 }

/-- Makes a block the best one, storing it first if need be. -/
def setBest (block : Block) : Step Chain Unit := do
  let c ← get
  let c := if (c.block? block.hash).isSome then c
    else { c with blocks := c.blocks.insert block.hash block }
  let c := c.recordTotals block.hash
  set c
  set (← c.setHead block.hash)

/-- Recomputes totals and the canonical index below the best block. -/
def correct : Step Chain Unit := do
  let c ← get
  let c := c.recordTotals c.best
  set c
  let c ← c.setHead c.best
  set { c with corrections := c.corrections + 1 }

def flush (c : Chain) : Chain := { c with flushes := c.flushes + 1 }

/-- Stores a trie node whose key is the digest of its value. -/
def importTrieNode (key : Digest) (value : Bytes) (trie : Trie) (c : Chain) :
    Except ChainError TrieNodeOutcome × Chain :=
  match c.nextTrieFailure with
  | some error => (.error error, { c with nextTrieFailure := none })
  | none =>
    if value.isEmpty then (.ok .invalidValue, c)
    else if keccak256 value ≠ key then (.ok .invalidKey, c)
    else
      let nodes := c.trieNodes.get trie
      match nodes[key]? with
      | some known => (.ok (if known = value then .known else .inconsistent), c)
      | none =>
        (.ok .imported, { c with trieNodes := c.trieNodes.set (nodes.insert key value) trie })

def trieNode? (c : Chain) (trie : Trie) (key : Digest) : Option Bytes :=
  (c.trieNodes.get trie)[key]?

end Chain
end ChainSync
