import ChainSync.Block.Basic
import ChainSync.Chain.Outcome
import ChainSync.StorageError

/-!
# The chain and its canonical index

A chain stores blocks by hash, the total difficulty of those linked to the first block, and the
canonical index: which hash stands at each height of the chosen branch, and at which height a
canonical hash stands. The index is edited in two ways only, by putting one entry and by cutting
everything above a height, and both keep its two directions in step.
-/

namespace ChainSync

/-- The tries whose nodes are kept. -/
inductive Trie where
  /-- The world state. -/
  | state
  /-- Contract storage. -/
  | storage
  /-- Contract details. -/
  | details
  deriving DecidableEq, Repr, Inhabited

/-- A value for each trie. -/
structure PerTrie (α : Type) where
  /-- The value of the world state. -/
  state : α
  /-- The value of contract storage. -/
  storage : α
  /-- The value of contract details. -/
  details : α
  deriving Inhabited

namespace PerTrie

variable {α : Type}

/-- The same value for every trie. -/
def replicate (a : α) : PerTrie α := ⟨a, a, a⟩

def get (p : PerTrie α) : Trie → α
  | .state => p.state
  | .storage => p.storage
  | .details => p.details

def set (p : PerTrie α) (a : α) : Trie → PerTrie α
  | .state => { p with state := a }
  | .storage => { p with storage := a }
  | .details => { p with details := a }

@[simp] theorem get_replicate (a : α) (t : Trie) : (replicate a).get t = a := by
  cases t <;> rfl

@[simp] theorem get_set (p : PerTrie α) (a : α) (t u : Trie) :
    (p.set a t).get u = if t = u then a else p.get u := by
  cases t <;> cases u <;> rfl

end PerTrie

/-- The canonical index: the hash at each height, and the height of each canonical hash. -/
structure Canonical where
  /-- The hash that stands at a height. -/
  byNumber : Std.ExtTreeMap UInt64 Digest
  /-- The height at which a hash stands. -/
  byHash : Std.ExtTreeMap Digest UInt64

namespace Canonical

def empty : Canonical := ⟨∅, ∅⟩

/-- Puts a hash at a height; the hash that stood there loses its height. -/
def put (c : Canonical) (number : UInt64) (hash : Digest) : Canonical where
  byNumber := c.byNumber.insert number hash
  byHash :=
    (match c.byNumber[number]? with
      | some old => c.byHash.erase old
      | none => c.byHash).insert hash number

/-- Removes one entry in both directions. -/
def remove (c : Canonical) (number : UInt64) (hash : Digest) : Canonical where
  byNumber := c.byNumber.erase number
  byHash := c.byHash.erase hash

/-- The entries above a height, lowest first. -/
def above (c : Canonical) (number : UInt64) : List (UInt64 × Digest) :=
  c.byNumber.toList.filter fun entry ↦ number < entry.1

/-- Removes every entry above a height. -/
def cutAbove (c : Canonical) (number : UInt64) : Canonical :=
  (c.above number).foldl (fun c entry ↦ c.remove entry.1 entry.2) c

end Canonical

/-- A chain of blocks in memory. -/
structure Chain where
  /-- The stored blocks by hash. -/
  blocks : Std.ExtTreeMap Digest Block
  /-- The total difficulty of stored blocks that are linked to the first one. -/
  totals : Std.ExtTreeMap Digest Difficulty
  /-- The chosen branch. -/
  canonical : Canonical
  /-- The hash of the best block. -/
  best : Digest
  /-- The height below which blocks are pruned, if any are. -/
  pruneFloor : Option UInt64
  /-- The stored nodes of each trie. -/
  trieNodes : PerTrie (Std.ExtTreeMap Digest Bytes)
  /-- The error that the next import of blocks answers, if one is set. -/
  nextFailure : Option ChainError
  /-- The error that the next import of a trie node answers, if one is set. -/
  nextTrieFailure : Option ChainError
  /-- Every hash handed over to be linked, latest first. -/
  handed : List Digest
  /-- How often the chain was flushed. -/
  flushes : Nat
  /-- How often the canonical index was corrected. -/
  corrections : Nat

/-- What became of a list of blocks. -/
structure ConnectReport where
  /-- The number of the best block afterwards. -/
  bestNumber : UInt64
  /-- The hashes that were stored, in order. -/
  imported : List Digest
  /-- What became of the last block attempted. -/
  outcome : ImportOutcome
  deriving DecidableEq, Repr

namespace Chain

def block? (c : Chain) (hash : Digest) : Option Block := c.blocks[hash]?

def bestBlock (c : Chain) : Block := (c.block? c.best).getD .genesis

def bestNumber (c : Chain) : UInt64 := c.bestBlock.number

def totalDifficulty (c : Chain) : Difficulty := c.totals[c.best]?.getD 0

def canonicalHash? (c : Chain) (number : UInt64) : Option Digest :=
  c.canonical.byNumber[number]?

def blockAt? (c : Chain) (number : UInt64) : Option Block :=
  c.canonicalHash? number >>= c.block?

def hasBlockAt (c : Chain) (number : UInt64) : Bool := (c.canonicalHash? number).isSome

/-- The first `count` canonical entries from a height on, as long as their blocks are stored. -/
def canonicalHeaders (c : Chain) (first : UInt64) (count : Nat) : List Header :=
  let entries := (c.canonical.byNumber.toList.filter fun entry ↦ first ≤ entry.1).take count
  ((entries.map fun entry ↦ c.block? entry.2).takeWhile Option.isSome).filterMap
    (Option.map Block.header)

/-- A block is stored under this hash, and it has this number. -/
def isStored (c : Chain) (hash : Digest) (number : UInt64) : Bool :=
  (c.block? hash).any fun block ↦ block.number = number

def hasPruneFloor (c : Chain) : Bool := c.pruneFloor.isSome

def isPruned (c : Chain) (number : UInt64) : Bool :=
  c.pruneFloor.any fun floor ↦ number < floor

/-- Every hash handed over to be linked, in order. -/
def handedHashes (c : Chain) : List Digest := c.handed.reverse

end Chain
end ChainSync
