import ChainSync.Block.Basic

/-!
# Sample chains

A sample is a run of successive children of one block. What is in them follows from their numbers
and from a tag, so that samples with different tags are different branches.
-/

namespace ChainSync

/-- A run of successive children of one block. -/
structure Sample where
  /-- Tells branches apart. -/
  tag : UInt64
  /-- The number of transactions of each block. -/
  transactions : Nat
  /-- The difficulties of the blocks in turn. -/
  difficulties : List Difficulty
  /-- The state root of each block. -/
  stateRoot : Digest
  deriving Repr

namespace Sample

/-- A transaction of the block with a number. -/
def transaction (s : Sample) (number : UInt64) (index : Nat) : Digest :=
  keccak256
    (Bytes.ofNatBE 8 number.toNat ++ Bytes.ofNatBE 8 s.tag.toNat ++ Bytes.ofNatBE 8 index)

/-- The difficulty of the block at a position in the run. -/
def difficulty (s : Sample) (index : Nat) : Difficulty :=
  s.difficulties[index % s.difficulties.length]?.getD 1

/-- The child of a block, at a position in the run. -/
def next (s : Sample) (index : Nat) (parent : Block) : Except Fault Block :=
  let number := parent.number + 1
  parent.child (s.difficulty index) (number * 10 + s.tag)
    ((List.range s.transactions).map (s.transaction number)) s.stateRoot

/-- A run of so many blocks on a block, from a position on. -/
def runFrom (s : Sample) : Nat → Nat → Block → Except Fault (List Block)
  | 0, _, _ => .ok []
  | length + 1, index, parent => do
    let block ← s.next index parent
    let rest ← s.runFrom length (index + 1) block
    return block :: rest

/-- A run of so many blocks on a block. -/
def run (s : Sample) (length : Nat) (parent : Block) : Except Fault (List Block) :=
  s.runFrom length 0 parent

end Sample
end ChainSync
