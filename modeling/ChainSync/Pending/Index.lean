import ChainSync.Block.Basic

/-!
# The index of pending ranges

A range of blocks that cannot be linked yet is filed under the number of its first block, its
level, and there under the hash of that block. Of two ranges with one key the longer stays, and
the earlier of two equally long ones. No level is kept without a range.
-/

namespace ChainSync

/-- The ranges of one level by the hash of their first block. -/
abbrev PendingQueues := Std.ExtTreeMap Digest (List Block)

/-- Pending ranges by level and key. -/
structure PendingIndex where
  /-- The ranges of each level. -/
  levels : Std.ExtTreeMap UInt64 PendingQueues

namespace PendingIndex

def empty : PendingIndex := ⟨∅⟩

def load (index : PendingIndex) (level : UInt64) : PendingQueues :=
  index.levels[level]?.getD ∅

/-- The range under a level and key. -/
def range? (index : PendingIndex) (level : UInt64) (key : Digest) : Option (List Block) :=
  (index.load level)[key]?

/-- Files a range under its first block, unless it is empty or as long a one is there. Answers the
level when it was filed. -/
def insert (index : PendingIndex) (blocks : List Block) : Option (UInt64 × PendingIndex) :=
  match blocks with
  | [] => none
  | first :: _ =>
    let queues := index.load first.number
    if (queues[first.hash]?).any fun held ↦ blocks.length ≤ held.length then none
    else some (first.number,
      ⟨index.levels.insert first.number (queues.insert first.hash blocks)⟩)

/-- Removes the ranges of a level under some keys, and the level with its last range. -/
def remove (index : PendingIndex) (level : UInt64) (keys : List Digest) : PendingIndex :=
  match index.levels[level]? with
  | none => index
  | some queues =>
    let queues := keys.foldl (fun queues key ↦ queues.erase key) queues
    if queues.isEmpty then ⟨index.levels.erase level⟩ else ⟨index.levels.insert level queues⟩

def count (index : PendingIndex) : Nat :=
  (index.levels.toList.map fun entry ↦ entry.2.size).foldr (· + ·) 0

/-- Every level with each of its ranges, levels ascending and keys ascending within them. -/
def toList (index : PendingIndex) : List (UInt64 × List Block) :=
  index.levels.toList.flatMap fun entry ↦ entry.2.toList.map fun queue ↦ (entry.1, queue.2)

end PendingIndex
end ChainSync
