import ChainSync.Fast.State

/-!
# The chain that simulated peers hold

Every simulated peer holds the same blocks. All of them but the first commit to one state, a trie
with a root and some leaves under it. Half of the leaves come along with the root; the others are
sent on their own.
-/

namespace ChainSync

namespace SampleState

def size : Nat := 32

def leafValue (index : Nat) : Bytes := ("account-" ++ toString index).toUTF8.toList

/-- The key and the value of a leaf. -/
def leaf (index : Nat) : Digest × Bytes := (keccak256 (leafValue index), leafValue index)

def leaves : List (Digest × Bytes) := (List.range size).map leaf

/-- The value of the root: the keys of all leaves. -/
def rootValue : Bytes := leaves.flatMap fun entry ↦ entry.1.toBytes

def rootKey : Digest := keccak256 rootValue

/-- The answer with a node that refers to no others. -/
def single (node : Digest × Bytes) : TrieResponse := ⟨node.1, node.2, [], .state⟩

/-- The answer with the root. Every second leaf comes along with its value. -/
def rootResponse : TrieResponse :=
  ⟨rootKey, rootValue,
    leaves.zipIdx.map fun (node, index) ↦ (node.1, if index % 2 = 0 then node.2 else []), .state⟩

/-- The answers with the leaves that do not come along with the root. -/
def leafResponses : List TrieResponse :=
  (leaves.zipIdx.filter fun entry ↦ entry.2 % 2 = 1).map fun entry ↦ single entry.1

/-- All answers that bring the whole state. -/
def responses : List TrieResponse := rootResponse :: leafResponses

end SampleState

namespace Block

/-- The seconds between simulated blocks. -/
def samplePeriod : UInt64 := 12

/-- The transactions of a simulated block: one for even numbers. -/
def sampleTransactions (number : UInt64) : List Digest :=
  if number % 2 = 0 then [keccak256 (Bytes.ofNatBE 8 number.toNat)] else []

def sampleChild (b : Block) : Except Fault Block :=
  let number := b.number + 1
  b.child 1 (number * samplePeriod) (sampleTransactions number) SampleState.rootKey

/-- So many simulated blocks upon a block. -/
def sampleChildren : Nat → Block → Except Fault (List Block)
  | 0, _ => .ok []
  | count + 1, b => do
    let child ← b.sampleChild
    let rest ← sampleChildren count child
    return child :: rest

/-- A block that peers have not seen before, on the last simulated one. -/
def sampleSuccessor (b : Block) : Except Fault Block :=
  b.child 1 (b.header.timestamp + samplePeriod) [] SampleState.rootKey

end Block
end ChainSync
