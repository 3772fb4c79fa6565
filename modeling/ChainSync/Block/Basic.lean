import ChainSync.Fault
import ChainSync.Keccak

/-!
# Blocks

A block is a header and a body of transaction hashes. A header is sealed when its hash is the
digest of its other fields, and it names its body through the digest of the transactions. A sealed
header whose root matches the body therefore commits to the whole block.
-/

namespace ChainSync

/-- A difficulty, and a sum of difficulties; sums wrap at 256 bits. -/
abbrev Difficulty := BitVec 256

/-- A block header. Its `hash` is what others refer to it by. -/
structure Header where
  /-- Height above the first block. -/
  number : UInt64
  /-- Hash of the preceding block. -/
  parent : Digest
  /-- Hash of this block. -/
  hash : Digest
  /-- Difficulty of this block alone. -/
  difficulty : Difficulty
  /-- Time of creation. -/
  timestamp : UInt64
  /-- Digest of the body's transactions. -/
  transactionsRoot : Digest
  /-- Digest of the state after this block. -/
  stateRoot : Digest
  deriving DecidableEq, Repr, Inhabited

/-- A block body: the transaction hashes in order. -/
structure Body where
  /-- Hashes of the transactions. -/
  transactions : List Digest
  deriving DecidableEq, Repr, Inhabited

/-- A header with a body. -/
structure Block where
  /-- The header. -/
  header : Header
  /-- The body. -/
  body : Body
  deriving DecidableEq, Repr, Inhabited

/-- The hash and number of a block. -/
structure BlockId where
  /-- The block's hash. -/
  hash : Digest
  /-- The block's number. -/
  number : UInt64
  deriving DecidableEq, Repr, Inhabited

/-- A reference to a block by its hash or by its number. -/
inductive BlockRef where
  /-- The block with this hash. -/
  | hash (hash : Digest)
  /-- The block at this height. -/
  | number (number : UInt64)
  deriving DecidableEq, Repr

namespace Header

/-- The bytes that the hash commits to: every field but the hash, at fixed widths. -/
def preimage (h : Header) : Bytes :=
  Bytes.ofNatBE 8 h.number.toNat ++ h.parent.toBytes ++ Bytes.ofNatBE 32 h.difficulty.toNat ++
    Bytes.ofNatBE 8 h.timestamp.toNat ++ h.transactionsRoot.toBytes ++ h.stateRoot.toBytes

/-- The hash that the other fields call for. -/
def computedHash (h : Header) : Digest := keccak256 h.preimage

/-- The hash field is the digest of the other fields. -/
def isSealed (h : Header) : Bool := h.hash = h.computedHash

/-- The header with the hash that its other fields call for. -/
def sealed (h : Header) : Header := { h with hash := h.computedHash }

def id (h : Header) : BlockId := ⟨h.hash, h.number⟩

@[simp] theorem preimage_sealed (h : Header) : h.sealed.preimage = h.preimage := rfl

/-- Sealing a header makes it sealed. -/
@[simp] theorem isSealed_sealed (h : Header) : h.sealed.isSealed = true :=
  decide_eq_true rfl

/-- The rule for headers from peers: sealed, and above the first block. -/
def isAcceptable (h : Header) : Bool := 0 < h.number && h.isSealed

end Header

namespace Body

/-- The root of a body: the digest of its transactions, or zero when there are none. -/
def transactionsRoot (b : Body) : Digest :=
  if b.transactions.isEmpty then .zero else keccak256 (b.transactions.flatMap Digest.toBytes)

end Body

namespace Block

def number (b : Block) : UInt64 := b.header.number

def hash (b : Block) : Digest := b.header.hash

def parent (b : Block) : Digest := b.header.parent

def id (b : Block) : BlockId := b.header.id

/-- The body is the one that the header names. -/
def hasMatchingBody (b : Block) : Bool := b.body.transactionsRoot = b.header.transactionsRoot

/-- A header with a body, if the body is the one that the header names. -/
def assemble (header : Header) (body : Body) : Option Block :=
  if body.transactionsRoot = header.transactionsRoot then some ⟨header, body⟩ else none

/-- Assembling keeps the header and the body, and asks only that the roots agree. -/
theorem assemble_eq_some_iff {header : Header} {body : Body} {b : Block} :
    assemble header body = some b ↔
      b = ⟨header, body⟩ ∧ body.transactionsRoot = header.transactionsRoot := by
  unfold assemble
  split <;> simp_all [eq_comm]

/-- The sealed block with the given contents. -/
def make (number : UInt64) (parent : Digest) (difficulty : Difficulty) (timestamp : UInt64)
    (transactions : List Digest) (stateRoot : Digest) : Block :=
  let body : Body := ⟨transactions⟩
  let header : Header :=
    { number, parent, hash := .zero, difficulty, timestamp,
      transactionsRoot := body.transactionsRoot, stateRoot }
  ⟨header.sealed, body⟩

/-- The block every chain starts from unless told otherwise. -/
def genesis : Block := make 0 .zero 1 0 [] .zero

/-- The sealed successor of a block; it faults at the last height. -/
def child (b : Block) (difficulty : Difficulty) (timestamp : UInt64) (transactions : List Digest)
    (stateRoot : Digest) : Except Fault Block := do
  let number ← checkedAdd b.number 1
  return make number b.hash difficulty timestamp transactions stateRoot

end Block
end ChainSync
