import ChainSync.Block.Basic

/-!
# Blocks as bytes

Numbers are eight bytes, the least significant first. Digests and difficulties are byte strings:
their length and then 32 bytes, the most significant first. A list is its length and its members;
a record is its fields in order. A reader takes what it needs from the front and hands on the rest.
-/

namespace ChainSync

/-- Reads a value from the front of some bytes and hands on the rest, or fails. -/
abbrev Reader := StateT Bytes Option

namespace Reader

/-- Takes exactly `count` bytes. -/
def bytes (count : Nat) : Reader Bytes := fun input ↦
  let taken := input.take count
  if taken.length = count then some (taken, input.drop count) else none

/-- Takes a number of `width` bytes, the least significant first. -/
def number (width : Nat) : Reader Nat := do
  return Bytes.toNatLE (← bytes width)

def word64 : Reader UInt64 := do
  return UInt64.ofNat (← number 8)

/-- Takes a byte string that has to be 32 bytes long. -/
def bytes32 : Reader Bytes := do
  let length ← number 8
  if length = 32 then bytes 32 else failure

def digest : Reader Digest := do
  return Digest.ofBytes (← bytes32)

def difficulty : Reader Difficulty := do
  return BitVec.ofNat 256 (Bytes.toNatBE (← bytes32))

/-- Takes `count` values. -/
def times {α : Type} (one : Reader α) : Nat → Reader (List α)
  | 0 => return []
  | count + 1 => do
    let a ← one
    let rest ← times one count
    return a :: rest

/-- Takes a list: its length and its members. -/
def list {α : Type} (one : Reader α) : Reader (List α) := do
  let count ← number 8
  times one count

end Reader

namespace Binary

def word64 (n : UInt64) : Bytes := Bytes.ofNatLE 8 n.toNat

def digest (d : Digest) : Bytes := Bytes.ofNatLE 8 32 ++ d.toBytes

def difficulty (d : Difficulty) : Bytes := Bytes.ofNatLE 8 32 ++ Bytes.ofNatBE 32 d.toNat

def variant (index : Nat) : Bytes := Bytes.ofNatLE 4 index

/-- A list: its length and its members. -/
def list {α : Type} (one : α → Bytes) (as : List α) : Bytes :=
  Bytes.ofNatLE 8 as.length ++ as.flatMap one

def header (h : Header) : Bytes :=
  word64 h.number ++ digest h.parent ++ digest h.hash ++ difficulty h.difficulty ++
    word64 h.timestamp ++ digest h.transactionsRoot ++ digest h.stateRoot

def body (b : Body) : Bytes := list digest b.transactions

def block (b : Block) : Bytes := header b.header ++ body b.body

def blockId (i : BlockId) : Bytes := digest i.hash ++ word64 i.number

/-- A reference to a block: the variant and the hash or number. -/
def blockRef : BlockRef → Bytes
  | .hash d => variant 0 ++ digest d
  | .number n => variant 1 ++ word64 n

end Binary

namespace Reader

def header : Reader Header := do
  let number ← word64
  let parent ← digest
  let hash ← digest
  let difficulty ← difficulty
  let timestamp ← word64
  let transactionsRoot ← digest
  let stateRoot ← digest
  return { number, parent, hash, difficulty, timestamp, transactionsRoot, stateRoot }

def body : Reader Body := do
  return ⟨← list digest⟩

def block : Reader Block := do
  let header ← header
  let body ← body
  return ⟨header, body⟩

end Reader
end ChainSync
