import ChainSync.Block.Basic

/-!
# Peers and the messages sent to them

A peer is known by a 512-bit identity, ordered as a number, and by what it last advertised about
its chain.
-/

namespace ChainSync

/-- The identity of a peer. -/
structure PeerId where
  /-- The identity as a word. -/
  word : BitVec 512
  deriving DecidableEq, Repr, Inhabited

namespace PeerId

def ofNat (n : Nat) : PeerId := ⟨BitVec.ofNat 512 n⟩

def toNat (p : PeerId) : Nat := p.word.toNat

/-- The text of an identity: `0x` and 128 digits. -/
def text (p : PeerId) : String := Hex.ofBytes (Bytes.ofNatBE 64 p.toNat)

instance : Ord PeerId := ⟨fun a b ↦ compare a.word b.word⟩

instance : Std.TransOrd PeerId where
  eq_swap := Std.OrientedOrd.eq_swap (α := BitVec 512)
  isLE_trans := Std.TransOrd.isLE_trans (α := BitVec 512)

instance : Std.LawfulEqOrd PeerId where
  compare_self := Std.ReflOrd.compare_self (α := BitVec 512)
  eq_of_compare {a b} h := by
    have hw : a.word = b.word := Std.LawfulEqOrd.eq_of_compare h
    cases a
    cases b
    exact congrArg PeerId.mk hw

end PeerId

/-- What a peer last advertised. -/
structure PeerInfo where
  /-- The height of its best block. -/
  bestNumber : UInt64
  /-- The total difficulty of its chain. -/
  totalDifficulty : Difficulty
  /-- The name it is shown under. -/
  name : String
  deriving DecidableEq, Repr

/-- A peer's answer to a request for its status. -/
structure PeerStatus where
  /-- The height of its best block. -/
  bestNumber : UInt64
  /-- The hash of its best block. -/
  bestHash : Digest
  /-- The total difficulty of its chain. -/
  totalDifficulty : Difficulty
  deriving DecidableEq, Repr

/-- A message to a peer. -/
inductive Message where
  /-- Asks what the peer advertises. -/
  | requestStatus
  /-- Asks for `count` headers from a height on. -/
  | requestHeaders (first : UInt64) (count : UInt32)
  /-- Asks for the bodies of some headers. -/
  | requestBodies (hashes : List Digest)
  /-- Asks for `count` blocks from one on, downwards if `reverse`. -/
  | requestBlocks (start : BlockRef) (count : UInt32) (reverse : Bool)
  /-- Announces a new block. -/
  | broadcastNewBlock (block : Block)
  /-- Asks for the receipts of some transactions. -/
  | requestReceipts (transactions : List Digest)
  deriving DecidableEq, Repr

namespace Message

def name : Message → String
  | requestStatus => "request_status"
  | requestHeaders .. => "request_headers"
  | requestBodies _ => "request_bodies"
  | requestBlocks .. => "request_blocks"
  | broadcastNewBlock _ => "broadcast_new_block"
  | requestReceipts _ => "request_receipts"

end Message

/-- A message on its way to a peer. -/
structure Outbound where
  /-- The receiver. -/
  peer : PeerId
  /-- The message. -/
  message : Message
  deriving DecidableEq, Repr

end ChainSync
