import ChainSync.Digest

/-!
# The Keccak-256 hash

A state is five planes of five 64-bit lanes. Each round mixes column parities, rotates the lanes,
moves them across planes, combines each plane with its neighbours and adds a constant. A message
is padded to whole blocks of 136 bytes, which are added to the state one after another with the
rounds between them; the digest is the first 32 bytes of the last state.
-/

namespace ChainSync
namespace Keccak

/-- Five lanes that share a row. -/
structure Plane where
  /-- Lane 0. -/
  a : UInt64
  /-- Lane 1. -/
  b : UInt64
  /-- Lane 2. -/
  c : UInt64
  /-- Lane 3. -/
  d : UInt64
  /-- Lane 4. -/
  e : UInt64

namespace Plane

/-- The plane of zero lanes. -/
def zero : Plane := ⟨0, 0, 0, 0, 0⟩

/-- Lane-by-lane exclusive or. -/
def xor (p q : Plane) : Plane :=
  ⟨p.a ^^^ q.a, p.b ^^^ q.b, p.c ^^^ q.c, p.d ^^^ q.d, p.e ^^^ q.e⟩

/-- A lane rotated towards its high bits. -/
def rotateLane (lane count : UInt64) : UInt64 :=
  (lane <<< count) ||| (lane >>> (64 - count))

/-- Each lane rotated by its own count. -/
def rotate (p counts : Plane) : Plane :=
  ⟨rotateLane p.a counts.a, rotateLane p.b counts.b, rotateLane p.c counts.c,
    rotateLane p.d counts.d, rotateLane p.e counts.e⟩

/-- What column parities add to every plane: the parity on the left, and the one on the right
rotated by one. -/
def spread (p : Plane) : Plane :=
  ⟨p.e ^^^ rotateLane p.b 1, p.a ^^^ rotateLane p.c 1, p.b ^^^ rotateLane p.d 1,
    p.c ^^^ rotateLane p.e 1, p.d ^^^ rotateLane p.a 1⟩

/-- The nonlinear step: each lane is changed where the next is clear and the one after is set. -/
def combine (p : Plane) : Plane :=
  ⟨p.a ^^^ (~~~p.b &&& p.c), p.b ^^^ (~~~p.c &&& p.d), p.c ^^^ (~~~p.d &&& p.e),
    p.d ^^^ (~~~p.e &&& p.a), p.e ^^^ (~~~p.a &&& p.b)⟩

end Plane

/-- The 1600-bit state: five planes. -/
structure State where
  /-- Plane 0. -/
  p0 : Plane
  /-- Plane 1. -/
  p1 : Plane
  /-- Plane 2. -/
  p2 : Plane
  /-- Plane 3. -/
  p3 : Plane
  /-- Plane 4. -/
  p4 : Plane

namespace State

/-- The state before any input. -/
def zero : State := ⟨.zero, .zero, .zero, .zero, .zero⟩

/-- Plane-by-plane exclusive or. -/
def xor (s t : State) : State :=
  ⟨s.p0.xor t.p0, s.p1.xor t.p1, s.p2.xor t.p2, s.p3.xor t.p3, s.p4.xor t.p4⟩

/-- Adds the spread of the column parities to every plane. -/
def mixColumns (s : State) : State :=
  let added := ((((s.p0.xor s.p1).xor s.p2).xor s.p3).xor s.p4).spread
  ⟨s.p0.xor added, s.p1.xor added, s.p2.xor added, s.p3.xor added, s.p4.xor added⟩

/-- Rotates every lane by the count of its place. -/
def rotateLanes (s : State) : State :=
  ⟨s.p0.rotate ⟨0, 1, 62, 28, 27⟩, s.p1.rotate ⟨36, 44, 6, 55, 20⟩,
    s.p2.rotate ⟨3, 10, 43, 25, 39⟩, s.p3.rotate ⟨41, 45, 15, 21, 8⟩,
    s.p4.rotate ⟨18, 2, 61, 56, 14⟩⟩

/-- Moves lanes across planes: plane `y` receives, as lane `x`, the lane `x + 3 y` of plane `x`. -/
def moveLanes (s : State) : State :=
  ⟨⟨s.p0.a, s.p1.b, s.p2.c, s.p3.d, s.p4.e⟩, ⟨s.p0.d, s.p1.e, s.p2.a, s.p3.b, s.p4.c⟩,
    ⟨s.p0.b, s.p1.c, s.p2.d, s.p3.e, s.p4.a⟩, ⟨s.p0.e, s.p1.a, s.p2.b, s.p3.c, s.p4.d⟩,
    ⟨s.p0.c, s.p1.d, s.p2.e, s.p3.a, s.p4.b⟩⟩

/-- Applies the nonlinear step to every plane. -/
def combinePlanes (s : State) : State :=
  ⟨s.p0.combine, s.p1.combine, s.p2.combine, s.p3.combine, s.p4.combine⟩

/-- Adds a round's constant to the first lane. -/
def addConstant (s : State) (constant : UInt64) : State :=
  { s with p0 := { s.p0 with a := s.p0.a ^^^ constant } }

def round (s : State) (constant : UInt64) : State :=
  s.mixColumns.rotateLanes.moveLanes.combinePlanes.addConstant constant

/-- The constants of the twenty-four rounds. -/
def constants : List UInt64 :=
  [0x0000000000000001, 0x0000000000008082, 0x800000000000808a, 0x8000000080008000,
    0x000000000000808b, 0x0000000080000001, 0x8000000080008081, 0x8000000000008009,
    0x000000000000008a, 0x0000000000000088, 0x0000000080008009, 0x000000008000000a,
    0x000000008000808b, 0x800000000000008b, 0x8000000000008089, 0x8000000000008003,
    0x8000000000008002, 0x8000000000000080, 0x000000000000800a, 0x800000008000000a,
    0x8000000080008081, 0x8000000000008080, 0x0000000080000001, 0x8000000080008008]

/-- All rounds in order. -/
def permute (s : State) : State := constants.foldl round s

end State

/-- The lane written by the eight bytes at an offset, the least significant first; bytes past the
end count as zero. -/
def lane (block : Bytes) (index : Nat) : UInt64 :=
  UInt64.ofNat (Bytes.toNatLE ((block.drop (8 * index)).take 8))

/-- The number of bytes added to the state at a time. -/
def blockLength : Nat := 136

/-- A block of 136 bytes as a state whose last eight lanes are zero. -/
def ofBlock (block : Bytes) : State :=
  ⟨⟨lane block 0, lane block 1, lane block 2, lane block 3, lane block 4⟩,
    ⟨lane block 5, lane block 6, lane block 7, lane block 8, lane block 9⟩,
    ⟨lane block 10, lane block 11, lane block 12, lane block 13, lane block 14⟩,
    ⟨lane block 15, lane block 16, 0, 0, 0⟩, .zero⟩

/-- A message filled up to whole blocks: a one bit, zeros and a last one bit. -/
def pad (message : Bytes) : Bytes :=
  match blockLength - message.length % blockLength with
  | 0 => message
  | 1 => message ++ [0x81]
  | missing + 2 => message ++ 0x01 :: List.replicate missing 0 ++ [0x80]

/-- Adds the first `count` blocks to a state, permuting after each. -/
def absorb : Nat → Bytes → State → State
  | 0, _, s => s
  | count + 1, bytes, s =>
    absorb count (bytes.drop blockLength)
      (s.xor (ofBlock (bytes.take blockLength))).permute

/-- The first four lanes of a state as a digest. -/
def State.digest (s : State) : Digest :=
  .ofBytes ([s.p0.a, s.p0.b, s.p0.c, s.p0.d].flatMap fun lane ↦ Bytes.ofNatLE 8 lane.toNat)

end Keccak

/-- The Keccak-256 digest of a message. -/
@[irreducible] def keccak256 (message : Bytes) : Digest :=
  let padded := Keccak.pad message
  (Keccak.absorb (padded.length / Keccak.blockLength) padded .zero).digest

end ChainSync
