/-!
# A seeded random generator

A stream of random words is made of blocks: sixteen 32-bit words in four rows, stirred for twelve
rounds by column and by diagonal and then added to where they started. The rows start from fixed
words, a key and the number of the block; the key is grown from a 64-bit seed.
-/

namespace ChainSync
namespace ChaCha

/-- Four words. -/
structure Row where
  /-- Word 0. -/
  a : UInt32
  /-- Word 1. -/
  b : UInt32
  /-- Word 2. -/
  c : UInt32
  /-- Word 3. -/
  d : UInt32
  deriving DecidableEq, Repr

namespace Row

def add (r s : Row) : Row := ⟨r.a + s.a, r.b + s.b, r.c + s.c, r.d + s.d⟩

def xor (r s : Row) : Row := ⟨r.a ^^^ s.a, r.b ^^^ s.b, r.c ^^^ s.c, r.d ^^^ s.d⟩

/-- A word rotated towards its high bits. -/
def rotateWord (w count : UInt32) : UInt32 := (w <<< count) ||| (w >>> (32 - count))

/-- Each word rotated towards its high bits. -/
def rotate (r : Row) (count : UInt32) : Row :=
  ⟨rotateWord r.a count, rotateWord r.b count, rotateWord r.c count, rotateWord r.d count⟩

/-- The words moved one place to the front, the first to the end. -/
def turn (r : Row) : Row := ⟨r.b, r.c, r.d, r.a⟩

def toList (r : Row) : List UInt32 := [r.a, r.b, r.c, r.d]

end Row

/-- Sixteen words in four rows. -/
structure Block where
  /-- Row 0. -/
  r0 : Row
  /-- Row 1. -/
  r1 : Row
  /-- Row 2. -/
  r2 : Row
  /-- Row 3. -/
  r3 : Row
  deriving DecidableEq, Repr

namespace Block

/-- Adds, mixes and rotates the rows against each other: one half of a stir. -/
def stirHalf (x : Block) (first second : UInt32) : Block :=
  let r0 := x.r0.add x.r1
  let r3 := (x.r3.xor r0).rotate first
  let r2 := x.r2.add r3
  let r1 := (x.r1.xor r2).rotate second
  ⟨r0, r1, r2, r3⟩

/-- Stirs the columns. -/
def stir (x : Block) : Block := (x.stirHalf 16 12).stirHalf 8 7

/-- Moves the diagonals into columns. -/
def slant (x : Block) : Block := ⟨x.r0, x.r1.turn, x.r2.turn.turn, x.r3.turn.turn.turn⟩

/-- Moves the columns back into diagonals. -/
def unslant (x : Block) : Block := ⟨x.r0, x.r1.turn.turn.turn, x.r2.turn.turn, x.r3.turn⟩

/-- Two rounds: the columns and the diagonals. -/
def doubleRound (x : Block) : Block := x.stir.slant.stir.unslant

/-- Twelve rounds, and the sum with the start. -/
def mix (x : Block) : Block :=
  let y := Nat.repeat doubleRound 6 x
  ⟨y.r0.add x.r0, y.r1.add x.r1, y.r2.add x.r2, y.r3.add x.r3⟩

def toList (x : Block) : List UInt32 :=
  x.r0.toList ++ x.r1.toList ++ x.r2.toList ++ x.r3.toList

end Block

/-- A random generator. -/
structure Random where
  /-- The first half of the key. -/
  keyLow : Row
  /-- The second half of the key. -/
  keyHigh : Row
  /-- How many words were drawn. -/
  drawn : Nat
  deriving DecidableEq, Repr

namespace Random

/-- The next state of the sequence that a key is grown from. -/
def nextSeed (s : UInt64) : UInt64 := s * 6364136223846793005 + 11634580027462260723

/-- The word that a state of that sequence contributes to the key. -/
def seedWord (s : UInt64) : UInt32 :=
  let x := (((s >>> 18) ^^^ s) >>> 27).toUInt32
  let count := (s >>> 59).toUInt32
  (x >>> count) ||| (x <<< (32 - count))

/-- The generator grown from a seed. -/
def ofSeed (seed : UInt64) : Random :=
  let s0 := nextSeed seed
  let s1 := nextSeed s0
  let s2 := nextSeed s1
  let s3 := nextSeed s2
  let s4 := nextSeed s3
  let s5 := nextSeed s4
  let s6 := nextSeed s5
  let s7 := nextSeed s6
  ⟨⟨seedWord s0, seedWord s1, seedWord s2, seedWord s3⟩,
    ⟨seedWord s4, seedWord s5, seedWord s6, seedWord s7⟩, 0⟩

/-- The block of the stream with a given number. -/
def block (g : Random) (number : Nat) : Block :=
  Block.mix ⟨⟨0x61707865, 0x3320646e, 0x79622d32, 0x6b206574⟩, g.keyLow, g.keyHigh,
    ⟨UInt32.ofNat number, UInt32.ofNat (number >>> 32), 0, 0⟩⟩

def word (g : Random) (index : Nat) : UInt32 :=
  ((g.block (index / 16)).toList[index % 16]?).getD 0

/-- Draws 64 bits: two words, the low one first. -/
def draw (g : Random) : UInt64 × Random :=
  ((g.word g.drawn).toUInt64 + ((g.word (g.drawn + 1)).toUInt64 <<< 32),
    { g with drawn := g.drawn + 2 })

/-- The greatest low half of a product that is taken for a range of `n` numbers: whole multiples of
the range make every number equally likely. -/
def zone (n : Nat) : Nat := (n <<< (63 - n.log2)) - 1

/-- Draws a number below `n` in at most `tries` draws, each of which is refused less than every
second time. -/
def belowIn (n : Nat) : Nat → Random → Nat × Random
  | 0, g => (0, g)
  | tries + 1, g =>
    let (v, g) := g.draw
    let product := v.toNat * n
    if product % UInt64.size ≤ zone n then (product / UInt64.size, g) else belowIn n tries g

/-- Draws a number below `n`, which is positive and has 64 bits at most. -/
def below (g : Random) (n : Nat) : Nat × Random := belowIn n 1024 g

end Random
end ChaCha
end ChainSync
