import ChainSync.Bytes.Endian

/-!
# The 32-bit cyclic checksum

The remainder of a message by the reflected polynomial `0xedb88320`, starting from all ones and
complemented at the end.
-/

namespace ChainSync
namespace Checksum

/-- The reflected polynomial. -/
def polynomial : UInt32 := 0xedb88320

/-- Divides one bit out of the remainder. -/
def shiftBit (remainder : UInt32) : UInt32 :=
  if remainder &&& 1 = 1 then (remainder >>> 1) ^^^ polynomial else remainder >>> 1

/-- Takes one byte into the remainder. -/
def shiftByte (remainder : UInt32) (byte : UInt8) : UInt32 :=
  Nat.repeat shiftBit 8 (remainder ^^^ byte.toUInt32)

end Checksum

/-- The checksum of a message. -/
def crc32 (message : Bytes) : UInt32 :=
  ~~~(message.foldl Checksum.shiftByte 0xffffffff)

end ChainSync
