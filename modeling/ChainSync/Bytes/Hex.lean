import ChainSync.Bytes.Endian

/-!
# Hexadecimal text

Bytes are written as two lowercase digits each behind `0x`, and a number as its digits without
leading zeros. Reading accepts both cases.
-/

namespace ChainSync
namespace Hex

/-- The lowercase digit of a value below sixteen. -/
def digit (n : Nat) : Char :=
  if n < 10 then Char.ofNat ('0'.toNat + n) else Char.ofNat ('a'.toNat + (n - 10))

/-- The value of a digit of either case. -/
def value? (c : Char) : Option Nat :=
  if '0' ≤ c ∧ c ≤ '9' then some (c.toNat - '0'.toNat)
  else if 'a' ≤ c ∧ c ≤ 'f' then some (c.toNat - 'a'.toNat + 10)
  else if 'A' ≤ c ∧ c ≤ 'F' then some (c.toNat - 'A'.toNat + 10)
  else none

/-- The two digits of every byte, in order. -/
def digitsOfBytes (bytes : Bytes) : List Char :=
  bytes.flatMap fun b ↦ [digit (b.toNat / 16), digit (b.toNat % 16)]

/-- Bytes as text: `0x` and two digits for each byte. -/
def ofBytes (bytes : Bytes) : String :=
  String.ofList ('0' :: 'x' :: digitsOfBytes bytes)

/-- A number as text: `0x` and its digits without leading zeros. -/
def ofNat (n : Nat) : String :=
  String.ofList ('0' :: 'x' :: Nat.toDigits 16 n)

/-- The bytes written by pairs of digits. -/
def bytesOfDigits? : List Char → Option Bytes
  | [] => some []
  | hi :: lo :: rest => do
    let hi ← value? hi
    let lo ← value? lo
    let tail ← bytesOfDigits? rest
    return UInt8.ofNat (16 * hi + lo) :: tail
  | [_] => none

/-- Drops a leading `0x` of either case, if there is one. -/
def withoutMark : List Char → List Char
  | '0' :: 'x' :: rest | '0' :: 'X' :: rest => rest
  | cs => cs

/-- The bytes written by a text of digit pairs, with or without a leading `0x`. -/
def toBytes? (text : String) : Option Bytes :=
  bytesOfDigits? (withoutMark text.toList)

end Hex
end ChainSync
