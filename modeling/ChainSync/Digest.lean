import Std.Data.ExtTreeMap
import Std.Data.ExtTreeSet
import ChainSync.Bytes.Hex

/-!
# Digests

A digest is a 256-bit word. It is ordered as a number, which is the order of its bytes from the
most significant on.
-/

namespace ChainSync

/-- The 256-bit result of hashing. -/
structure Digest where
  /-- The digest as a word. -/
  word : BitVec 256
  deriving DecidableEq, Repr, Inhabited

namespace Digest

/-- The digest of all zero bits, which stands for the absence of content. -/
def zero : Digest := ⟨0⟩

/-- The digest with a given number, reduced to 256 bits. -/
def ofNat (n : Nat) : Digest := ⟨BitVec.ofNat 256 n⟩

def toNat (d : Digest) : Nat := d.word.toNat

def toBytes (d : Digest) : Bytes := Bytes.ofNatBE 32 d.toNat

/-- The digest with the given bytes, the most significant first. -/
def ofBytes (bytes : Bytes) : Digest := ofNat (Bytes.toNatBE bytes)

/-- The text of a digest: `0x` and 64 digits. -/
def text (d : Digest) : String := Hex.ofBytes d.toBytes

instance : ToString Digest := ⟨text⟩

instance : Ord Digest := ⟨fun a b ↦ compare a.word b.word⟩

instance : Std.TransOrd Digest where
  eq_swap := Std.OrientedOrd.eq_swap (α := BitVec 256)
  isLE_trans := Std.TransOrd.isLE_trans (α := BitVec 256)

instance : Std.LawfulEqOrd Digest where
  compare_self := Std.ReflOrd.compare_self (α := BitVec 256)
  eq_of_compare {a b} h := by
    have hw : a.word = b.word := Std.LawfulEqOrd.eq_of_compare h
    cases a
    cases b
    exact congrArg Digest.mk hw

@[simp] theorem length_toBytes (d : Digest) : d.toBytes.length = 32 := by
  simp [toBytes]

/-- A digest is read back from its bytes. -/
@[simp] theorem ofBytes_toBytes (d : Digest) : ofBytes d.toBytes = d := by
  cases d with
  | mk word =>
    have h : word.toNat % Bytes.span 32 = word.toNat := Nat.mod_eq_of_lt word.isLt
    rw [ofBytes, toBytes, Bytes.toNatBE_ofNatBE, toNat, h, ofNat, BitVec.ofNat_toNat]
    simp

end Digest
end ChainSync
