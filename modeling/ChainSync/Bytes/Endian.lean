/-!
# Fixed-width numbers as bytes

A number is written in a fixed count of bytes, the most significant first or the least significant
first; higher digits are dropped. Reading takes any count of bytes. Main statements: reading what
was written gives the number back below the width's bound, and a written number has its width.
-/

namespace ChainSync

abbrev Bytes := List UInt8

namespace Bytes

/-- The `width` lowest bytes of a number, the least significant first. -/
def ofNatLE : Nat → Nat → Bytes
  | 0, _ => []
  | width + 1, n => UInt8.ofNat n :: ofNatLE width (n / 256)

/-- The number whose bytes are given, the least significant first. -/
def toNatLE : Bytes → Nat
  | [] => 0
  | b :: rest => b.toNat + 256 * toNatLE rest

/-- The `width` lowest bytes of a number, the most significant first. -/
def ofNatBE (width n : Nat) : Bytes := (ofNatLE width n).reverse

/-- The number whose bytes are given, the most significant first. -/
def toNatBE (bytes : Bytes) : Nat := toNatLE bytes.reverse

/-- How many numbers `width` bytes can hold. -/
def span : Nat → Nat
  | 0 => 1
  | width + 1 => 256 * span width

@[simp] theorem length_ofNatLE (width n : Nat) : (ofNatLE width n).length = width := by
  induction width generalizing n with
  | zero => rfl
  | succ width ih => simp [ofNatLE, ih]

@[simp] theorem length_ofNatBE (width n : Nat) : (ofNatBE width n).length = width := by
  simp [ofNatBE]

/-- Reading what was written keeps the lowest `width` bytes of the number. -/
theorem toNatLE_ofNatLE (width n : Nat) : toNatLE (ofNatLE width n) = n % span width := by
  induction width generalizing n with
  | zero => simp [ofNatLE, toNatLE, span, Nat.mod_one]
  | succ width ih =>
    rw [ofNatLE, toNatLE, ih, span, Nat.mod_mul]
    simp

theorem toNatBE_ofNatBE (width n : Nat) : toNatBE (ofNatBE width n) = n % span width := by
  simp [toNatBE, ofNatBE, toNatLE_ofNatLE]

/-- A number read from some bytes is below the bound of their width. -/
theorem toNatLE_lt_span (bytes : Bytes) : toNatLE bytes < span bytes.length := by
  induction bytes with
  | nil => decide
  | cons b rest ih =>
    have hb : b.toNat < 256 := b.toNat_lt
    rw [toNatLE, List.length_cons, span]
    omega

/-- Bytes read as a number and written at their own length come back unchanged. -/
theorem ofNatLE_toNatLE (bytes : Bytes) : ofNatLE bytes.length (toNatLE bytes) = bytes := by
  induction bytes with
  | nil => rfl
  | cons b rest ih =>
    have hb : b.toNat < 256 := b.toNat_lt
    rw [List.length_cons, ofNatLE, toNatLE]
    congr 1
    · apply UInt8.toNat_inj.mp
      simp
    · rw [Nat.add_mul_div_left _ _ (by decide), Nat.div_eq_of_lt hb, Nat.zero_add, ih]

/-- Bytes of a width come back when they are read as a number and written at that width. -/
theorem ofNatLE_toNatLE_of_length {bytes : Bytes} {width : Nat} (h : bytes.length = width) :
    ofNatLE width (toNatLE bytes) = bytes := by
  rw [← h, ofNatLE_toNatLE]

theorem ofNatLE_toNat_ofNat {bytes : Bytes} (h : bytes.length = 8) :
    ofNatLE 8 (UInt64.ofNat (toNatLE bytes)).toNat = bytes := by
  have hlt : toNatLE bytes < UInt64.size := by
    have := toNatLE_lt_span bytes
    rw [h] at this
    exact this
  rw [UInt64.toNat_ofNat', Nat.mod_eq_of_lt hlt, ofNatLE_toNatLE_of_length h]

end Bytes
end ChainSync
