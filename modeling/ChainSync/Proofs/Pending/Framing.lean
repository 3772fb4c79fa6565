import ChainSync.Pending.Record
import Mathlib.Algebra.GroupWithZero.Nat
import Mathlib.Tactic.ByContra

/-!
# Cut logs

A record is read back from its encoding whatever follows it, and no record is read from an encoding
that was cut. Main statement: a log that is cut anywhere is scanned into the records before the cut
and a tail.
-/

namespace ChainSync
namespace LogRecord

/-- A record whose payload has a length of 32 bits. -/
def IsShort (r : LogRecord) : Prop := r.payload.length < 2 ^ 32

def encodeAll (records : List LogRecord) : Bytes := records.flatMap encode

@[simp] theorem encodeAll_nil : encodeAll [] = [] := rfl

@[simp] theorem encodeAll_cons (r : LogRecord) (rest : List LogRecord) :
    encodeAll (r :: rest) = r.encode ++ encodeAll rest := List.flatMap_cons

@[simp] theorem encodeAll_append (left right : List LogRecord) :
    encodeAll (left ++ right) = encodeAll left ++ encodeAll right := List.flatMap_append

theorem length_head (r : LogRecord) : r.head.length = 12 := by simp [head]

theorem length_encode (r : LogRecord) : r.encode.length = 16 + r.payload.length := by
  simp only [encode, List.length_append, length_head, Bytes.length_ofNatLE]
  omega

/-- The length in front of a payload is that of the payload. -/
theorem toNatLE_drop_head {r : LogRecord} (hshort : r.IsShort) :
    Bytes.toNatLE (r.head.drop 8) = r.payload.length := by
  have hspan : Bytes.span 4 = 2 ^ 32 := by decide
  rw [head, List.drop_left' (Bytes.length_ofNatLE 8 _), Bytes.toNatLE_ofNatLE, hspan,
    Nat.mod_eq_of_lt hshort]

/-- The level in front of a payload is that of the record. -/
theorem ofNat_toNatLE_take_head (r : LogRecord) :
    UInt64.ofNat (Bytes.toNatLE (r.head.take 8)) = r.level := by
  have hlt : r.level.toNat < Bytes.span 8 :=
    Nat.lt_of_lt_of_eq r.level.toNat_lt (by decide : UInt64.size = Bytes.span 8)
  rw [head, List.take_left' (Bytes.length_ofNatLE 8 _), Bytes.toNatLE_ofNatLE,
    Nat.mod_eq_of_lt hlt, UInt64.ofNat_toNat]

/-- The checksum of 32 bits is read back from four bytes. -/
theorem toNatLE_ofNatLE_toNat (sum : UInt32) :
    Bytes.toNatLE (Bytes.ofNatLE 4 sum.toNat) = sum.toNat := by
  have hlt : sum.toNat < Bytes.span 4 :=
    Nat.lt_of_lt_of_eq sum.toNat_lt (by decide : UInt32.size = Bytes.span 4)
  rw [Bytes.toNatLE_ofNatLE, Nat.mod_eq_of_lt hlt]

/-- A record that was written is read back, whatever follows it. -/
theorem next?_encode_append {r : LogRecord} (hshort : r.IsShort) (rest : Bytes) :
    next? (r.encode ++ rest) = some (r, rest) := by
  have hbytes : r.encode ++ rest = r.head ++ (r.payload ++
      (Bytes.ofNatLE 4 (crc32 (r.head ++ r.payload)).toNat ++ rest)) := by
    simp only [encode, List.append_assoc]
  have hhead : (r.encode ++ rest).take 12 = r.head := by
    rw [hbytes, List.take_left' r.length_head]
  have hpayload : ((r.encode ++ rest).drop 12).take r.payload.length = r.payload := by
    rw [hbytes, List.drop_left' r.length_head, List.take_left' rfl]
  have hrest : (r.encode ++ rest).drop (12 + r.payload.length) =
      Bytes.ofNatLE 4 (crc32 (r.head ++ r.payload)).toNat ++ rest := by
    rw [hbytes, ← List.drop_drop, List.drop_left' r.length_head, List.drop_left' rfl]
  have hsum := toNatLE_ofNatLE_toNat (crc32 (r.head ++ r.payload))
  simp only [next?, hhead, toNatLE_drop_head hshort, hpayload, hrest, ofNat_toNatLE_take_head,
    List.take_left' (Bytes.length_ofNatLE 4 _), List.drop_left' (Bytes.length_ofNatLE 4 _), hsum]
  rw [if_pos ⟨r.length_head, trivial, by simp, trivial⟩]

/-- The length of a payload that was read has 32 bits. -/
theorem isShort_of_next? {bytes rest : Bytes} {r : LogRecord} (h : next? bytes = some (r, rest)) :
    r.IsShort := by
  simp only [next?] at h
  split at h
  · next hc =>
    obtain ⟨hhead, hpayload, -, -⟩ := hc
    cases h
    have hlength : ((bytes.take 12).drop 8).length = 4 := by
      rw [List.length_drop, hhead]
    have hlt := Bytes.toNatLE_lt_span ((bytes.take 12).drop 8)
    rw [hlength] at hlt
    rw [IsShort, hpayload]
    exact hlt
  · cases h

/-- No record is read from the encoding of one that was cut. -/
theorem next?_take_encode {r : LogRecord} (hshort : r.IsShort) {n : Nat}
    (hcut : n < r.encode.length) : next? (r.encode.take n) = none := by
  cases h : next? (r.encode.take n) with
  | none => rfl
  | some read =>
    obtain ⟨other, rest⟩ := read
    -- What was read from the cut encoding is read from the whole one, and leaves what was cut.
    have hwhole : r.encode = other.encode ++ (rest ++ r.encode.drop n) := by
      rw [← List.append_assoc, ← eq_encode_append_of_next? h, List.take_append_drop]
    have hleft := next?_encode_append (isShort_of_next? h) (rest ++ r.encode.drop n)
    have hright := next?_encode_append hshort []
    rw [List.append_nil] at hright
    rw [← hwhole, hright, Option.some.injEq, Prod.mk.injEq] at hleft
    have hlength := congrArg List.length hleft.2
    rw [List.length_nil, List.length_append, List.length_drop] at hlength
    omega

/-- No record is read where the bytes end before the first record does. -/
theorem next?_take_encodeAll {records : List LogRecord} (hshort : ∀ r ∈ records, r.IsShort)
    {n : Nat} (hcut : ∀ r ∈ records.head?, n < r.encode.length) :
    next? ((encodeAll records).take n) = none := by
  cases records with
  | nil =>
    rw [encodeAll_nil, List.take_nil]
    decide
  | cons r rest =>
    have hlt := hcut r rfl
    rw [encodeAll_cons, List.take_append_of_le_length (Nat.le_of_lt hlt)]
    exact next?_take_encode (hshort r List.mem_cons_self) hlt

/-- Where no record is read, all is tail. -/
theorem scan_of_next?_eq_none {bytes : Bytes} (h : next? bytes = none) :
    scan bytes = ([], bytes) := by
  rw [scan]
  split
  · rfl
  · next h' => cases h.symm.trans h'

/-- A record that is read comes before those of the rest. -/
theorem scan_of_next?_eq_some {bytes rest : Bytes} {r : LogRecord}
    (h : next? bytes = some (r, rest)) :
    scan bytes = (r :: (scan rest).1, (scan rest).2) := by
  rw [scan]
  split
  · next h' => cases h.symm.trans h'
  · next h' =>
    cases h.symm.trans h'
    rfl

/-- Records that were written are read back, and what follows them is the tail. -/
theorem scan_encodeAll_append {records : List LogRecord} (hshort : ∀ r ∈ records, r.IsShort)
    {tail : Bytes} (htail : next? tail = none) :
    scan (encodeAll records ++ tail) = (records, tail) := by
  induction records with
  | nil => exact scan_of_next?_eq_none htail
  | cons r rest ih =>
    have hnext := next?_encode_append (hshort r List.mem_cons_self) (encodeAll rest ++ tail)
    rw [encodeAll_cons, List.append_assoc, scan_of_next?_eq_some hnext,
      ih fun r hr ↦ hshort r (List.mem_cons_of_mem _ hr)]

/-- Records that were written are read back with nothing left. -/
theorem scan_encodeAll {records : List LogRecord} (hshort : ∀ r ∈ records, r.IsShort) :
    scan (encodeAll records) = (records, []) := by
  have h := scan_encodeAll_append hshort (show next? [] = none by decide)
  rwa [List.append_nil] at h

/-- A log that is cut after some records and before the next one ends is scanned into these. -/
theorem scan_take_encodeAll {before behind : List LogRecord}
    (hshort : ∀ r ∈ before ++ behind, r.IsShort) {n : Nat} (hle : (encodeAll before).length ≤ n)
    (hcut : ∀ r ∈ behind.head?, n < (encodeAll before).length + r.encode.length) :
    scan ((encodeAll (before ++ behind)).take n) =
      (before, (encodeAll behind).take (n - (encodeAll before).length)) := by
  rw [encodeAll_append, List.take_append, List.take_of_length_le hle]
  apply scan_encodeAll_append
  · exact fun r hr ↦ hshort r (List.mem_append_left _ hr)
  · apply next?_take_encodeAll
    · exact fun r hr ↦ hshort r (List.mem_append_right _ hr)
    · intro r hr
      have := hcut r hr
      omega

end LogRecord
end ChainSync
