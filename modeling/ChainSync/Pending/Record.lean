import ChainSync.Block.Binary
import ChainSync.Checksum

/-!
# Records of the pending log

A record frames a payload with its level in front, its length, and a checksum of all three behind.
A log is read record by record until the bytes end or a record is damaged; what is left from there
on is the damaged tail. Main statements: the records read and the tail together are the log, and
no record stands at the front of the tail.
-/

namespace ChainSync

/-- A framed payload. -/
structure LogRecord where
  /-- The level the payload is about. -/
  level : UInt64
  /-- The payload. -/
  payload : Bytes
  deriving DecidableEq, Repr

namespace LogRecord

/-- The level and the length of the payload; the length is written in 32 bits. -/
def head (r : LogRecord) : Bytes :=
  Bytes.ofNatLE 8 r.level.toNat ++ Bytes.ofNatLE 4 r.payload.length

/-- A record as bytes: level, length, payload and checksum. -/
def encode (r : LogRecord) : Bytes :=
  r.head ++ r.payload ++ Bytes.ofNatLE 4 (crc32 (r.head ++ r.payload)).toNat

/-- The record at the front of some bytes and what follows it, if it is whole and undamaged. -/
def next? (bytes : Bytes) : Option (LogRecord × Bytes) :=
  let head := bytes.take 12
  let length := Bytes.toNatLE (head.drop 8)
  let payload := (bytes.drop 12).take length
  let rest := bytes.drop (12 + length)
  if head.length = 12 ∧ payload.length = length ∧ 4 ≤ rest.length ∧
      (crc32 (head ++ payload)).toNat = Bytes.toNatLE (rest.take 4) then
    some (⟨UInt64.ofNat (Bytes.toNatLE (head.take 8)), payload⟩, rest.drop 4)
  else none

theorem length_lt_of_next? {bytes rest : Bytes} {r : LogRecord}
    (h : next? bytes = some (r, rest)) : rest.length < bytes.length := by
  simp only [next?] at h
  split at h
  · next hc =>
    obtain ⟨hhead, -, hrest, -⟩ := hc
    cases h
    simp only [List.length_take, List.length_drop] at *
    omega
  · cases h

/-- What was read is the encoding of the record, and what follows it follows in the bytes. -/
theorem eq_encode_append_of_next? {bytes rest : Bytes} {r : LogRecord}
    (h : next? bytes = some (r, rest)) : bytes = r.encode ++ rest := by
  simp only [next?] at h
  split at h
  · next hc =>
    obtain ⟨hhead, hpayload, hrest, hsum⟩ := hc
    cases h
    have hlevel : ((bytes.take 12).take 8).length = 8 := by
      simp only [List.length_take] at *
      omega
    have hlength : ((bytes.take 12).drop 8).length = 4 := by
      simp only [List.length_drop, List.length_take] at *
      omega
    rw [encode, head, Bytes.ofNatLE_toNat_ofNat hlevel, hpayload,
      Bytes.ofNatLE_toNatLE_of_length hlength, List.take_append_drop, hsum,
      Bytes.ofNatLE_toNatLE_of_length (List.length_take_of_le hrest), List.append_assoc,
      List.append_assoc, List.take_append_drop, ← List.drop_drop, List.take_append_drop,
      List.take_append_drop]
  · cases h

/-- The whole records at the front of some bytes, and the damaged tail that is left. -/
def scan (bytes : Bytes) : List LogRecord × Bytes :=
  match h : next? bytes with
  | none => ([], bytes)
  | some (r, rest) =>
    have := length_lt_of_next? h
    let (records, tail) := scan rest
    (r :: records, tail)
termination_by bytes.length

/-- The records read and the tail together are the bytes. -/
theorem flatMap_encode_scan (bytes : Bytes) :
    (scan bytes).1.flatMap encode ++ (scan bytes).2 = bytes := by
  fun_induction scan bytes with
  | case1 bytes h => simp
  | case2 bytes r rest h _ records tail hscan ih =>
    rw [hscan] at ih
    rw [List.flatMap_cons, List.append_assoc, ih, ← eq_encode_append_of_next? h]

/-- No record stands at the front of the tail. -/
theorem next?_tail (bytes : Bytes) : next? (scan bytes).2 = none := by
  fun_induction scan bytes with
  | case1 bytes h => exact h
  | case2 bytes r rest h _ records tail hscan ih => rwa [hscan] at ih

end LogRecord

/-- What a payload says: a range was stored, or ranges were dropped. -/
inductive LogEntry where
  /-- A range was stored. -/
  | put (blocks : List Block)
  /-- The ranges under these keys were dropped. -/
  | drop (keys : List Digest)
  deriving DecidableEq, Repr

namespace LogEntry

def encode : LogEntry → Bytes
  | put blocks => Binary.variant 0 ++ Binary.list Binary.block blocks
  | drop keys => Binary.variant 1 ++ Binary.list Binary.digest keys

/-- Takes an entry from the front of some bytes. -/
def read : Reader LogEntry := do
  match ← Reader.number 4 with
  | 0 => return put (← Reader.list Reader.block)
  | 1 => return drop (← Reader.list Reader.digest)
  | _ => failure

/-- The entry in a payload; bytes after it are ignored. -/
def decode? (payload : Bytes) : Option LogEntry := (read.run payload).map Prod.fst

/-- The framed entry of a level. -/
def record (entry : LogEntry) (level : UInt64) : LogRecord := ⟨level, entry.encode⟩

end LogEntry
end ChainSync
