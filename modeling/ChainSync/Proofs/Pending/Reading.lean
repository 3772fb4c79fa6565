import ChainSync.Pending.Disk
import ChainSync.Proofs.Pending.Framing

/-!
# Reading any log

Whatever the bytes of a log are, reading it answers records, and the records as they were written
are all that is kept of it. Main statement: what is kept is a beginning of the log, it is read as
the same records again and loses nothing, and the records of a log that breaks off while one more
is written are all read. A payload must have a length of 32 bits for that: of a longer one the
length in front has lost its upper digits, and what is written of it can begin with another record.
-/

namespace ChainSync

theorem Bytes.ofNatLE_add_span (width n : Nat) :
    ofNatLE width (n + span width) = ofNatLE width n := by
  induction width generalizing n with
  | zero => rfl
  | succ width ih =>
    have hbyte : UInt8.ofNat (n + 256 * span width) = UInt8.ofNat n := by
      apply UInt8.toNat_inj.mp
      simp
    have hrest : (n + 256 * span width) / 256 = n / 256 + span width := by omega
    rw [ofNatLE, ofNatLE, span, hbyte, hrest, ih]

namespace LogRecord

/-- What is kept of a log: all but the damaged tail. -/
def intact (bytes : Bytes) : Bytes := bytes.take (bytes.length - (scan bytes).2.length)

/-- What is kept of a log is the records read, as they were written. -/
theorem intact_eq_encodeAll (bytes : Bytes) : intact bytes = encodeAll (scan bytes).1 := by
  have hsplit : encodeAll (scan bytes).1 ++ (scan bytes).2 = bytes := flatMap_encode_scan bytes
  rw [intact]
  generalize (scan bytes).1 = records at hsplit ⊢
  generalize (scan bytes).2 = tail at hsplit ⊢
  rw [← hsplit, List.length_append, Nat.add_sub_cancel, List.take_left' rfl]

/-- Every record read has a payload with a length of 32 bits. -/
theorem isShort_of_mem_scan (bytes : Bytes) : ∀ r ∈ (scan bytes).1, r.IsShort := by
  fun_induction scan bytes with
  | case1 bytes h =>
    intro r hr
    cases hr
  | case2 bytes r rest h _ records tail hscan ih =>
    rw [hscan] at ih
    intro other hother
    rcases List.mem_cons.mp hother with rfl | hother
    · exact isShort_of_next? h
    · exact ih other hother

/-- What is kept of a log is read as the same records, with nothing left. -/
theorem scan_intact (bytes : Bytes) : scan (intact bytes) = ((scan bytes).1, []) := by
  rw [intact_eq_encodeAll, scan_encodeAll (isShort_of_mem_scan bytes)]

/-- Nothing more is cut off what was kept. -/
theorem intact_intact (bytes : Bytes) : intact (intact bytes) = intact bytes := by
  rw [intact_eq_encodeAll (intact bytes), scan_intact, intact_eq_encodeAll]

/-- Whole records and the beginning of one more are read as the whole records. -/
theorem scan_torn {records : List LogRecord} {torn : LogRecord}
    (hshort : ∀ r ∈ records, r.IsShort) (htorn : torn.IsShort) {n : Nat}
    (hcut : n < torn.encode.length) :
    scan (encodeAll records ++ torn.encode.take n) = (records, torn.encode.take n) :=
  scan_encodeAll_append hshort (next?_take_encode htorn hcut)

/-- The encoding of any record begins that of a record whose payload is `2 ^ 32` bytes longer:
where a log may hold payloads of any length, its bytes do not tell where a record ends. -/
theorem exists_encode_isPrefix (r : LogRecord) :
    ∃ long : LogRecord, ¬ long.IsShort ∧ r.encode.length < long.encode.length ∧
      r.encode <+: long.encode := by
  obtain ⟨pad, hpad⟩ : ∃ pad : Bytes, pad.length = 2 ^ 32 - 4 :=
    ⟨List.replicate (2 ^ 32 - 4) 0, List.length_replicate⟩
  let sum := Bytes.ofNatLE 4 (crc32 (r.head ++ r.payload)).toNat
  let long : LogRecord := ⟨r.level, r.payload ++ (sum ++ pad)⟩
  have hspan : Bytes.span 4 = 2 ^ 32 := by decide
  have hlength : long.payload.length = r.payload.length + Bytes.span 4 := by
    simp only [long, sum, List.length_append, Bytes.length_ofNatLE, hpad, hspan]
    omega
  have hhead : long.head = r.head := by
    rw [head, hlength, Bytes.ofNatLE_add_span, head]
  refine ⟨long, ?_, ?_, ?_⟩
  · rw [IsShort, hlength, hspan]
    omega
  · rw [length_encode, length_encode, hlength, hspan]
    omega
  · refine ⟨pad ++ Bytes.ofNatLE 4 (crc32 (long.head ++ long.payload)).toNat, ?_⟩
    rw [encode, encode, hhead]
    simp only [long, sum, List.append_assoc]

/-- Unless the log is compacted, opening it leaves in the directory what is kept of it. -/
theorem openStore_intact {bytes : Bytes} {compact : DirEntry}
    (hkeeps : (PendingDir.openBytes bytes).2 = false ∨ compact = .directory) :
    (PendingDir.openStore (.present (.file bytes) compact)).2 =
      .present (.file (intact bytes)) compact := by
  unfold PendingDir.openStore
  by_cases hdropped : 0 < (DiskStore.replay (scan bytes).1).2
  · have hopen : PendingDir.openBytes bytes = (⟨(DiskStore.replay (scan bytes).1).1,
        ⟨DiskStore.compacted (DiskStore.replay (scan bytes).1).1, .unlimited⟩⟩, true) :=
      if_pos hdropped
    rw [hopen] at hkeeps
    obtain rfl := hkeeps.resolve_left fun h ↦ nomatch h
    dsimp only
    rw [hopen]
    rfl
  · have hopen : PendingDir.openBytes bytes = (⟨(DiskStore.replay (scan bytes).1).1,
        ⟨intact bytes, .unlimited⟩⟩, false) := if_neg hdropped
    dsimp only
    rw [hopen]

/-- Of any bytes a beginning is kept, unless the log is compacted it is what stands in the
directory, and it is the records read, one encoding after the other. It is read as the same records
with nothing left, so nothing more is cut off. Where the bytes are the encodings of records followed
by the beginning of one more, exactly these records are read; that one has to be short as well, by
`exists_encode_isPrefix`. -/
theorem reads_any (bytes : Bytes) :
    intact bytes <+: bytes ∧
    encodeAll (scan bytes).1 = intact bytes ∧
    (∀ compact, (PendingDir.openBytes bytes).2 = false ∨ compact = .directory →
      (PendingDir.openStore (.present (.file bytes) compact)).2 =
        .present (.file (intact bytes)) compact) ∧
    scan (intact bytes) = ((scan bytes).1, []) ∧
    intact (intact bytes) = intact bytes ∧
    ∀ records (torn : LogRecord) n, (∀ r ∈ records, r.IsShort) → torn.IsShort →
      n < torn.encode.length → bytes = encodeAll records ++ torn.encode.take n →
      (scan bytes).1 = records := by
  refine ⟨List.take_prefix _ bytes, (intact_eq_encodeAll bytes).symm,
    fun compact ↦ openStore_intact, scan_intact bytes, intact_intact bytes, ?_⟩
  rintro records torn n hshort htorn hcut rfl
  rw [scan_torn hshort htorn hcut]

/-- A record and five bytes of another one. -/
def cutLog : Bytes := encodeAll [⟨1, [7]⟩] ++ (encode ⟨2, [9]⟩).take 5

/-- Of the cut log the whole record is read, and left where no log can be compacted. -/
theorem reads_first_of_cutLog :
    (scan cutLog).1 = [⟨1, [7]⟩] ∧
    (PendingDir.openStore (.present (.file cutLog) .directory)).2 =
      .present (.file (encodeAll [⟨1, [7]⟩])) .directory := by
  obtain ⟨-, hleft, hopen, -, -, hreads⟩ := reads_any cutLog
  have hrecords : (scan cutLog).1 = [⟨1, [7]⟩] := by
    apply hreads [⟨1, [7]⟩] ⟨2, [9]⟩ 5
    · simp [IsShort]
    · simp [IsShort]
    · simp [length_encode]
    · rfl
  refine ⟨hrecords, ?_⟩
  rw [hopen .directory (.inr rfl), ← hleft, hrecords]

end LogRecord
end ChainSync
