import ChainSync.Pending.Disk
import ChainSync.Proofs.Pending.Codec
import ChainSync.Proofs.Pending.Framing
import ChainSync.Proofs.Pending.Index
import Mathlib.Data.List.Induction

/-!
# Replaying a log

Records lead to an index in which every range is filed under its first block, can be written in a
record, and no level is without a range. Such an index is told by its ranges alone. Main statement:
the records of a compacted index lead back to it, in whichever order the ranges are written.
-/

namespace ChainSync

namespace PendingIndex

/-- Every range is filed under its first block, and no level is without a range. -/
structure Tidy (index : PendingIndex) : Prop where
  /-- No level is without a range. -/
  full : index.IsFull
  /-- A range is filed under the number and the hash of its first block. -/
  filed {level : UInt64} {key : Digest} {blocks : List Block} :
    index.range? level key = some blocks →
      ∃ first rest, blocks = first :: rest ∧ level = first.number ∧ key = first.hash
  /-- A range can be written in a record. -/
  short {level : UInt64} {key : Digest} {blocks : List Block} :
    index.range? level key = some blocks → (LogEntry.put blocks).encode.length < 2 ^ 32

theorem tidy_empty : empty.Tidy where
  full := isFiled_empty.full
  filed := isFiled_empty.first
  short h := by
    rw [range?_empty] at h
    cases h

theorem Tidy.isFiled {index : PendingIndex} (tidy : index.Tidy) : index.IsFiled :=
  ⟨tidy.full, tidy.filed⟩

theorem Tidy.insert {index filed : PendingIndex} (tidy : index.Tidy) {blocks : List Block}
    {level : UInt64} (h : index.insert blocks = some (level, filed))
    (hshort : (LogEntry.put blocks).encode.length < 2 ^ 32) : filed.Tidy where
  full := (tidy.isFiled.insert h).full
  filed := (tidy.isFiled.insert h).first
  short {l k others} hl := by
    cases blocks with
    | nil => cases h
    | cons first rest =>
      obtain ⟨-, hrange⟩ := range?_insert h
      rw [hrange] at hl
      split at hl
      · cases hl
        exact hshort
      · exact tidy.short hl

/-- Filing a range that can be written, or not filing it, keeps the index tidy. -/
theorem Tidy.filing {index : PendingIndex} (tidy : index.Tidy) {blocks : List Block}
    (hshort : (LogEntry.put blocks).encode.length < 2 ^ 32) : (index.filing blocks).Tidy := by
  unfold PendingIndex.filing
  cases h : index.insert blocks with
  | none => exact tidy
  | some filed => exact tidy.insert h hshort

theorem Tidy.remove {index : PendingIndex} (tidy : index.Tidy) (level : UInt64)
    (keys : List Digest) : (index.remove level keys).Tidy where
  full := (tidy.isFiled.remove level keys).full
  filed := (tidy.isFiled.remove level keys).first
  short h := tidy.short (range?_of_range?_remove h)

/-- The index holds exactly those ranges of another one that are listed. -/
def Lists (filed : PendingIndex) (entries : List (UInt64 × List Block)) (index : PendingIndex) :
    Prop :=
  ∀ level key blocks, filed.range? level key = some blocks ↔
    (level, blocks) ∈ entries ∧ index.range? level key = some blocks

/-- Filing one more range of a tidy index lists that one too. -/
theorem Lists.filing {index filed : PendingIndex} {entries : List (UInt64 × List Block)}
    (lists : filed.Lists entries index) (tidy : index.Tidy) {first : Block} {rest : List Block}
    (hkey : index.range? first.number first.hash = some (first :: rest)) :
    (filed.filing (first :: rest)).Lists (entries ++ [(first.number, first :: rest)]) index := by
  intro level key blocks
  -- The range stands under no other key.
  have halone (heq : (level, blocks) = (first.number, first :: rest))
      (h : index.range? level key = some blocks) : level = first.number ∧ key = first.hash := by
    cases heq
    obtain ⟨first', rest', heq, -, rfl⟩ := tidy.filed h
    cases heq
    exact ⟨rfl, rfl⟩
  rw [List.mem_append, List.mem_singleton, PendingIndex.filing]
  cases hfiled : filed.insert (first :: rest) with
  | none =>
    -- A range that is not filed again is there already.
    obtain ⟨held, hheld, -⟩ := insert_eq_none_iff.mp hfiled
    obtain ⟨hentry, hsame⟩ := (lists _ _ _).mp hheld
    rw [hkey] at hsame
    cases hsame
    rw [Option.map_none, Option.getD_none, lists]
    refine and_congr_left fun _ ↦ ⟨.inl, ?_⟩
    rintro (hold | heq)
    · exact hold
    · exact heq ▸ hentry
  | some answer =>
    obtain ⟨-, hinsert⟩ := range?_insert hfiled
    rw [Option.map_some, Option.getD_some, hinsert]
    split
    · next hat =>
      obtain ⟨rfl, rfl⟩ := hat
      rw [hkey, Option.some.injEq]
      refine ⟨fun heq ↦ ⟨.inr (by rw [heq]), heq⟩, And.right⟩
    · next hother =>
      rw [lists]
      refine and_congr_left fun h ↦ ⟨.inl, ?_⟩
      rintro (hold | heq)
      · exact hold
      · exact absurd (halone heq h) hother

end PendingIndex

namespace LogEntry

/-- The record of an entry whose payload has a length of 32 bits. -/
def Writes (r : LogRecord) : Prop :=
  ∃ (entry : LogEntry) (level : UInt64), r = entry.record level ∧ entry.encode.length < 2 ^ 32

theorem Writes.isShort {r : LogRecord} (h : Writes r) : r.IsShort := by
  obtain ⟨entry, level, rfl, hshort⟩ := h
  exact hshort

end LogEntry

namespace DiskStore

/-- The record of a stored range files it when it is replayed. -/
theorem replayRecord_put (index : PendingIndex) (level : UInt64) {blocks : List Block}
    (hshort : (LogEntry.put blocks).encode.length < 2 ^ 32) :
    replayRecord index ((LogEntry.put blocks).record level) =
      (index.filing blocks, 0) := by
  simp only [replayRecord, PendingIndex.filing, LogEntry.record, LogEntry.decode?_encode hshort]

/-- The record of dropped keys removes them when it is replayed. -/
theorem replayRecord_drop (index : PendingIndex) (level : UInt64) {keys : List Digest}
    (hshort : (LogEntry.drop keys).encode.length < 2 ^ 32) :
    replayRecord index ((LogEntry.drop keys).record level) =
      (index.remove level keys, keys.length) := by
  simp only [replayRecord, LogEntry.record, LogEntry.decode?_encode hshort]

theorem replay_append_singleton (records : List LogRecord) (r : LogRecord) :
    replay (records ++ [r]) = ((replayRecord (replay records).1 r).1,
      (replay records).2 + (replayRecord (replay records).1 r).2) := by
  rw [replay, List.foldl_append]
  rfl

/-- Records that were written lead to a tidy index. -/
theorem tidy_replay {records : List LogRecord} (hwrites : ∀ r ∈ records, LogEntry.Writes r) :
    (replay records).1.Tidy := by
  induction records using List.reverseRecOn with
  | nil => exact PendingIndex.tidy_empty
  | append_singleton records r ih =>
    have tidy := ih fun r hr ↦ hwrites r (List.mem_append_left _ hr)
    obtain ⟨entry, level, rfl, hshort⟩ := hwrites r (by simp)
    rw [replay_append_singleton]
    cases entry with
    | put blocks =>
      rw [replayRecord_put _ _ hshort]
      exact tidy.filing hshort
    | drop keys =>
      rw [replayRecord_drop _ _ hshort]
      exact tidy.remove level keys

def putRecords (entries : List (UInt64 × List Block)) : List LogRecord :=
  entries.map fun (level, blocks) ↦ (LogEntry.put blocks).record level

theorem putRecords_append_singleton (entries : List (UInt64 × List Block)) (level : UInt64)
    (blocks : List Block) : putRecords (entries ++ [(level, blocks)]) =
      putRecords entries ++ [(LogEntry.put blocks).record level] := by
  simp [putRecords]

/-- Ranges of a tidy index that are replayed from nothing are all filed, and nothing else is. -/
theorem replay_putRecords {index : PendingIndex} (tidy : index.Tidy)
    {entries : List (UInt64 × List Block)} (hmem : ∀ e ∈ entries, e ∈ index.toList) :
    ∃ filed, replay (putRecords entries) = (filed, 0) ∧ filed.IsFull ∧
      filed.Lists entries index := by
  induction entries using List.reverseRecOn with
  | nil =>
    refine ⟨.empty, rfl, PendingIndex.isFull_empty, ?_⟩
    intro level key blocks
    simp [PendingIndex.range?_empty]
  | append_singleton entries e ih =>
    obtain ⟨filed, hreplay, full, lists⟩ := ih fun e he ↦ hmem e (List.mem_append_left _ he)
    obtain ⟨level, blocks⟩ := e
    obtain ⟨key, hkey⟩ := PendingIndex.mem_toList.mp (hmem (level, blocks) (by simp))
    have hshort := tidy.short hkey
    obtain ⟨first, rest, rfl, rfl, rfl⟩ := tidy.filed hkey
    refine ⟨filed.filing (first :: rest), ?_, full.filing _, lists.filing tidy hkey⟩
    rw [putRecords_append_singleton, replay_append_singleton, hreplay, replayRecord_put _ _ hshort]
    rfl

/-- The ranges of a tidy index lead back to it. -/
theorem replay_putRecords_toList {index : PendingIndex} (tidy : index.Tidy) :
    replay (putRecords index.toList) = (index, 0) := by
  obtain ⟨filed, hreplay, full, lists⟩ := replay_putRecords tidy fun e he ↦ he
  have heq : filed = index := by
    apply PendingIndex.ext_range? full tidy.full
    intro level key
    apply Option.ext
    intro blocks
    rw [lists]
    exact and_iff_right_of_imp fun h ↦ PendingIndex.mem_toList.mpr ⟨key, h⟩
  rw [hreplay, heq]

/-- The records of the ranges of a tidy index were written. -/
theorem writes_putRecords {index : PendingIndex} (tidy : index.Tidy) :
    ∀ r ∈ putRecords index.toList, LogEntry.Writes r := by
  intro r hr
  obtain ⟨⟨level, blocks⟩, hmem, rfl⟩ := List.mem_map.mp hr
  obtain ⟨key, hkey⟩ := PendingIndex.mem_toList.mp hmem
  exact ⟨.put blocks, level, rfl, tidy.short hkey⟩

/-- A compacted log holds the records of the ranges. -/
theorem compacted_eq (index : PendingIndex) :
    compacted index = LogRecord.encodeAll (putRecords index.toList) := by
  rw [compacted, LogRecord.encodeAll, putRecords, List.flatMap_map]

end DiskStore
end ChainSync
