import ChainSync.Pending.Index
import ChainSync.Pending.Record
import ChainSync.StorageError

/-!
# Pending ranges on disk

The index lives in memory and every change of it is appended to a log. Opening replays the log,
cuts off a damaged tail, and writes the log anew with the live ranges only when ranges had been
dropped. An append that fails is cut back, so that later records never follow torn bytes.
-/

namespace ChainSync

/-- How far a file may grow. -/
inductive Capacity where
  /-- Without a limit. -/
  | unlimited
  /-- Up to a size; a longer write stops there and fails. -/
  | upTo (size : Nat)
  /-- Not at all: the device behind it is full. -/
  | exhausted
  deriving DecidableEq, Repr

/-- A log file open for appending. -/
structure LogFile where
  /-- Its content. -/
  bytes : Bytes
  /-- How far it may grow. -/
  capacity : Capacity
  deriving Repr

namespace LogFile

/-- Limits how far the file may grow. A device that is full stays so. -/
def limit (f : LogFile) (capacity : Capacity) : LogFile :=
  if f.capacity = .exhausted then f else { f with capacity }

/-- Writes bytes at the end. A write that fails may leave some of them. -/
def write (f : LogFile) (data : Bytes) : Except DeviceError Unit × LogFile :=
  match f.capacity with
  | .unlimited => (.ok (), { f with bytes := f.bytes ++ data })
  | .upTo size =>
    let room := size - f.bytes.length
    if data.length ≤ room then (.ok (), { f with bytes := f.bytes ++ data })
    else (.error .fileTooLarge, { f with bytes := f.bytes ++ data.take room })
  | .exhausted => (.error .deviceFull, f)

/-- Cuts the file back to a length it had. -/
def truncate (f : LogFile) (length : Nat) : LogFile := { f with bytes := f.bytes.take length }

/-- Appends a record whole or not at all. -/
def append (f : LogFile) (r : LogRecord) : Except StoreError Unit × LogFile :=
  match f.write r.encode with
  | (.ok (), g) => (.ok (), g)
  | (.error e, g) => (.error (.ofDevice e), g.truncate f.bytes.length)

end LogFile

/-- Pending ranges with their log. -/
structure DiskStore where
  /-- The ranges. -/
  index : PendingIndex
  /-- The log of all changes to them. -/
  file : LogFile

namespace DiskStore

/-- The index after one more record, and how many keys it dropped. Records that say nothing
readable are passed over. -/
def replayRecord (index : PendingIndex) (r : LogRecord) : PendingIndex × Nat :=
  match LogEntry.decode? r.payload with
  | some (.put blocks) => (((index.insert blocks).map Prod.snd).getD index, 0)
  | some (.drop keys) => (index.remove r.level keys, keys.length)
  | none => (index, 0)

/-- The index that records lead to, and how many keys they dropped. -/
def replay (records : List LogRecord) : PendingIndex × Nat :=
  records.foldl
    (fun (index, dropped) r ↦
      let (index, more) := replayRecord index r
      (index, dropped + more))
    (.empty, 0)

/-- The log that holds the ranges of an index and nothing else. -/
def compacted (index : PendingIndex) : Bytes :=
  index.toList.flatMap fun (level, blocks) ↦ ((LogEntry.put blocks).record level).encode

/-- Stores a range and answers how many blocks were written. When the log cannot be written the
key of the range is removed again. -/
def store (s : DiskStore) (blocks : List Block) : Except StoreError Nat × DiskStore :=
  match s.index.insert blocks with
  | none => (.ok 0, s)
  | some (level, index) =>
    match s.file.append ((LogEntry.put blocks).record level) with
    | (.ok (), file) => (.ok blocks.length, ⟨index, file⟩)
    | (.error e, file) => (.error e, ⟨index.remove level ((blocks.take 1).map Block.hash), file⟩)

/-- Drops the ranges of a level under those keys that were loaded. -/
def drop (s : DiskStore) (level : UInt64) (keys : List Digest) (loaded : PendingQueues) :
    Except StoreError Unit × DiskStore :=
  let keys := keys.filter fun key ↦ loaded.contains key
  if keys.isEmpty then (.ok (), s)
  else
    match s.file.append ((LogEntry.drop keys).record level) with
    | (.ok (), file) => (.ok (), ⟨s.index.remove level keys, file⟩)
    | (.error e, file) => (.error e, { s with file })

end DiskStore

/-- What stands under a name in a directory. -/
inductive DirEntry where
  /-- Nothing. -/
  | missing
  /-- A file. -/
  | file (bytes : Bytes)
  /-- A directory. -/
  | directory
  /-- A device that is always full and reads as empty. -/
  | fullDevice
  deriving DecidableEq, Repr

namespace DirEntry

/-- The content of a file. -/
def bytes? : DirEntry → Option Bytes
  | file bytes => some bytes
  | missing | directory | fullDevice => none

end DirEntry

/-- The directory of a pending log. -/
inductive PendingDir where
  /-- It does not exist. -/
  | missing
  /-- A file stands in its place. -/
  | obstructed
  /-- It holds the log and the place of a log under compaction. -/
  | present (log compact : DirEntry)
  deriving DecidableEq, Repr

/-- Why a pending log cannot be opened. -/
inductive OpenError where
  /-- The directory cannot be made. -/
  | createDir
  /-- The log cannot be opened. -/
  | openLog
  /-- The compacted log cannot be made. -/
  | createCompacted
  deriving DecidableEq, Repr

namespace OpenError

def message : OpenError → String
  | createDir => "failed to create pending dir"
  | openLog => "failed to open pending log"
  | createCompacted => "failed to create compacted pending log"

end OpenError

namespace PendingDir

def log : PendingDir → DirEntry
  | present log _ => log
  | missing | obstructed => .missing

/-- The entry of a log under compaction. -/
def compact : PendingDir → DirEntry
  | present _ compact => compact
  | missing | obstructed => .missing

/-- Replaces the content of the log, in a directory that exists. -/
def withLog (bytes : Bytes) : PendingDir → PendingDir
  | present _ compact => present (.file bytes) compact
  | dir => dir

/-- Opens the store on the bytes of its log: the store, and whether the log was compacted. -/
def openBytes (bytes : Bytes) : DiskStore × Bool :=
  let (records, tail) := LogRecord.scan bytes
  let kept := bytes.take (bytes.length - tail.length)
  let (index, dropped) := DiskStore.replay records
  if 0 < dropped then (⟨index, ⟨DiskStore.compacted index, .unlimited⟩⟩, true)
  else (⟨index, ⟨kept, .unlimited⟩⟩, false)

/-- Opens the store in a directory, making what is missing. The directory it leaves holds the log
of the store. -/
def openStore : PendingDir → Except OpenError DiskStore × PendingDir
  | obstructed => (.error .createDir, obstructed)
  | missing => (.ok ⟨.empty, ⟨[], .unlimited⟩⟩, present (.file []) .missing)
  | present .directory compact => (.error .openLog, present .directory compact)
  | present .fullDevice compact => (.ok ⟨.empty, ⟨[], .exhausted⟩⟩, present .fullDevice compact)
  | present .missing compact => (.ok ⟨.empty, ⟨[], .unlimited⟩⟩, present (.file []) compact)
  | present (.file bytes) compact =>
    match openBytes bytes, compact with
    | (store, false), _ => (.ok store, present (.file store.file.bytes) compact)
    | (_, true), .directory =>
      let (_, tail) := LogRecord.scan bytes
      (.error .createCompacted,
        present (.file (bytes.take (bytes.length - tail.length))) .directory)
    | (store, true), _ => (.ok store, present (.file store.file.bytes) .missing)

end PendingDir
end ChainSync
