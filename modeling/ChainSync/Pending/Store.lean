import ChainSync.Pending.Disk

/-!
# The pending store

Ranges are kept in memory or on disk. Both answer alike; the disk store can also be closed, after
which it answers an error until it is opened again. An error can be set for the next call of one
kind, which then does nothing else.
-/

namespace ChainSync

/-- A disk store and the directory its log is in. -/
structure DiskSlot where
  /-- The directory. -/
  dir : PendingDir
  /-- The store, unless it is closed. -/
  opened : Option DiskStore
  /-- The directory's log is the log of the open store. -/
  attached : Bool

namespace DiskSlot

/-- A closed store over a directory. -/
def closed (dir : PendingDir) : DiskSlot := ⟨dir, none, false⟩

/-- Replaces the open store and brings the log in the directory up to date with it. -/
def withStore (slot : DiskSlot) (store : DiskStore) : DiskSlot :=
  let dir := match slot.attached, slot.dir.log with
    | true, .file _ => slot.dir.withLog store.file.bytes
    | _, _ => slot.dir
  { slot with dir, opened := some store }

def close (slot : DiskSlot) : DiskSlot := .closed slot.dir

/-- Closes the store and opens it again: the number of ranges it holds, or why it stays closed. -/
def reopen (slot : DiskSlot) : Except OpenError Nat × DiskSlot :=
  match slot.dir.openStore with
  | (.ok store, dir) => (.ok store.index.count, ⟨dir, some store, true⟩)
  | (.error e, dir) => (.error e, .closed dir)

/-- Puts another directory in place; an open store goes on with the log it has. -/
def replaceDir (slot : DiskSlot) (dir : PendingDir) : DiskSlot :=
  { slot with dir, attached := false }

/-- Replaces the content of the log, under an open store if there is one. -/
def replaceLog (slot : DiskSlot) (bytes : Bytes) : DiskSlot :=
  let opened := if slot.attached then
      slot.opened.map fun s ↦ { s with file := { s.file with bytes } }
    else slot.opened
  { slot with dir := slot.dir.withLog bytes, opened }

/-- Limits how far the log may grow. -/
def withCapacity (slot : DiskSlot) (capacity : Capacity) : DiskSlot :=
  { slot with opened := slot.opened.map fun s ↦ { s with file := s.file.limit capacity } }

/-- How far the log of the open store may grow. -/
def capacity (slot : DiskSlot) : Capacity :=
  (slot.opened.map fun s ↦ s.file.capacity).getD .unlimited

end DiskSlot

/-- Where pending ranges are kept. -/
inductive PendingBacking where
  /-- In memory only. -/
  | memory (index : PendingIndex)
  /-- On disk. -/
  | disk (slot : DiskSlot)

/-- A kind of call of a store. -/
inductive PendingCall where
  /-- Stores a range. -/
  | store
  /-- Loads the ranges of a level. -/
  | load
  /-- Drops ranges of a level. -/
  | drop
  deriving DecidableEq, Repr

/-- A store of pending ranges. -/
structure PendingStore where
  /-- Where the ranges are kept. -/
  backing : PendingBacking
  /-- A kind of call, and the error that the next one of it answers, if one is set. -/
  nextFailure : Option (PendingCall × StoreError)

namespace PendingStore

def inMemory : PendingStore := ⟨.memory .empty, none⟩

def onDisk (slot : DiskSlot) : PendingStore := ⟨.disk slot, none⟩

/-- What the disk store is, if the ranges are on disk. -/
def slot? (p : PendingStore) : Option DiskSlot :=
  match p.backing with
  | .memory _ => none
  | .disk slot => some slot

/-- Changes the disk store, if the ranges are on disk. -/
def onSlot (f : DiskSlot → DiskSlot) (p : PendingStore) : PendingStore :=
  match p.backing with
  | .memory _ => p
  | .disk slot => { p with backing := .disk (f slot) }

/-- Closes the disk store and opens it again: the number of ranges, or why it stays closed. -/
def reopen (p : PendingStore) : Except OpenError Nat × PendingStore :=
  match p.backing with
  | .memory index => (.ok index.count, p)
  | .disk slot =>
    let (answer, slot) := slot.reopen
    (answer, { p with backing := .disk slot })

/-- Runs an operation while the log may not grow past a size. -/
def withRoom {α : Type} (room : Nat) (operation : PendingStore → α × PendingStore)
    (p : PendingStore) : α × PendingStore :=
  let before := (p.slot?.map DiskSlot.capacity).getD .unlimited
  let (answer, p) := operation (p.onSlot fun slot ↦ slot.withCapacity (.upTo room))
  (answer, p.onSlot fun slot ↦ slot.withCapacity before)

/-- The ranges at hand; a closed store has none. -/
def index (p : PendingStore) : PendingIndex :=
  match p.backing with
  | .memory index => index
  | .disk slot => (slot.opened.map DiskStore.index).getD .empty

def count (p : PendingStore) : Nat := p.index.count

/-- Takes the error that a call of this kind answers, if one is set for it. -/
def takeFailure (call : PendingCall) (p : PendingStore) : Option (StoreError × PendingStore) :=
  match p.nextFailure with
  | none => none
  | some (failing, e) => if failing = call then some (e, { p with nextFailure := none }) else none

/-- Stores a range and answers how many blocks were written: all, or none when an equally long
range is there. -/
def store (blocks : List Block) (p : PendingStore) : Except StoreError Nat × PendingStore :=
  match p.takeFailure .store with
  | some (e, p) => (.error e, p)
  | none =>
    match p.backing with
    | .memory index =>
      match index.insert blocks with
      | none => (.ok 0, p)
      | some (_, index) => (.ok blocks.length, { p with backing := .memory index })
    | .disk slot =>
      match slot.opened with
      | none => (.error .closed, p)
      | some s =>
        let (answer, s) := s.store blocks
        (answer, { p with backing := .disk (slot.withStore s) })

def load (level : UInt64) (p : PendingStore) : Except StoreError PendingQueues × PendingStore :=
  match p.takeFailure .load with
  | some (e, p) => (.error e, p)
  | none =>
    match p.backing with
    | .memory index => (.ok (index.load level), p)
    | .disk slot =>
      match slot.opened with
      | none => (.error .closed, p)
      | some s => (.ok (s.index.load level), p)

/-- Drops ranges of a level that were loaded from it before. -/
def drop (level : UInt64) (keys : List Digest) (loaded : PendingQueues) (p : PendingStore) :
    Except StoreError Unit × PendingStore :=
  match p.takeFailure .drop with
  | some (e, p) => (.error e, p)
  | none =>
    match p.backing with
    | .memory index => (.ok (), { p with backing := .memory (index.remove level keys) })
    | .disk slot =>
      match slot.opened with
      | none => (.error .closed, p)
      | some s =>
        let (answer, s) := s.drop level keys loaded
        (answer, { p with backing := .disk (slot.withStore s) })

end PendingStore
end ChainSync
