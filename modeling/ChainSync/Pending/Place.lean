import ChainSync.Pending.Store

/-!
# Where a pending log is placed

A path names the directory of the log. On a machine that has stored nothing before, no directory
stands there and one is made, with all directories on the way to it, unless the path leads through
a file or makes an entry where only the system does, or is too long.
-/

namespace ChainSync

namespace PendingDir

def names (path : String) : List String :=
  (path.splitOn "/").filter fun name ↦ name ≠ "" && name ≠ "."

/-- Places from the root on that are no directories: devices, and files that every machine has. -/
def files : List (List String) :=
  [["dev", "null"], ["dev", "zero"], ["dev", "full"], ["dev", "random"], ["dev", "urandom"],
    ["dev", "tty"], ["dev", "stdin"], ["dev", "stdout"], ["dev", "stderr"], ["etc", "passwd"],
    ["etc", "group"], ["etc", "hosts"], ["etc", "hostname"]]

/-- Directories in which only the system makes entries. -/
def systemDirs : List (List String) :=
  [["proc"], ["proc", "self"], ["proc", "self", "fd"], ["proc", "sys"], ["proc", "net"], ["sys"],
    ["sys", "kernel"], ["sys", "fs"], ["sys", "class"], ["sys", "devices"]]

/-- Places that stand for another place. -/
def links : List (List String × List String) :=
  [(["dev", "fd"], ["proc", "self", "fd"]), (["proc", "self", "root"], [])]

/-- The place of a name in a directory, if a directory is there or can be made. -/
def enter (dir : List String) (name : String) : Option (List String) :=
  let place := dir ++ [name]
  match links.lookup place with
  | some target => some target
  | none =>
    if files.contains place || systemDirs.contains dir && !systemDirs.contains place then none
    else some place

/-- The place to which names lead from a directory. Two dots lead to the directory around it. -/
def walk (dir : List String) : List String → Option (List String)
  | [] => some dir
  | name :: rest =>
    if name = ".." then walk dir.dropLast rest
    else (enter dir name).bind fun place ↦ walk place rest

/-- A log can be made at the end of the path. A path that does not start at the root leads to
directories of one's own. -/
def isOpen (path : String) : Bool :=
  !path.startsWith "/" || (walk [] (names path)).any fun place ↦ !systemDirs.contains place

def nameLimit : Nat := 255

def pathLimit : Nat := 4095

/-- The path and the names on it are short enough. -/
def isShort (path : String) : Bool :=
  path.utf8ByteSize ≤ pathLimit && (names path).all fun name ↦ name.utf8ByteSize ≤ nameLimit

/-- What stands at a path on a machine that has stored nothing before. -/
def unused (path : String) : PendingDir :=
  if isShort path && isOpen path then .missing else .obstructed

end PendingDir

namespace PendingStore

/-- Opens a store on disk over a directory. -/
def openIn (dir : PendingDir) : Except OpenError PendingStore :=
  let (answer, store) := (onDisk (.closed dir)).reopen
  answer.map fun _ ↦ store

/-- Opens the store that settings ask for, on a machine that has stored nothing before. -/
def openUnused : Option String → Except OpenError PendingStore
  | none => .ok inMemory
  | some path => openIn (.unused path)

end PendingStore
end ChainSync
