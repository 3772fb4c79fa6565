/-!
# Storage errors

What a device reports, and the errors that the chain and the pending store make of it. A full
device is the one unrecoverable condition: it stays recognisable through every conversion.
-/

namespace ChainSync

/-- The kinds of failure a device reports. -/
inductive DeviceErrorKind where
  /-- The device has no space left. -/
  | storageFull
  /-- The caller may not do this. -/
  | permissionDenied
  /-- There is no such entry. -/
  | notFound
  /-- The content ended too early. -/
  | unexpectedEnd
  /-- Any other failure. -/
  | other
  deriving DecidableEq, Repr

namespace DeviceErrorKind

/-- The text of a failure that carries none of its own. -/
def text : DeviceErrorKind → String
  | storageFull => "no storage space"
  | permissionDenied => "permission denied"
  | notFound => "entity not found"
  | unexpectedEnd => "unexpected end of file"
  | other => "other error"

end DeviceErrorKind

/-- A failure reported by a device. -/
structure DeviceError where
  /-- What kind of failure it is. -/
  kind : DeviceErrorKind
  /-- What the device says about it. -/
  text : String
  deriving DecidableEq, Repr

namespace DeviceError

/-- Does the first list of characters occur in the second without gaps? -/
def occursIn (needle : List Char) : List Char → Bool
  | [] => needle.isEmpty
  | c :: rest => needle.isPrefixOf (c :: rest) || occursIn needle rest

/-- The failure kind with a word; an unknown word stands for any other failure. -/
def kindOf (word : String) : DeviceErrorKind :=
  if word = "storage_full" then .storageFull
  else if word = "permission_denied" then .permissionDenied
  else if word = "not_found" then .notFound
  else if word = "unexpected_eof" then .unexpectedEnd
  else .other

/-- A failure of the given kind without a text of its own. -/
def ofKind (kind : DeviceErrorKind) : DeviceError := ⟨kind, kind.text⟩

/-- The device is full: it says so by the kind or in the text. -/
def isOutOfSpace (e : DeviceError) : Bool :=
  e.kind = .storageFull || occursIn "No space left on device".toList e.text.toList

/-- What a full device says about a write. -/
def deviceFull : DeviceError :=
  ⟨.storageFull, "No space left on device (os error 28)"⟩

/-- What a device says about a write past the largest size allowed for a file. -/
def fileTooLarge : DeviceError := ⟨.other, "File too large (os error 27)"⟩

end DeviceError

/-- Errors of the chain. -/
inductive ChainError where
  /-- Persistent storage is full. -/
  | outOfDiskSpace (text : String)
  /-- Storage failed in another way. -/
  | storage (text : String)
  /-- The chain refuses the operation. -/
  | rejected (text : String)
  deriving DecidableEq, Repr

namespace ChainError

def isFatal : ChainError → Bool
  | outOfDiskSpace _ => true
  | storage _ | rejected _ => false

def kind : ChainError → String
  | outOfDiskSpace _ => "out_of_disk_space"
  | storage _ => "storage"
  | rejected _ => "rejected"

/-- The error of a kind; an unknown kind is a failure of storage. -/
def ofKind (kind text : String) : ChainError :=
  if kind = "out_of_disk_space" then outOfDiskSpace text
  else if kind = "rejected" then rejected text
  else storage text

def message : ChainError → String
  | outOfDiskSpace text => "out of disk space: " ++ text
  | storage text => "storage error: " ++ text
  | rejected text => "rejected: " ++ text

def ofDevice (e : DeviceError) : ChainError :=
  if e.isOutOfSpace then outOfDiskSpace e.text else storage e.text

end ChainError

/-- Errors of the pending store. -/
inductive StoreError where
  /-- Persistent storage is full. -/
  | outOfDiskSpace (text : String)
  /-- Reading or writing failed in another way. -/
  | io (text : String)
  /-- A record cannot be encoded or decoded. -/
  | codec (text : String)
  deriving DecidableEq, Repr

/-- Why a record cannot be encoded or decoded. -/
inductive CodecError where
  /-- Reading or writing its bytes failed. -/
  | device (error : DeviceError)
  /-- It is larger than allowed. -/
  | sizeLimit
  /-- A sequence does not say how long it is. -/
  | unsizedSequence
  /-- A byte is neither of the two truth values. -/
  | invalidBool (byte : UInt8)
  /-- A variant number stands for nothing. -/
  | invalidTag (tag : Nat)
  /-- Any other cause. -/
  | custom (text : String)
  deriving DecidableEq, Repr

namespace CodecError

/-- The cause with a word, and a number or a text where it has one; an unknown word stands for any
other cause. -/
def ofKind (kind : String) (number : Nat) (text : String) : CodecError :=
  if kind = "size_limit" then sizeLimit
  else if kind = "sequence" then unsizedSequence
  else if kind = "bool" then invalidBool (UInt8.ofNat number)
  else if kind = "tag" then invalidTag number
  else custom text

end CodecError

namespace StoreError

def isFatal : StoreError → Bool
  | outOfDiskSpace _ => true
  | io _ | codec _ => false

def kind : StoreError → String
  | outOfDiskSpace _ => "out_of_disk_space"
  | io _ => "io"
  | codec _ => "codec"

/-- The error of a kind; an unknown kind is a failure to read or write. -/
def ofKind (kind text : String) : StoreError :=
  if kind = "out_of_disk_space" then outOfDiskSpace text
  else if kind = "codec" then codec text
  else io text

def message : StoreError → String
  | outOfDiskSpace text => "out of disk space: " ++ text
  | io text => "pending store io: " ++ text
  | codec text => "pending store codec: " ++ text

def ofDevice (e : DeviceError) : StoreError :=
  if e.isOutOfSpace then outOfDiskSpace e.text else io e.text

/-- The store error that a coding failure becomes; a device failure inside keeps its own kind. -/
def ofCodec : CodecError → StoreError
  | .device e => ofDevice e
  | .sizeLimit => codec "the size limit has been reached"
  | .unsizedSequence =>
    codec ("Bincode can only encode sequences and maps that have a knowable size ahead of " ++
      "time")
  | .invalidBool byte =>
    codec (s!"invalid u8 while decoding bool, expected 0 or 1, found {byte.toNat}")
  | .invalidTag tag => codec s!"tag for enum is not valid, found {tag}"
  | .custom text => codec text

/-- The answer of a store that has been closed. -/
def closed : StoreError := io "closed"

end StoreError

/-- The exit code of a process that ends because storage is full. -/
def outOfDiskSpaceExitCode : Nat := 2

end ChainSync
