import ChainSync.Sync.Batch

/-!
# Settings

Everything that can be configured, with its default. Intervals are a millisecond at least, and a
peer may be asked once a second at least.
-/

namespace ChainSync

/-- The settings of an engine. -/
structure Settings where
  /-- From this number of waiting batches on, batches far ahead go to the pending store. -/
  blocksQueueMax : UInt64 := 32
  /-- How far above the local best block a batch is not yet far ahead. -/
  importSlack : UInt64 := 40
  /-- How many imported hashes are remembered. -/
  importedCacheSize : UInt64 := 4096
  /-- How many announced hashes are remembered. -/
  propagationCacheSize : UInt64 := 1024
  /-- Milliseconds between header requests. -/
  headerRequestInterval : UInt64 := 500
  /-- Milliseconds between status requests. -/
  statusRequestInterval : UInt64 := 2000
  /-- Milliseconds between lines about the status. -/
  statusLogInterval : UInt64 := 10000
  /-- Seconds that headers wait for their bodies. -/
  headerExpiry : UInt64 := 60
  /-- Milliseconds that each task is waited for at the end. -/
  shutdownTimeout : UInt64 := 10000
  /-- How many header requests a peer may get in any second. -/
  maxRequestsPerSecond : UInt64 := 2
  /-- State is fetched at a pivot instead of being replayed. -/
  fastSync : Bool := false
  /-- Blocks are never forwarded. -/
  syncOnlyNode : Bool := false
  /-- Lines about the status are written. -/
  showStatus : Bool := false
  /-- The directory of the pending log; without one, pending ranges stay in memory. -/
  pendingDir : Option String := none
  /-- The seed of the choice among peers. -/
  seed : Option UInt64 := none
  deriving DecidableEq, Repr

namespace Settings

def headerPeriod (s : Settings) : Millis := max s.headerRequestInterval.toNat 1

def statusPeriod (s : Settings) : Millis := max s.statusRequestInterval.toNat 1

/-- Time between lines about the status. -/
def statusLogPeriod (s : Settings) : Millis := max s.statusLogInterval.toNat 1

/-- Time that each task is waited for at the end. -/
def shutdownPeriod (s : Settings) : Millis := s.shutdownTimeout.toNat

/-- Header requests that a peer may get in any second. -/
def requestLimit (s : Settings) : Nat := max s.maxRequestsPerSecond.toNat 1

/-- Time that headers wait for their bodies. -/
def headerLife (s : Settings) : Millis := s.headerExpiry.toNat * 1000

end Settings

/-- The settings of the log. -/
structure LogSettings where
  /-- How much is logged. -/
  verbosity : UInt8 := 0
  /-- Lines are written as JSON. -/
  logJson : Bool := false
  deriving DecidableEq, Repr

namespace LogSettings

/-- What is logged of the program itself at a verbosity. -/
def level (verbosity : UInt8) : String :=
  match verbosity.toNat with
  | 0 => "info"
  | 1 => "debug"
  | _ => "trace"

/-- The filter that a verbosity stands for: warnings of everything, and more of the program. -/
def filter (verbosity : UInt8) : String :=
  let own := level verbosity
  "warn,block_sync=" ++ own ++ ",sync_sim=" ++ own

end LogSettings
end ChainSync
