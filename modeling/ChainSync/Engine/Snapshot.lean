import ChainSync.Engine.Basic
import ChainSync.Fast.Completion

/-!
# Snapshots of an engine

A snapshot shows at one point in time how far an engine has come. Taking one brings the counters
up to date, and may find fast synchronisation complete.
-/

namespace ChainSync

/-- How far an engine has come. -/
structure Snapshot where
  /-- The height of the local best block. -/
  localBest : UInt64
  /-- The best chain advertised. -/
  network : NetworkStatus
  /-- The distance to the greatest height known, once one is. -/
  lag : Option UInt64
  /-- The number of batches that wait for import. -/
  queueSize : Nat
  /-- The number of pending ranges. -/
  pendingCount : Nat
  /-- The number of header batches that wait for their bodies. -/
  headerBatches : Nat
  /-- The number of peers in the backward mode. -/
  backward : Nat
  /-- The number of peers in the forward mode. -/
  forward : Nat
  /-- Fast synchronisation is complete or not in use. -/
  fastComplete : Bool
  /-- The counters. -/
  stats : Stats

namespace Seat

def snapshot : Step Seat Snapshot := do
  let s ← get
  let localBest := s.node.chain.bestNumber
  let networkBest := max s.engine.network.bestNumber s.engine.requests.networkHeight
  noteBest
  let fastComplete ← isFastComplete
  return {
    localBest
    network := s.engine.network
    lag := Progress.lag networkBest localBest
    queueSize := s.engine.queue.size
    pendingCount := s.node.pending.count
    headerBatches := s.engine.requests.headers.size
    backward := s.engine.modes.count .backward
    forward := s.engine.modes.count .forward
    fastComplete
    stats := (← get).engine.stats }

end Seat
end ChainSync
