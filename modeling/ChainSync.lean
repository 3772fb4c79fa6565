import ChainSync.Block.Basic
import ChainSync.Block.Binary
import ChainSync.Block.Sample
import ChainSync.Bytes.Endian
import ChainSync.Bytes.Hex
import ChainSync.ChaCha
import ChainSync.Chain.Basic
import ChainSync.Chain.FastImport
import ChainSync.Chain.Import
import ChainSync.Chain.Outcome
import ChainSync.Checksum
import ChainSync.Digest
import ChainSync.Engine.Basic
import ChainSync.Engine.Exchange
import ChainSync.Engine.HeaderPass
import ChainSync.Engine.Import
import ChainSync.Engine.Propagation
import ChainSync.Engine.Snapshot
import ChainSync.Fast.Completion
import ChainSync.Fast.Ledger
import ChainSync.Fast.PivotWalk
import ChainSync.Fast.State
import ChainSync.Fast.TrieImport
import ChainSync.Fault
import ChainSync.Flags
import ChainSync.Json.Basic
import ChainSync.Json.Block
import ChainSync.Json.Reader
import ChainSync.Json.Record
import ChainSync.Json.Report
import ChainSync.Json.Token
import ChainSync.Keccak
import ChainSync.Main
import ChainSync.Node
import ChainSync.Peer.Basic
import ChainSync.Peer.Registry
import ChainSync.Pending.Disk
import ChainSync.Pending.Index
import ChainSync.Pending.Place
import ChainSync.Pending.Record
import ChainSync.Pending.Store
import ChainSync.Progress
import ChainSync.RecentSet
import ChainSync.Settings
import ChainSync.Settings.Field
import ChainSync.Simulation.Network
import ChainSync.Simulation.Run
import ChainSync.Simulation.Settings
import ChainSync.StorageError
import ChainSync.Sync.Batch
import ChainSync.Sync.HeaderStore
import ChainSync.Sync.ImportQueue
import ChainSync.Sync.Mode
import ChainSync.Sync.RequestSchedule
import ChainSync.Sync.Signal
import ChainSync.Sync.Stats
import ChainSync.Task.Control
import ChainSync.Task.Host
import ChainSync.Task.Job
import ChainSync.Task.Remote
import ChainSync.Proofs.Step
import ChainSync.Proofs.Chain.Attempt
import ChainSync.Proofs.Chain.Canonical
import ChainSync.Proofs.Chain.Branch
import ChainSync.Proofs.Chain.Growth
import ChainSync.Proofs.Chain.Consistency
import ChainSync.Proofs.Import.Cases
import ChainSync.Proofs.Import.Overflow
import ChainSync.Proofs.Delivery.Line
import ChainSync.Proofs.Pending.Index
import ChainSync.Proofs.Delivery.Drain
import ChainSync.Proofs.Delivery.Batch
import ChainSync.Proofs.Delivery.Convergence
import ChainSync.Proofs.Pending.Codec
import ChainSync.Proofs.Pending.Framing
import ChainSync.Proofs.Pending.Replay
import ChainSync.Proofs.Pending.Recovery
import ChainSync.Proofs.Chain.FastAttempt
import ChainSync.Proofs.Chain.Promotion
import ChainSync.Proofs.Fast.Completion
import ChainSync.Proofs.Fast.Ledger
import ChainSync.Proofs.Fast.Walk
import ChainSync.Proofs.Import.Frame
import ChainSync.Proofs.Round.Schedule
import ChainSync.Proofs.Round.Pass
import ChainSync.Proofs.Round.Exchange
import ChainSync.Proofs.Round.Serving
import ChainSync.Proofs.Round.Catchup
import ChainSync.Proofs.Round.Reached
import ChainSync.Proofs.Round.Standstill
import ChainSync.Proofs.Schedule.Places
import ChainSync.Proofs.Schedule.Membership
import ChainSync.Proofs.Schedule.RateLimit
import ChainSync.Proofs.Chain.Linked
import ChainSync.Proofs.RecentSet
import ChainSync.Proofs.Import.Watch
import ChainSync.Proofs.Import.Duplicates
import ChainSync.Proofs.Import.Retention
import ChainSync.Proofs.Propagation
import ChainSync.Proofs.Forwarding
import ChainSync.Proofs.Schedule.Waiting
import ChainSync.Proofs.Schedule.Pairing
import ChainSync.Proofs.Pending.Agreement
import ChainSync.Proofs.Pending.Rollback
import ChainSync.Proofs.Fast.Importer
import ChainSync.Proofs.Fast.Redelivery
import ChainSync.Proofs.Fast.Pursuit
import ChainSync.Proofs.Chain.ForkChoice
import ChainSync.Proofs.Fast.Roots
import ChainSync.Proofs.Fast.Latches
import ChainSync.Proofs.Schedule.Visits
import ChainSync.Proofs.Schedule.Ranges
import ChainSync.Proofs.Schedule.Admission
import ChainSync.Proofs.Schedule.Withheld
import ChainSync.Proofs.Import.Screening
import ChainSync.Proofs.Pending.Reading
import ChainSync.Proofs.Chain.Report
import ChainSync.Proofs.Chain.Redundant
import ChainSync.Proofs.Import.Leftovers
import ChainSync.Proofs.Queue.History
import ChainSync.Proofs.Queue.Overshoot
import ChainSync.Proofs.Fast.Receipts
import ChainSync.Proofs.Chain.Gaps
import ChainSync.Proofs.Commitment
import ChainSync.Proofs.RecentWindow
import ChainSync.Proofs.Queue.HeaderLedger
import ChainSync.Proofs.Schedule.Sizes
import ChainSync.Proofs.Schedule.Horizon
