import ChainSync.Flags

/-!
# The settings of a simulation

A simulation takes the flags of the engine and its log, and says besides how many peers there are,
how long their chain is, how late they answer, and when to give up.
-/

namespace ChainSync

/-- The settings of a simulation. -/
structure SimulationSettings where
  /-- The settings of the engine and its log. -/
  command : CommandSettings := {}
  /-- The number of peers. -/
  peers : UInt64 := 4
  /-- The number of blocks that the peers hold beyond the first. -/
  blocks : UInt64 := 500
  /-- Milliseconds until an answer. -/
  latency : UInt64 := 5
  /-- Seconds until the simulation gives up. -/
  deadline : UInt64 := 60
  deriving DecidableEq, Repr

namespace SimulationSettings

def commandPart : Part SimulationSettings CommandSettings :=
  ⟨command, fun command s ↦ { s with command }⟩

/-- The fields that only a simulation has. -/
def fields : List (Field SimulationSettings) :=
  [⟨"peers", .number 255 peers fun n s ↦ { s with peers := n }⟩,
    .word "blocks" blocks fun n s ↦ { s with blocks := n },
    .word "latency_ms" latency fun n s ↦ { s with latency := n },
    .word "deadline_secs" deadline fun n s ↦ { s with deadline := n }]

def flags : List (Flag SimulationSettings) :=
  CommandSettings.flags.map (Flag.lift commandPart) ++ fields.map Flag.ofField

/-- The settings that a command line stands for. -/
def ofWords (words : List String) : Except FlagError SimulationSettings :=
  parseFlags (flags ++ [.usage]) {} words

def engine (s : SimulationSettings) : Settings := s.command.engine

/-- The number of peers: one at least. -/
def peerCount (s : SimulationSettings) : Nat := max s.peers.toNat 1

/-- The number of blocks beyond the first: one at least. -/
def blockCount (s : SimulationSettings) : Nat := max s.blocks.toNat 1

end SimulationSettings
end ChainSync
