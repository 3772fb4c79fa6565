import ChainSync.Pending.Place
import ChainSync.Simulation.Run

/-!
# The command line

Runs a simulation and prints its summary. With a directory for pending ranges, their log is read
from it before the run and written to it afterwards.
-/

namespace ChainSync.CommandLine

/-- The name of the log in a directory of pending ranges. -/
def logName : String := "pending.log"

def logPath (dir : String) : String := dir ++ "/" ++ logName

/-- Reads the directory of the log; it is made if it is missing and can be made. -/
def readDir (dir : String) : IO PendingDir := do
  try
    IO.FS.createDirAll dir
  catch _ =>
    return .obstructed
  try
    let bytes ← IO.FS.readBinFile (logPath dir)
    return .present (.file bytes.toList) .missing
  catch _ =>
    return .present .missing .missing

/-- Writes the log of a store back to its directory. -/
def writeDir (dir : String) (pending : PendingStore) : IO Unit := do
  match pending.slot?.bind fun slot ↦ slot.dir.log.bytes? with
  | none => return
  | some bytes => IO.FS.writeBinFile (logPath dir) (ByteArray.mk bytes.toArray)

/-- The pending store that settings ask for. -/
def openPending (settings : Settings) : IO (Except OpenError PendingStore) := do
  match settings.pendingDir with
  | none => return .ok .inMemory
  | some dir => return PendingStore.openIn (← readDir dir)

/-- Ends a program with a text on the error stream. -/
def fail (code : Nat) (text : String) : IO UInt32 := do
  IO.eprintln text
  return UInt32.ofNat code

/-- Runs a simulation and answers the exit code. -/
def simulate (settings : SimulationSettings) : IO UInt32 := do
  match ← openPending settings.engine with
  | .error e => fail 1 e.message
  | .ok pending =>
    match Simulation.run settings pending with
    | .error fault => fail 1 fault.message
    | .ok (summary, host) =>
      if let some dir := settings.engine.pendingDir then
        writeDir dir host.node.pending
      match host.node.alarms with
      | alarm :: _ => fail outOfDiskSpaceExitCode alarm
      | [] =>
        IO.println summary.toJson.write
        return 0

end ChainSync.CommandLine

/-- Runs a simulation with the settings that the command line stands for. -/
def main (words : List String) : IO UInt32 := do
  match ChainSync.SimulationSettings.ofWords words with
  | .ok settings => ChainSync.CommandLine.simulate settings
  | .error e => ChainSync.CommandLine.fail e.exitCode e.text
