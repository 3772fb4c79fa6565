import ChainSync.Task.Host

/-!
# Starting and stopping tasks

The manager's tasks are started together and stopped together; stopping waits for each of them as
long as the settings say, and gives up those that have not ended. The tasks of the bench are
started one kind at a time and share a switch until they are stopped or left alone.
-/

namespace ChainSync

namespace Seat

/-- The jobs of an engine that answers the messages of peers, in the order in which they start. -/
def jobs (e : Engine) : List Job :=
  let s := e.settings
  let requests := [.headerRequests (.new s.headerPeriod), .statusRequests (.new s.statusPeriod)]
  let tries := if e.fast.enabled && !e.inbox.claimed then [.trieImport] else []
  let pivot := if e.fast.enabled then [.pivotBlocks .start] else []
  let status := if s.showStatus then [.statusLog (.new s.statusLogPeriod) true] else []
  requests ++ tries ++ pivot ++ [.importBatches e.fast.enabled] ++ status

/-- A task is given the receiving end of the inbox. -/
def claimInbox (e : Engine) : Engine :=
  if e.fast.enabled then { e with inbox := { e.inbox with claimed := true } } else e

end Seat

namespace Host

/-- Nobody can touch the manager's switch any more. -/
def letManagerGo (h : Host) : Host :=
  match h.managerSwitch with
  | none => h
  | some position => { h.onSwitch position Switch.letGo with managerSwitch := none }.rouse

/-- Starts the manager's tasks. Those of an earlier start lose their switch. -/
def startManager (h : Host) : Host :=
  let position := h.switches.length
  let jobs := Seat.jobs h.manager
  let started := { h with
    switches := h.switches ++ [Switch.on]
    manager := Seat.claimInbox h.manager }.spawnAll .manager position jobs
  { started.letManagerGo with managerSwitch := some position }

/-- The tasks on a switch that have not ended. -/
def running (h : Host) (position : Nat) : List TaskId :=
  (h.numbered.filter fun entry ↦ entry.2.switch = position && !entry.2.hasEnded).map Prod.fst

def wakeImport (seat : SeatName) (h : Host) : Host :=
  let part := seatPart seat
  let s := part.get h
  (part.put { s with engine := { s.engine with queue := s.engine.queue.wake } } h).rouse

/-- Gives tasks their turns until they have ended; there are no more turns than tasks that are ready
and tasks that another one roused when it ended. -/
def runAll (h : Host) : Host := (h.runReady (2 * h.tasks.length)).settle

/-- Stops the manager's tasks, and answers how many of them were given up. Without any time to end
in, that is every one that had not ended before; these end when it is their turn. -/
def stopManager (h : Host) : Nat × Host :=
  match h.managerSwitch with
  | none => (0, h)
  | some position =>
    let running := h.running position
    let h := { h.onSwitch position Switch.turnOff with managerSwitch := none }
    let h := h.wakeImport .manager
    if running.isEmpty then (0, h)
    else if h.manager.settings.shutdownPeriod = 0 then (running.length, h)
    else
      let h := h.runAll
      ((h.running position).length, h)

def startBench (jobs : List Job) (h : Host) : Host :=
  let numbers := List.range' h.tasks.length jobs.length
  { h with benchTasks := h.benchTasks ++ numbers }.spawnAll .bench h.benchSwitch jobs

/-- The bench has a new inbox; a task that imports from the one before is left with what is in
it. -/
def replaceBenchInbox (h : Host) : Host :=
  let rest := Job.trieRest h.bench.inbox.jobs
  let tasks := h.tasks.map fun t ↦
    if t.seat = .bench && t.job = .trieImport then { t with job := rest } else t
  { h with tasks, bench := { h.bench with inbox := { TrieInbox.opened with claimed := true } } }

def startBenchFast (h : Host) : Host :=
  (h.replaceBenchInbox.startBench [.trieImport, .pivotBlocks .start]).rouse

def startBenchImport (gated : Bool) (h : Host) : Host := h.startBench [.importBatches gated]

/-- Which tasks of the bench have ended, in the order in which they started; those that were stopped
do not count any more. -/
def benchEnded (h : Host) : List Bool :=
  h.benchTasks.map fun task ↦ (h.tasks[task]?.map Task.hasEnded).getD true

/-- The tasks of the bench that start from now on have a switch of their own. -/
def renewBenchSwitch (h : Host) : Host :=
  { h with switches := h.switches ++ [Switch.on], benchSwitch := h.switches.length }

/-- Stops the tasks of the bench and answers which of them have ended. -/
def stopBench (h : Host) : List Bool × Host :=
  let h := (h.onSwitch h.benchSwitch Switch.turnOff).wakeImport .bench
  let h := if h.benchEnded.all id then h else h.runAll
  (h.benchEnded, { h with benchTasks := [] }.renewBenchSwitch)

/-- Touches the switch of the bench and leaves it as it is. -/
def nudgeBench (h : Host) : Host := (h.onSwitch h.benchSwitch Switch.nudge).rouse

/-- Nobody can touch the switches of the tasks that run any more. -/
def abandon (h : Host) : Host :=
  (h.onSwitch h.benchSwitch Switch.letGo).letManagerGo.renewBenchSwitch.rouse

/-- Takes answers of both engines about completeness in place of measured ones. -/
def setCompleteness (c : CompletenessOverride) (h : Host) : Host :=
  { h with
    bench := { h.bench with fast := { h.bench.fast with completeness := c } }
    manager := { h.manager with fast := { h.manager.fast with completeness := c } } }

/-- Changes the answers that are taken in place of measured ones, if there are any. -/
def changeCompleteness (c : CompletenessOverride) (h : Host) : Host :=
  if h.bench.fast.completeness = .none then h else h.setCompleteness c

/-- Chooses the pivots of both engines after failures by a policy. -/
def setPolicy (policy : PivotPolicy) (h : Host) : Host :=
  { h with
    bench := { h.bench with fast := { h.bench.fast with policy } }
    manager := { h.manager with fast := { h.manager.fast with policy } } }

/-- No more answers with trie nodes can be sent to the bench. -/
def closeBenchInbox (h : Host) : Host :=
  { h with bench := { h.bench with inbox := { h.bench.inbox with hasSender := false } } }.rouse

end Host
end ChainSync
