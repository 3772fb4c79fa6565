import ChainSync.Task.Job

/-!
# Hosts: tasks in time

A host runs the tasks of two engines on one node. Tasks that are ready run one after the other, in
the order in which they became ready; when none is left, time goes on to the next moment at which
a task wants to. Timers do not ring at the moment when the clock reaches them but when the host
looks at them, between rounds of turns. Whoever lets time pass goes on first at the end of it: tasks
whose timers ring then run the next time that time passes.
-/

namespace ChainSync

/-- The engines on a host. -/
inductive SeatName where
  /-- The engine whose parts are called one by one. -/
  | bench
  /-- The engine that answers the messages of peers. -/
  | manager
  deriving DecidableEq, Repr

/-- A switch that ends tasks. -/
structure Switch where
  /-- How often it was touched. -/
  touches : Nat
  /-- It says that tasks have to end. -/
  isOff : Bool
  /-- Somebody can still touch it. -/
  isHeld : Bool
  deriving DecidableEq, Repr

namespace Switch

/-- A switch that nobody has touched. -/
def on : Switch := ⟨0, false, true⟩

/-- Touches the switch, which says whether tasks have to end from then on. -/
def touch (isOff : Bool) (s : Switch) : Switch :=
  if s.isHeld then { s with touches := s.touches + 1, isOff } else s

def nudge (s : Switch) : Switch := s.touch false

/-- Says that tasks have to end. -/
def turnOff (s : Switch) : Switch := s.touch true

/-- Nobody can touch the switch any more. -/
def letGo (s : Switch) : Switch := { s with isHeld := false }

end Switch

/-- When a task wants to go on, and when it said so. -/
structure Timer where
  /-- When it wants to go on. -/
  due : Millis
  /-- The place in the order in which timers were set. -/
  place : Nat
  deriving DecidableEq, Repr

/-- A task of an engine. -/
structure Task where
  /-- The engine. -/
  seat : SeatName
  /-- The position of its switch. -/
  switch : Nat
  /-- What it does. -/
  job : Job
  /-- How often its switch had been touched when it last looked. -/
  seen : Nat
  /-- When it wants to go on. -/
  timer : Option Timer
  /-- It has had no turn yet. -/
  isNew : Bool
  /-- It has ended. -/
  hasEnded : Bool
  deriving DecidableEq, Repr

/-- A node with two engines, and their tasks in time. -/
structure Host where
  /-- The node. -/
  node : Node
  /-- The engine whose parts are called one by one. -/
  bench : Engine
  /-- The engine that answers the messages of peers. -/
  manager : Engine
  /-- The time. -/
  now : Millis
  /-- The moment up to which timers have rung. -/
  settled : Millis
  /-- The tasks by their numbers. -/
  tasks : List Task
  /-- The tasks that are ready, in the order in which they run. -/
  ready : List TaskId
  /-- The tasks that gave way and are ready again once timers have rung. -/
  yielded : List TaskId
  /-- The tasks of the bench that were not stopped, in the order in which they started. -/
  benchTasks : List TaskId
  /-- The switches. -/
  switches : List Switch
  /-- The position of the switch for the tasks of the bench that start from now on. -/
  benchSwitch : Nat
  /-- The position of the switch that stops the manager, while it runs. -/
  managerSwitch : Option Nat
  /-- The number of timers set so far. -/
  timersSet : Nat

namespace Host

/-- A host without tasks. -/
def new (node : Node) (bench manager : Engine) : Host where
  node
  bench
  manager
  now := 0
  settled := 0
  tasks := []
  ready := []
  yielded := []
  benchTasks := []
  switches := [.on]
  benchSwitch := 0
  managerSwitch := none
  timersSet := 0

/-- A host without tasks whose engines have the same settings. Nobody takes trie nodes for the
bench until a task does. -/
def ofSettings (settings : Settings) (node : Node) : Host :=
  let best := node.chain.bestNumber
  new node (.new settings best .closed) (.new settings best .opened)

def seatPart : SeatName → Part Host Seat
  | .bench => ⟨fun h ↦ ⟨h.node, h.bench⟩, fun s h ↦ { h with node := s.node, bench := s.engine }⟩
  | .manager =>
    ⟨fun h ↦ ⟨h.node, h.manager⟩, fun s h ↦ { h with node := s.node, manager := s.engine }⟩

def switchAt (h : Host) (position : Nat) : Switch := h.switches[position]?.getD .on

def onSwitch (position : Nat) (f : Switch → Switch) (h : Host) : Host :=
  { h with switches := h.switches.modify position f }

def setTask (task : TaskId) (t : Task) (h : Host) : Host :=
  { h with tasks := h.tasks.set task t }

/-- Starts a task, which is ready at once. -/
def spawn (seat : SeatName) (switch : Nat) (job : Job) (h : Host) : Host :=
  { h with
    tasks := h.tasks ++ [⟨seat, switch, job, (h.switchAt switch).touches, none, true, false⟩]
    ready := h.ready ++ [h.tasks.length] }

def spawnAll (seat : SeatName) (switch : Nat) (jobs : List Job) (h : Host) : Host :=
  jobs.foldl (fun h job ↦ h.spawn seat switch job) h

/-- A task that pauses can go on: it was roused, or its switch was touched or let go. -/
def canGoOn (h : Host) (task : TaskId) (t : Task) : Bool :=
  let switch := h.switchAt t.switch
  !t.hasEnded && !h.ready.contains task && !h.yielded.contains task &&
    (((seatPart t.seat).get h).isRoused task t.job || t.seen < switch.touches || !switch.isHeld)

/-- The tasks with their numbers. -/
def numbered (h : Host) : List (TaskId × Task) := (List.range h.tasks.length).zip h.tasks

/-- Makes every task ready that can go on. -/
def rouse (h : Host) : Host :=
  let roused := h.numbered.filter fun entry ↦ h.canGoOn entry.1 entry.2
  { h with ready := h.ready ++ roused.map Prod.fst }

def endTask (task : TaskId) (h : Host) : Host :=
  match h.tasks[task]? with
  | none => h
  | some t =>
    let part := seatPart t.seat
    let h := part.put ((part.get h).release task t.job) h
    h.setTask task { t with timer := none, hasEnded := true }

/-- The timer after a turn. -/
def nextTimer (h : Host) (before : Option Timer) : Pause → Option Timer
  | .forever => none
  | .until due => some ⟨due, h.timersSet⟩
  | .untilTick due =>
    match before with
    | some timer => some (if timer.due = due then timer else ⟨due, h.timersSet⟩)
    | none => some ⟨due, h.timersSet⟩

/-- A task that gets a turn ends without doing anything: its switch is off, or nobody can touch the
switch any more and the task sees that before it works. A task that works first does not see it in
its first turn or right after the switch was touched. -/
def endsAtOnce (h : Host) (t : Task) : Bool :=
  let switch := h.switchAt t.switch
  switch.isOff ||
    !switch.isHeld && (t.job.looksFirst || !(t.isNew || t.seen < switch.touches))

/-- Gives a task its turn. A fault ends it; what it did before stays done. So does a switch that
nobody can touch any more. -/
def runTask (task : TaskId) (h : Host) : Host :=
  match h.tasks[task]? with
  | none => h
  | some t =>
    if t.hasEnded then h
    else if h.endsAtOnce t then h.endTask task
    else
      let switch := h.switchAt t.switch
      let part := seatPart t.seat
      let (woken, seat) := (part.get h).leave task t.job
      let (answer, seat) := (Seat.turn ⟨task, h.now, h.settled, woken⟩ t.job).exec seat
      let h := part.put seat h
      match answer with
      | .error _ | .ok .ends => h.endTask task
      | .ok (.yields job) =>
        { h.setTask task { t with job, seen := switch.touches, timer := none, isNew := false } with
          yielded := h.yielded ++ [task] }
      | .ok (.pauses job pause) =>
        let timer := h.nextTimer t.timer pause
        let h := h.setTask task { t with job, seen := switch.touches, timer, isNew := false }
        if switch.isHeld then { h with timersSet := h.timersSet + 1 } else h.endTask task

/-- Gives turns to the tasks that are ready, at most so many. Tasks that get ready meanwhile take
their turns after them. -/
def runReady : Nat → Host → Host
  | 0, h => h
  | turns + 1, h =>
    match h.ready with
    | [] => h
    | task :: rest => runReady turns (({ h with ready := rest }.runTask task).rouse)

/-- How many turns a round has at most. -/
def roundLength : Nat := 61

def runRound (h : Host) : Host := h.runReady roundLength

/-- The timers of tasks that are not ready. -/
def timers (h : Host) : List (TaskId × Timer) :=
  h.numbered.filterMap fun (task, t) ↦
    if t.hasEnded || h.ready.contains task then none else t.timer.map fun timer ↦ (task, timer)

/-- The first moment at which a task wants to go on. -/
def nextDue (h : Host) : Option Millis :=
  (h.timers.map fun entry ↦ entry.2.due).min?

/-- Rings every timer that is due: first by that time, then by the order in which they were set.
Then the tasks that gave way are ready again. -/
def settle (h : Host) : Host :=
  let due := h.timers.filter fun entry ↦ entry.2.due ≤ h.now
  let rung := due.mergeSort fun a b ↦
    a.2.due < b.2.due || (a.2.due = b.2.due && a.2.place ≤ b.2.place)
  { h with
    settled := max h.settled h.now
    ready := h.ready ++ rung.map Prod.fst ++ h.yielded
    yielded := [] }

/-- No task has anything to do at this moment. -/
def isQuiet (h : Host) : Bool := h.ready.isEmpty && h.yielded.isEmpty

/-- Moves the clock on to a moment. -/
def moveTo (moment : Millis) (h : Host) : Host := { h with now := max h.now moment }.settle

/-- Lets time pass up to a moment, in at most `fuel` rounds. The clock moves only when no task has
anything to do. -/
def passIn : Nat → Millis → Host → Host
  | 0, target, h => h.moveTo target
  | fuel + 1, target, h =>
    let h := h.runRound
    if h.isQuiet then
      let h := h.moveTo (h.nextDue.elim target (min target))
      if target ≤ h.now then h else passIn fuel target h
    else passIn fuel target h.settle

/-- How many rounds there are at one moment at most. A task has a turn because it is ready, because
another one has ended, or because it gave way, which takes an answer with a trie node away. -/
def roundsAtOnce (h : Host) : Nat :=
  2 * h.tasks.length + h.bench.inbox.jobs.length + h.manager.inbox.jobs.length + 2

/-- Lets time pass. A task that ran wants to go on later than now, so the clock stops at any moment
once at most. -/
def pass (span : Millis) (h : Host) : Host :=
  if span = 0 then h else passIn ((span + 2) * h.roundsAtOnce) (h.now + span) h

/-- Moves the clock at once. Tasks that are ready have a round of turns at the new time, before
timers ring. -/
def advance (span : Millis) (h : Host) : Host := { h with now := h.now + span }.runRound.settle

/-- Runs a step of an engine, and makes the tasks ready that it roused. -/
def act (seat : SeatName) {α : Type} (step : Step Seat α) : Step Host α := fun h ↦
  let (answer, h) := (seatPart seat).run step h
  (answer, h.rouse)

end Host
end ChainSync
