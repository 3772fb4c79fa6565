/-!
# Wake-up signals

A signal wakes one of the tasks that wait for it, the one that has waited longest. Raised while
nobody waits, it is kept for the next task that starts to wait; at most one is kept.
-/

namespace ChainSync

abbrev TaskId := Nat

/-- A wake-up signal. -/
structure Signal where
  /-- The tasks that wait, longest first. -/
  waiting : List TaskId
  /-- The tasks that were woken and have not gone on yet. -/
  woken : List TaskId
  /-- One wake-up is kept for the next wait. -/
  kept : Bool
  deriving DecidableEq, Repr

namespace Signal

/-- Nobody waits and nothing is kept. -/
def idle : Signal := ⟨[], [], false⟩

def raise (s : Signal) : Signal :=
  match s.waiting with
  | task :: rest => { s with waiting := rest, woken := s.woken ++ [task] }
  | [] => { s with kept := true }

/-- A task wants to wait. It goes on at once, with the wake-up that was kept, or waits. -/
def wait (task : TaskId) (s : Signal) : Bool × Signal :=
  if s.kept then (true, { s with kept := false })
  else (false, { s with waiting := s.waiting ++ [task] })

/-- A task goes on, whether or not it was woken; the answer says which. -/
def leave (task : TaskId) (s : Signal) : Bool × Signal :=
  (s.woken.contains task,
    { s with waiting := s.waiting.erase task, woken := s.woken.erase task })

/-- A task is given up; a wake-up it has not seen goes to the next one. -/
def forget (task : TaskId) (s : Signal) : Signal :=
  let (woken, s) := s.leave task
  if woken then s.raise else s

end Signal
end ChainSync
