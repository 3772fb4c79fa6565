import ChainSync.Chain.Outcome
import ChainSync.Peer.Basic

/-!
# Modes of synchronisation

For each peer a mode says how the next range of headers is chosen: on from the local best block,
backwards in search of a common ancestor, or forwards along a branch whose ancestor was found.
What became of the peer's blocks moves the mode.
-/

namespace ChainSync

/-- How the next range of headers is chosen for a peer. -/
inductive SyncMode where
  /-- The peer's chain is taken to extend the local one. -/
  | normal
  /-- A common ancestor is being looked for. -/
  | backward
  /-- A branch is followed upwards from a common ancestor. -/
  | forward
  deriving DecidableEq, Repr, Inhabited

/-- What became of a batch of a peer's blocks. -/
inductive ImportEvent where
  /-- Every block was imported before or is pruned. -/
  | emptyAfterFilter
  /-- The last block is stored, so the batch was passed over. -/
  | skippedKnown
  /-- The batch was handed to the chain. It is salvageable when it starts at most one above the
  best block. -/
  | connected (outcome : ImportOutcome) (salvageable : Bool)
  /-- A pending range was handed to the chain. -/
  | drained (outcome : ImportOutcome)
  deriving DecidableEq, Repr

namespace SyncMode

def text : SyncMode → String
  | normal => "normal"
  | backward => "backward"
  | forward => "forward"

def all : List SyncMode := [normal, backward, forward]

def ofText? (word : String) : Option SyncMode := all.find? fun m ↦ m.text = word

/-- The word tells modes apart. -/
@[simp] theorem ofText?_text (m : SyncMode) : ofText? m.text = some m := by
  cases m <;> decide

def next (mode : SyncMode) : ImportEvent → SyncMode
  | .emptyAfterFilter => normal
  | .skippedKnown => if mode = forward then forward else normal
  | .connected .noParent true => backward
  | .connected .noParent false | .connected .invalid _ => mode
  | .connected outcome _ =>
    match mode with
    | backward => forward
    | forward => if outcome.isBest then normal else forward
    | normal => normal
  | .drained (.imported true) => normal
  | .drained .exist | .drained (.imported false) =>
    if mode = backward then forward else mode
  | .drained .noParent | .drained .invalid => mode

end SyncMode

/-- The mode of every tracked peer. -/
structure ModeTable where
  /-- The modes. -/
  modes : Std.ExtTreeMap PeerId SyncMode

namespace ModeTable

def empty : ModeTable := ⟨∅⟩

/-- Tracks a peer; one that is tracked keeps its mode. -/
def track (t : ModeTable) (peer : PeerId) : ModeTable := ⟨t.modes.insertIfNew peer .normal⟩

def forget (t : ModeTable) (peer : PeerId) : ModeTable := ⟨t.modes.erase peer⟩

/-- The mode of a peer; one that is not tracked is in the normal mode. -/
def mode (t : ModeTable) (peer : PeerId) : SyncMode := t.modes[peer]?.getD .normal

/-- Moves the mode of a tracked peer and answers it. -/
def apply (t : ModeTable) (peer : PeerId) (event : ImportEvent) : Option SyncMode × ModeTable :=
  match t.modes[peer]? with
  | none => (none, t)
  | some mode => (some (mode.next event), ⟨t.modes.insert peer (mode.next event)⟩)

def count (t : ModeTable) (mode : SyncMode) : Nat :=
  (t.modes.toList.filter fun entry ↦ entry.2 = mode).length

end ModeTable
end ChainSync
