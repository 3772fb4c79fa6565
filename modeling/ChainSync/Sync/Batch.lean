import ChainSync.Peer.Basic
import ChainSync.RecentSet

/-!
# Batches from peers

Headers and blocks arrive in batches that remember who sent them. A header batch is taken whole or
not at all: every header has to pass the rule for headers and to follow the one before it. Headers
and bodies are paired index by index, and one pair that does not fit spoils all.
-/

namespace ChainSync

/-- A point in time or a span, in milliseconds. -/
abbrev Millis := Nat

/-- Headers received from one peer. -/
structure HeaderBatch where
  /-- The sender. -/
  peer : PeerId
  /-- The sender's name. -/
  name : String
  /-- The headers in order. -/
  headers : List Header
  /-- When they arrived. -/
  receivedAt : Millis
  deriving DecidableEq, Repr

/-- Blocks received from one peer. -/
structure BlockBatch where
  /-- The sender. -/
  peer : PeerId
  /-- The sender's name. -/
  name : String
  /-- The blocks in order. -/
  blocks : List Block
  deriving DecidableEq, Repr

namespace BlockBatch

def firstNumber? (b : BlockBatch) : Option UInt64 := b.blocks.head?.map Block.number

def lastNumber? (b : BlockBatch) : Option UInt64 := b.blocks.getLast?.map Block.number

def size (b : BlockBatch) : Nat := b.blocks.length

end BlockBatch

namespace HeaderBatch

def size (b : HeaderBatch) : Nat := b.headers.length

/-- Each header follows the one before it by number and by parent. -/
def isLinked : List Header → Except Fault Bool
  | first :: second :: rest => do
    let next ← checkedAdd first.number 1
    if second.number = next ∧ second.parent = first.hash then isLinked (second :: rest)
    else return false
  | _ => return true

/-- The headers of a batch that are still to be fetched. There is no answer for an empty batch, for
one with a header that `accepts` refuses, for one that is not linked, and for one of which every
header is imported. -/
def screen (accepts : Header → Bool) (imported : RecentSet Digest) (batch : HeaderBatch) :
    Except Fault (Option HeaderBatch) := do
  if batch.headers.isEmpty || !batch.headers.all accepts then
    return none
  if !(← isLinked batch.headers) then
    return none
  let headers := batch.headers.filter fun h ↦ !imported.contains h.hash
  return if headers.isEmpty then none else some { batch with headers }

/-- The blocks made of headers and bodies, index by index, if all of them fit. -/
def assembleAll : List Header → List Body → Option (List Block)
  | [], [] => some []
  | header :: headers, body :: bodies => do
    let block ← Block.assemble header body
    let rest ← assembleAll headers bodies
    return block :: rest
  | _, _ => none

/-- The block batch of a header batch and its bodies, if they fit and there are any. -/
def assemble (batch : HeaderBatch) (bodies : List Body) : Option BlockBatch :=
  match assembleAll batch.headers bodies with
  | some (block :: rest) => some ⟨batch.peer, batch.name, block :: rest⟩
  | _ => none

end HeaderBatch
end ChainSync
