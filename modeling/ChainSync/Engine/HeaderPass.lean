import ChainSync.Engine.Basic

/-!
# Passes of header requests

A pass first brings everything an engine keeps for each peer in line with the connected peers:
the modes, the counters and the schedule lose those that left and gain those that joined. Then the
schedule issues its requests, and each of them is sent and counted.
-/

namespace ChainSync
namespace Engine

/-- Loses the peers that left and gains those that joined. -/
def meetPeers (registry : Registry) (now : Millis) (e : Engine) : Engine :=
  let departed := e.requests.departed registry
  let joining := e.requests.joining registry
  let staying := departed.foldl ModeTable.forget e.modes
  let modes := joining.foldl (fun t entry ↦ t.track entry.1) staying
  let kept := (e.stats.retain fun peer ↦ registry.peers.contains peer).2
  { e with
    modes
    stats := joining.foldl (fun s entry ↦ s.notePeer entry.1 entry.2.name) kept
    requests := (e.requests.refresh registry now).pruneHeaders now }

end Engine

namespace Seat

/-- Sends requests for headers and counts them, in order. -/
def sendHeaderRequests (now : Millis) : List HeaderRequest → Step Seat Unit
  | [] => return
  | r :: rest => do
    onNode (Node.send r.peer (.requestHeaders r.first r.count))
    onStats fun s ↦ s.recordRequest r.peer .headers now
    sendHeaderRequests now rest

/-- A pass of header requests against a local best block and total difficulty. -/
def headerPass (now : Millis) (localBest : UInt64) (localTotal : Difficulty) :
    Step Seat (List HeaderRequest) := do
  let registry := (← get).node.registry
  onEngine (Engine.meetPeers registry now)
  let modes := (← get).engine.modes
  let requests ← requestsPart.run (RequestSchedule.issue registry modes now localBest localTotal)
  sendHeaderRequests now requests
  return requests

end Seat
end ChainSync
