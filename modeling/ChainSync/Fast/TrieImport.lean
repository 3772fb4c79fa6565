import ChainSync.Engine.Basic

/-!
# Importing trie nodes

An answer brings one trie node, the keys it refers to, and the values of some of those. The node
is imported first, and only if that succeeds are its references wanted and the values it brought
imported. A node that is recorded with the same value is passed over.
-/

namespace ChainSync
namespace TrieReport

def zero : TrieReport := ⟨0, 0, 0⟩

end TrieReport

namespace Seat

/-- Hands a node to the chain. -/
def storeTrieNode (key : Digest) (value : Bytes) (trie : Trie) :
    Step Seat (Except ChainError TrieNodeOutcome) :=
  Step.update fun s ↦
    let (answer, chain) := s.node.chain.importTrieNode key value trie
    (answer, { s with node := { s.node with chain } })

/-- Imports one node. It answers whether the node is there now, and the report with it. -/
def importNode (peer : PeerId) (name : String) (key : Digest) (value : Bytes) (trie : Trie)
    (report : TrieReport) : Step Seat (Bool × TrieReport) := do
  if ((← get).engine.fast.ledger.get trie).containsExact key value then
    return (true, { report with skipped := report.skipped + 1 })
  match ← storeTrieNode key value trie with
  | .ok outcome =>
    if outcome.isSuccess then
      onFast fun f ↦ f.editLedger trie fun l ↦ l.addImported key value
      return (true, { report with imported := report.imported + 1 })
    else
      onFast fun f ↦ f.handleFailure key trie peer name (.rejected outcome)
      return (false, { report with failed := report.failed + 1 })
  | .error e =>
    onNode (Node.reportChainError e)
    onFast fun f ↦ f.handleFailure key trie peer name (.error e.message)
    return (false, { report with failed := report.failed + 1 })

/-- Imports the values that came with references, each in its turn. -/
def importReferences (peer : PeerId) (name : String) (trie : Trie) :
    List (Digest × Bytes) → TrieReport → Step Seat TrieReport
  | [], report => return report
  | (key, value) :: rest, report => do
    if value.isEmpty then
      importReferences peer name trie rest report
    else
      let (present, report) ← importNode peer name key value trie report
      if present then
        onFast fun f ↦ f.editLedger trie fun l ↦ l.settle key
      importReferences peer name trie rest report

/-- Imports the node of an answer and what came with it. -/
def importTrie (job : TrieJob) : Step Seat TrieReport := do
  let r := job.response
  let (present, report) ← importNode job.peer job.name r.key r.value r.trie .zero
  if present then
    onFast fun f ↦ f.editLedger r.trie fun l ↦ l.update r.key (r.references.map Prod.fst)
    importReferences job.peer job.name r.trie r.references report
  else
    return report

end Seat
end ChainSync
