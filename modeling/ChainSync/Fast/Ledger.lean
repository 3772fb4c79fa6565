import ChainSync.Chain.Basic

/-!
# The ledger of trie nodes

For each trie the ledger holds the nodes imported with their values, and the keys still wanted. A
node that arrives settles its key and wants what it refers to, unless that is imported already.
-/

namespace ChainSync

/-- The nodes of one trie. -/
structure TrieLedger where
  /-- The values of imported nodes. -/
  imported : Std.ExtTreeMap Digest Bytes
  /-- How many nodes were recorded as imported. -/
  importedCount : Nat
  /-- The keys still wanted. -/
  outstanding : Std.ExtTreeSet Digest

namespace TrieLedger

def empty : TrieLedger := ⟨∅, 0, ∅⟩

/-- The node is imported with exactly this value. -/
def containsExact (l : TrieLedger) (key : Digest) (value : Bytes) : Bool :=
  l.imported[key]? = some value

/-- Records an imported node; it counts when none was recorded under its key. -/
def addImported (l : TrieLedger) (key : Digest) (value : Bytes) : TrieLedger :=
  { l with
    imported := l.imported.insert key value
    importedCount := if l.imported.contains key then l.importedCount else l.importedCount + 1 }

/-- Wants a key unless its node is imported. -/
def want (l : TrieLedger) (key : Digest) : TrieLedger :=
  if l.imported.contains key then l else { l with outstanding := l.outstanding.insert key }

def settle (l : TrieLedger) (key : Digest) : TrieLedger :=
  { l with outstanding := l.outstanding.erase key }

/-- Settles a key and wants the keys that its node refers to. -/
def update (l : TrieLedger) (key : Digest) (references : List Digest) : TrieLedger :=
  references.foldl want (l.settle key)

/-- Nothing is wanted, and if `required`, some node is imported. -/
def isComplete (l : TrieLedger) (required : Bool) : Bool :=
  l.outstanding.isEmpty && (!required || 0 < l.importedCount)

end TrieLedger
end ChainSync
