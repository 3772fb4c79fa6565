/-!
# Sets that remember the latest insertions

A set holds a bounded number of keys. A key that is absent is added, and pushes out the oldest one
when the set is full; a key that is present stays where it is. Looking a key up changes nothing.
-/

namespace ChainSync

/-- The keys inserted last, up to a bound. -/
structure RecentSet (α : Type) where
  /-- The greatest number of keys. -/
  capacity : Nat
  /-- The keys, latest first. -/
  keys : List α

namespace RecentSet

variable {α : Type} [DecidableEq α]

/-- The empty set; it holds one key at least. -/
def empty (capacity : Nat) : RecentSet α := ⟨max capacity 1, []⟩

def contains (s : RecentSet α) (key : α) : Bool := s.keys.contains key

/-- Adds a key that is absent. -/
def insert (s : RecentSet α) (key : α) : RecentSet α :=
  if s.contains key then s else { s with keys := (key :: s.keys).take s.capacity }

def insertAll (s : RecentSet α) (keys : List α) : RecentSet α := keys.foldl insert s

/-- Adds a key and answers whether it was absent. -/
def checkInsert (s : RecentSet α) (key : α) : Bool × RecentSet α := (!s.contains key, s.insert key)

def size (s : RecentSet α) : Nat := s.keys.length

end RecentSet
end ChainSync
