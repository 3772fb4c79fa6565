/-!
# What became of a block or a trie node

The answers a chain gives when it is handed one block, and when it is handed one trie node.
-/

namespace ChainSync

/-- What became of one block. -/
inductive ImportOutcome where
  /-- Its parent is not stored. -/
  | noParent
  /-- A block with its hash is already stored. -/
  | exist
  /-- It was stored, and is or is not the best block now. -/
  | imported (best : Bool)
  /-- It breaks a rule and was refused. -/
  | invalid
  deriving DecidableEq, Repr, Inhabited

namespace ImportOutcome

/-- The block is stored, now or from before. -/
def isStored : ImportOutcome → Bool
  | exist | imported _ => true
  | noParent | invalid => false

/-- The block was stored and is the best block. -/
def isBest : ImportOutcome → Bool
  | imported best => best
  | _ => false

def text : ImportOutcome → String
  | noParent => "no_parent"
  | exist => "exist"
  | imported true => "imported_best"
  | imported false => "imported_not_best"
  | invalid => "invalid"

def all : List ImportOutcome := [noParent, exist, imported true, imported false, invalid]

def ofText? (word : String) : Option ImportOutcome := all.find? fun o ↦ o.text = word

/-- The word tells outcomes apart. -/
@[simp] theorem ofText?_text (o : ImportOutcome) : ofText? o.text = some o := by
  rcases o with _ | _ | (_ | _) | _ <;> decide

end ImportOutcome

/-- What became of one trie node. -/
inductive TrieNodeOutcome where
  /-- It was stored. -/
  | imported
  /-- It was stored before with the same value. -/
  | known
  /-- Another value is stored under its key. -/
  | inconsistent
  /-- Its key is not the digest of its value. -/
  | invalidKey
  /-- Its value is empty. -/
  | invalidValue
  deriving DecidableEq, Repr, Inhabited

namespace TrieNodeOutcome

def isSuccess : TrieNodeOutcome → Bool
  | imported | known => true
  | inconsistent | invalidKey | invalidValue => false

def text : TrieNodeOutcome → String
  | imported => "imported"
  | known => "known"
  | inconsistent => "inconsistent"
  | invalidKey => "invalid_key"
  | invalidValue => "invalid_value"

def all : List TrieNodeOutcome := [imported, known, inconsistent, invalidKey, invalidValue]

def ofText? (word : String) : Option TrieNodeOutcome := all.find? fun o ↦ o.text = word

/-- The word tells outcomes apart. -/
@[simp] theorem ofText?_text (o : TrieNodeOutcome) : ofText? o.text = some o := by
  cases o <;> decide

end TrieNodeOutcome
end ChainSync
