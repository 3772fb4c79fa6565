import ChainSync.Block.Basic
import ChainSync.Chain.Basic
import ChainSync.Json.Record

/-!
# Blocks in JSON

Digests are read from 64 hexadecimal digits or from 32 numbers, and difficulties from numbers or
from text in one of four bases. Each is written in one way only. A type has a form, by which it is
read from text.
-/

namespace ChainSync

namespace Digest

def toJson (d : Digest) : Json := .text d.text

/-- The digest with these bytes, if there are 32. -/
def ofBytes? (bytes : Bytes) : Option Digest :=
  if bytes.length = 32 then some (ofBytes bytes) else none

def ofJson? : Json → Option Digest
  | .text s => Hex.toBytes? s >>= ofBytes?
  | .array items => do
    let numbers ← items.mapM (Json.toNat? 255)
    ofBytes? (numbers.map UInt8.ofNat)
  | _ => none

/-- What is read for a digest. -/
def shape : Json.Shape := .bytes 32

end Digest

namespace Difficulty

/-- The value of a digit of either case in bases up to 36. -/
def digit? (c : Char) : Option Nat :=
  if '0' ≤ c ∧ c ≤ '9' then some (c.toNat - '0'.toNat)
  else if 'a' ≤ c ∧ c ≤ 'z' then some (c.toNat - 'a'.toNat + 10)
  else if 'A' ≤ c ∧ c ≤ 'Z' then some (c.toNat - 'A'.toNat + 10)
  else none

/-- The number that digits write in a base; underscores between them count for nothing. -/
def ofDigits? (base : Nat) (digits : List Char) : Option Nat :=
  (digits.filter (· ≠ '_')).foldlM
    (fun n c ↦ do
      let d ← digit? c
      if d < base then some (base * n + d) else none)
    0

/-- The number that a text writes in the base that its first two characters name. -/
def natOfText? (text : String) : Option Nat :=
  match text.toList with
  | '0' :: 'x' :: digits | '0' :: 'X' :: digits => ofDigits? 16 digits
  | '0' :: 'o' :: digits | '0' :: 'O' :: digits => ofDigits? 8 digits
  | '0' :: 'b' :: digits | '0' :: 'B' :: digits => ofDigits? 2 digits
  | digits => ofDigits? 10 digits

/-- The difficulty with a number, if it has 256 bits at most. -/
def ofNat? (n : Nat) : Option Difficulty :=
  let d : Difficulty := BitVec.ofNat 256 n
  if d.toNat = n then some d else none

def toJson (d : Difficulty) : Json := .text (Hex.ofNat d.toNat)

def ofJson? : Json → Option Difficulty
  | .text s => natOfText? s >>= ofNat?
  | j => j.toNat? Json.maxWord >>= ofNat?

end Difficulty

namespace Header

def fieldNames : List String :=
  ["number", "parent_hash", "hash", "difficulty", "timestamp", "transactions_root", "state_root"]

def toJson (h : Header) : Json :=
  .object (fieldNames.zip
    [.word h.number, h.parent.toJson, h.hash.toJson, Difficulty.toJson h.difficulty,
      .word h.timestamp, h.transactionsRoot.toJson, h.stateRoot.toJson])

def ofJson? (j : Json) : Option Header := do
  match ← j.allFields? fieldNames with
  | [number, parent, hash, difficulty, timestamp, transactionsRoot, stateRoot] =>
    return {
      number := ← number.toWord?
      parent := ← Digest.ofJson? parent
      hash := ← Digest.ofJson? hash
      difficulty := ← Difficulty.ofJson? difficulty
      timestamp := ← timestamp.toWord?
      transactionsRoot := ← Digest.ofJson? transactionsRoot
      stateRoot := ← Digest.ofJson? stateRoot }
  | _ => none

def form : JsonForm Header where
  shape := .record (fieldNames.zip
    [.scalar, Digest.shape, Digest.shape, .scalar, .scalar, Digest.shape, Digest.shape])
  ofJson?

end Header

namespace Body

def toJson (b : Body) : Json :=
  .object [("transactions", .ofList Digest.toJson b.transactions)]

def ofJson? (j : Json) : Option Body := do
  match ← j.allFields? ["transactions"] with
  | [transactions] => return ⟨← transactions.toList? Digest.ofJson?⟩
  | _ => none

def form : JsonForm Body where
  shape := .record [("transactions", .list Digest.shape)]
  ofJson?

end Body

namespace Block

def toJson (b : Block) : Json :=
  .object [("header", b.header.toJson), ("body", b.body.toJson)]

def ofJson? (j : Json) : Option Block := do
  match ← j.allFields? ["header", "body"] with
  | [header, body] => return ⟨← Header.ofJson? header, ← Body.ofJson? body⟩
  | _ => none

def form : JsonForm Block where
  shape := .record [("header", Header.form.shape), ("body", Body.form.shape)]
  ofJson?

end Block

namespace BlockId

def toJson (i : BlockId) : Json := .object [("hash", i.hash.toJson), ("number", .word i.number)]

def ofJson? (j : Json) : Option BlockId := do
  match ← j.allFields? ["hash", "number"] with
  | [hash, number] => return ⟨← Digest.ofJson? hash, ← number.toWord?⟩
  | _ => none

def form : JsonForm BlockId where
  shape := .record [("hash", Digest.shape), ("number", .scalar)]
  ofJson?

end BlockId

namespace BlockRef

/-- A reference as JSON: an object with the variant as its only member. -/
def toJson : BlockRef → Json
  | hash d => .object [("Hash", d.toJson)]
  | number n => .object [("Number", .word n)]

/-- The reference that JSON stands for. -/
def ofJson? : Json → Option BlockRef
  | .object [("Hash", j)] => (Digest.ofJson? j).map hash
  | .object [("Number", j)] => j.toWord?.map number
  | _ => none

def form : JsonForm BlockRef where
  shape := .choice [("Hash", Digest.shape), ("Number", .scalar)]
  ofJson?

end BlockRef

namespace Trie

/-- The tries in the order of their variants. -/
def all : List Trie := [state, storage, details]

def text : Trie → String
  | state => "state"
  | storage => "storage"
  | details => "details"

def ofText? (word : String) : Option Trie := all.find? fun t ↦ t.text = word

def toJson (t : Trie) : Json := .text t.text

/-- The trie that JSON stands for: its word, or an object with the word as its only member. -/
def ofJson? : Json → Option Trie
  | .text word => ofText? word
  | .object [(word, .null)] => ofText? word
  | _ => none

def form : JsonForm Trie where
  shape := .choice (all.map fun t ↦ (t.text, .scalar))
  ofJson?

/-- A trie as bytes: the number of its variant. -/
def toBytes : Trie → Bytes
  | state => Bytes.ofNatLE 4 0
  | storage => Bytes.ofNatLE 4 1
  | details => Bytes.ofNatLE 4 2

end Trie
end ChainSync
