import ChainSync.Json.Reader

/-!
# Records in JSON

A record is an object, in which unknown members are ignored and known ones stand once, or an array
of its fields in order. Numbers are plain: neither signed nor with a fraction or exponent.
-/

namespace ChainSync
namespace Json

/-- A plain number of at most `limit`. -/
def toNat? (limit : Nat) : Json → Option Nat
  | number ⟨false, n, []⟩ => if n ≤ limit then some n else none
  | _ => none

/-- The greatest 64-bit number. -/
def maxWord : Nat := UInt64.size - 1

/-- A plain 64-bit number. -/
def toWord? (j : Json) : Option UInt64 := (j.toNat? maxWord).map UInt64.ofNat

def toBool? : Json → Option Bool
  | bool b => some b
  | _ => none

def toText? : Json → Option String
  | text s => some s
  | _ => none

/-- A value that may be `null`. -/
def toNullable? {α : Type} (read : Json → Option α) : Json → Option (Option α)
  | null => some none
  | j => (read j).map some

def toList? {α : Type} (read : Json → Option α) : Json → Option (List α)
  | array items => items.mapM read
  | _ => none

/-- The value of a member that may be missing and does not stand twice. -/
def member? (members : List (String × Json)) (name : String) : Option (Option Json) :=
  match members.filter fun m ↦ m.1 = name with
  | [] => some none
  | [m] => some (some m.2)
  | _ => none

/-- The values of the fields of a record that has them in the order of `names`; some of them may
be missing. -/
def fields? (names : List String) : Json → Option (List (Option Json))
  | object members => names.mapM (member? members)
  | array items =>
    if items.length ≤ names.length then
      some (items.map some ++ List.replicate (names.length - items.length) none)
    else none
  | _ => none

/-- The values of the fields of a record, none of which is missing. -/
def allFields? (names : List String) (j : Json) : Option (List Json) := do
  (← j.fields? names).mapM id

/-- The shape of a record whose fields are scalars. -/
def Shape.flatRecord (names : List String) : Shape := .record (names.map fun name ↦ (name, .scalar))

end Json

/-- How values of a type are written in JSON: what is read for them, and what it stands for. -/
structure JsonForm (α : Type) where
  /-- What is read. -/
  shape : Json.Shape
  /-- What it stands for. -/
  ofJson? : Json → Option α

namespace JsonForm

def parse? {α : Type} (form : JsonForm α) (text : String) : Option α :=
  (Json.parse? form.shape text).bind form.ofJson?

end JsonForm
end ChainSync
