import ChainSync.Bytes.Hex

/-!
# JSON values and their compact text

A value keeps what its text said: members in order and with repetitions, numbers with what follows
their whole part.
-/

namespace ChainSync

/-- A number as it is written. -/
structure JsonNumber where
  /-- A minus sign is in front. -/
  isNegative : Bool
  /-- The whole part. -/
  whole : Nat
  /-- The fraction and the exponent as they are written. -/
  rest : List Char
  deriving DecidableEq, Repr

/-- A JSON value. -/
inductive Json where
  /-- The value `null`. -/
  | null
  /-- A truth value. -/
  | bool (b : Bool)
  /-- A number. -/
  | number (n : JsonNumber)
  /-- A string. -/
  | text (s : String)
  /-- An array. -/
  | array (items : List Json)
  /-- An object. -/
  | object (members : List (String × Json))
  deriving Repr

namespace Json

/-- A number that is whole and not negative. -/
def ofNat (n : Nat) : Json := number ⟨false, n, []⟩

def word (n : UInt64) : Json := ofNat n.toNat

/-- A value that may be missing. -/
def ofOption {α : Type} (f : α → Json) : Option α → Json
  | some a => f a
  | none => null

def ofList {α : Type} (f : α → Json) (as : List α) : Json := array (as.map f)

/-- A character inside a string. -/
def escape (c : Char) : List Char :=
  if c = '"' then ['\\', '"']
  else if c = '\\' then ['\\', '\\']
  else if c = '\n' then ['\\', 'n']
  else if c = '\r' then ['\\', 'r']
  else if c = '\t' then ['\\', 't']
  else if c.toNat = 8 then ['\\', 'b']
  else if c.toNat = 12 then ['\\', 'f']
  else if c.toNat < 32 then
    ['\\', 'u', '0', '0', Hex.digit (c.toNat / 16), Hex.digit (c.toNat % 16)]
  else [c]

/-- A string as text. -/
def quote (s : String) : String :=
  String.ofList ('"' :: s.toList.flatMap escape ++ ['"'])

def writeNumber (n : JsonNumber) : String :=
  (if n.isNegative then "-" else "") ++ toString n.whole ++ String.ofList n.rest

mutual

/-- A value as text without blanks. -/
def write : Json → String
  | null => "null"
  | bool true => "true"
  | bool false => "false"
  | number n => writeNumber n
  | text s => quote s
  | array items => "[" ++ writeItems items ++ "]"
  | object members => "\x7b" ++ writeMembers members ++ "\x7d"

/-- Items with commas between them. -/
def writeItems : List Json → String
  | [] => ""
  | [item] => write item
  | item :: rest => write item ++ "," ++ writeItems rest

/-- Members with commas between them. -/
def writeMembers : List (String × Json) → String
  | [] => ""
  | [(key, value)] => quote key ++ ":" ++ write value
  | (key, value) :: rest => quote key ++ ":" ++ write value ++ "," ++ writeMembers rest

end

end Json
end ChainSync
