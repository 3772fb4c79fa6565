import ChainSync.Json.Token

/-!
# Reading JSON

The reader is strict: blanks are spaces, tabs and line ends only; there are no comments, no
trailing commas and no leading zeros; control characters do not stand in strings; and nothing but
blanks follows the value. A value is read for something, its shape, and what its shape has no use
for is skipped.
-/

namespace ChainSync
namespace Json

/-- What a value is read for. In place of any shape a scalar is read too. -/
inductive Shape where
  /-- A scalar. -/
  | scalar
  /-- An array of so many bytes. -/
  | bytes (count : Nat)
  /-- An array of values of one shape. -/
  | list (item : Shape)
  /-- An object with these members and others, or an array of them in order. -/
  | record (fields : List (String × Shape))
  /-- An object with one of these members and no other. -/
  | choice (variants : List (String × Shape))

namespace Shape

/-- The shape of the items of an array, in order, and the shape of all that come after them. -/
def items : Shape → List Shape × Option Shape
  | list item => ([], some item)
  | record fields => (fields.map Prod.snd, none)
  | scalar | bytes _ | choice _ => ([], none)

end Shape

/-! ## Values that nothing is read from

The fuel of a reader of values is greater than the length of the text, so it is enough for any
string in it. -/

mutual

/-- Skips a value. The fuel bounds the parts of the text. -/
def skipValue : Nat → List Char → Except Stop (Unit × List Char)
  | 0, _ => .error none
  | fuel + 1, cs =>
    match skipBlanks cs with
    | '"' :: rest => skipString fuel rest
    | '[' :: rest =>
      match skipBlanks rest with
      | ']' :: rest => .ok ((), rest)
      | rest => skipItems fuel rest
    | '\x7b' :: rest =>
      match skipBlanks rest with
      | '\x7d' :: rest => .ok ((), rest)
      | rest => skipMembers fuel rest
    | 'n' :: rest => takeWord "ull".toList rest
    | 't' :: rest => takeWord "rue".toList rest
    | 'f' :: rest => takeWord "alse".toList rest
    | cs => skipNumber cs

/-- Skips items up to the closing bracket. -/
def skipItems : Nat → List Char → Except Stop (Unit × List Char)
  | 0, _ => .error none
  | fuel + 1, cs => do
    let (_, rest) ← skipValue fuel cs
    match skipBlanks rest with
    | ']' :: rest => return ((), rest)
    | ',' :: rest => skipItems fuel rest
    | _ => .error none

/-- Skips members up to the closing brace. -/
def skipMembers : Nat → List Char → Except Stop (Unit × List Char)
  | 0, _ => .error none
  | fuel + 1, cs =>
    match skipBlanks cs with
    | '"' :: rest => do
      let (_, rest) ← skipString fuel rest
      match skipBlanks rest with
      | ':' :: rest =>
        let (_, rest) ← skipValue fuel rest
        match skipBlanks rest with
        | '\x7d' :: rest => return ((), rest)
        | ',' :: rest => skipMembers fuel rest
        | _ => .error none
      | _ => .error none
    | _ => .error none

end

/-! ## Bytes -/

/-- Takes so many numbers with commas between them. -/
def takeNumbers : Nat → List Char → Except Stop (List Json × List Char)
  | 0, cs => .ok ([], cs)
  | count + 1, cs => do
    let (n, rest) ← takeNumber (skipBlanks cs)
    match count, skipBlanks rest with
    | 0, rest => return ([number n], rest)
    | count, ',' :: rest =>
      let (items, rest) ← takeNumbers count rest
      return (number n :: items, rest)
    | _, _ => .error none

def isByte (n : JsonNumber) : Bool := !n.isNegative && n.whole < 256 && n.rest.isEmpty

/-- The text behind the place where it turns out that an item is no byte. There is none for a byte.
An item that cannot be read is no byte either, and neither is one that is missing. -/
def behindNoByte (fuel : Nat) : List Char → Option (List Char)
  | '"' :: rest => behind (takeString fuel rest)
  | 'n' :: rest => behind (takeWord "ull".toList rest)
  | 't' :: rest => behind (takeWord "rue".toList rest)
  | 'f' :: rest => behind (takeWord "alse".toList rest)
  | [] => none
  | c :: rest =>
    if c = '-' || isDigit c then
      match takeNumber (c :: rest) with
      | .ok (n, rest) => if isByte n then none else some rest
      | .error rest => rest
    else some (c :: rest)

/-- Closes an array of bytes. In front of the bracket one more item may stand that is no byte; it is
not read any further than it takes to see that. -/
def closeBytes (fuel : Nat) (cs : List Char) : Option (List Char) := do
  let cs ← match skipBlanks cs with
    | ',' :: rest => behindNoByte fuel (skipBlanks rest)
    | cs => some cs
  match skipBlanks cs with
  | ']' :: rest => some rest
  | _ => none

/-- Takes the rest of an array of so many bytes, its opening bracket being read. -/
def takeBytes (fuel count : Nat) (cs : List Char) : Option (Json × List Char) := do
  let (items, rest) ← (takeNumbers count cs).toOption
  return (array items, ← closeBytes fuel rest)

/-! ## Values -/

def takeScalar (fuel : Nat) (cs : List Char) : Except Stop (Json × List Char) := do
  match cs with
  | '"' :: rest =>
    let (content, rest) ← takeString fuel rest
    return (text (String.ofList content), rest)
  | 'n' :: rest =>
    let (_, rest) ← takeWord "ull".toList rest
    return (null, rest)
  | 't' :: rest =>
    let (_, rest) ← takeWord "rue".toList rest
    return (bool true, rest)
  | 'f' :: rest =>
    let (_, rest) ← takeWord "alse".toList rest
    return (bool false, rest)
  | cs =>
    let (n, rest) ← takeNumber cs
    return (number n, rest)

/-- Takes a key and the colon behind it. -/
def takeKey (fuel : Nat) (cs : List Char) : Option (String × List Char) :=
  match skipBlanks cs with
  | '"' :: rest => do
    let (key, rest) ← (takeString fuel rest).toOption
    match skipBlanks rest with
    | ':' :: rest => return (String.ofList key, rest)
    | _ => none
  | _ => none

mutual

/-- Takes a value for a shape. The fuel bounds the parts of the text. -/
def takeValue : Nat → Shape → List Char → Option (Json × List Char)
  | 0, _, _ => none
  | fuel + 1, shape, cs =>
    match skipBlanks cs, shape with
    | '[' :: _, .scalar | '[' :: _, .choice _ => none
    | '[' :: rest, .bytes count => takeBytes fuel count rest
    | '[' :: rest, shape =>
      match skipBlanks rest with
      | ']' :: rest => some (array [], rest)
      | rest => do
        let (first, later) := shape.items
        let (items, rest) ← takeItems fuel first later rest
        return (array items, rest)
    | '\x7b' :: rest, .record fields =>
      match skipBlanks rest with
      | '\x7d' :: rest => some (object [], rest)
      | rest => do
        let (members, rest) ← takeMembers fuel fields rest
        return (object members, rest)
    | '\x7b' :: rest, .choice variants => do
      let (key, rest) ← takeKey fuel rest
      let (value, rest) ← takeValue fuel (← variants.lookup key) rest
      match skipBlanks rest with
      | '\x7d' :: rest => return (object [(key, value)], rest)
      | _ => none
    | '\x7b' :: _, _ => none
    | cs, _ => (takeScalar fuel cs).toOption

/-- Takes items up to the closing bracket: first those of the given shapes, then others of one
shape if there may be others. -/
def takeItems : Nat → List Shape → Option Shape → List Char → Option (List Json × List Char)
  | 0, _, _, _ => none
  | fuel + 1, first, later, cs => do
    let (item, rest) ← takeValue fuel (← first.head?.or later) cs
    match skipBlanks rest with
    | ']' :: rest => return ([item], rest)
    | ',' :: rest =>
      let (items, rest) ← takeItems fuel first.tail later rest
      return (item :: items, rest)
    | _ => none

/-- Takes members up to the closing brace. Those that are no fields are skipped. -/
def takeMembers : Nat → List (String × Shape) → List Char →
    Option (List (String × Json) × List Char)
  | 0, _, _ => none
  | fuel + 1, fields, cs => do
    let (key, rest) ← takeKey fuel cs
    let (member, rest) ← match fields.lookup key with
      | some shape => (takeValue fuel shape rest).map fun (value, rest) ↦ ([(key, value)], rest)
      | none => (skipValue fuel rest).toOption.map fun (_, rest) ↦ ([], rest)
    match skipBlanks rest with
    | '\x7d' :: rest => return (member, rest)
    | ',' :: rest =>
      let (members, rest) ← takeMembers fuel fields rest
      return (member ++ members, rest)
    | _ => none

end

/-- The value of a shape that a text is. Every part of it takes a character at least and is entered
twice. -/
def parse? (shape : Shape) (text : String) : Option Json := do
  let cs := text.toList
  let (value, rest) ← takeValue (2 * cs.length + 2) shape cs
  if (skipBlanks rest).isEmpty then some value else none

end Json
end ChainSync
