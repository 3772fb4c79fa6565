import ChainSync.Json.Basic

/-!
# The smallest parts of JSON text

Words, numbers and strings. Each reader takes its part off the front of the text. One that cannot
read on says where it stopped: some readers go on behind what another one could not read.
-/

namespace ChainSync

/-- Where reading stopped: the text behind that place, unless the place is the end of the text or
inside a character. -/
abbrev Json.Stop := Option (List Char)

namespace Json

/-- Stops in front of a text. -/
def stopAt {α : Type} (cs : List Char) : Except Stop α := .error (some cs)

/-- Stops behind so many bytes of a text. -/
def stopBehind {α : Type} : Nat → List Char → Except Stop α
  | 0, cs => stopAt cs
  | _, [] => .error none
  | count, c :: rest =>
    if c.utf8Size ≤ count then stopBehind (count - c.utf8Size) rest else .error none

/-- The text behind what was read, or behind the place where reading stopped. -/
def behind {α : Type} : Except Stop (α × List Char) → Option (List Char)
  | .ok (_, rest) => some rest
  | .error stop => stop

/-- The characters that may stand between the parts of a value. -/
def isBlank (c : Char) : Bool := c = ' ' || c = '\n' || c = '\r' || c = '\t'

def skipBlanks (cs : List Char) : List Char := cs.dropWhile isBlank

def takeWord : List Char → List Char → Except Stop (Unit × List Char)
  | [], cs => .ok ((), cs)
  | _, [] => .error none
  | letter :: letters, c :: rest =>
    if c = letter then takeWord letters rest else stopBehind 1 (c :: rest)

/-! ## Numbers -/

def isDigit (c : Char) : Bool := '0' ≤ c && c ≤ '9'

/-- The number that decimal digits write. -/
def decimal (digits : List Char) : Nat :=
  digits.foldl (fun n c ↦ 10 * n + (c.toNat - '0'.toNat)) 0

/-- Takes a whole part: zero, or digits that do not start with zero. -/
def takeWhole : List Char → Except Stop (Nat × List Char)
  | [] => .error none
  | c :: rest =>
    if c = '0' then if rest.head?.any isDigit then stopAt rest else .ok (0, rest)
    else if isDigit c then
      .ok (decimal (c :: rest.takeWhile isDigit), rest.dropWhile isDigit)
    else stopBehind 1 (c :: rest)

/-- Takes a fraction, if there is one. -/
def takeFraction : List Char → Except Stop (List Char × List Char)
  | '.' :: rest =>
    match rest.takeWhile isDigit with
    | [] => stopAt rest
    | digits => .ok ('.' :: digits, rest.dropWhile isDigit)
  | cs => .ok ([], cs)

/-- Takes the sign of an exponent, if there is one. -/
def takeSign : List Char → List Char × List Char
  | c :: rest => if c = '+' || c = '-' then ([c], rest) else ([], c :: rest)
  | [] => ([], [])

/-- The greatest exponent that a number may have unless it is zero. -/
def exponentLimit : Nat := 0x7fffffff

/-- Drops digits up to the first one with which they write a number that is too great for an
exponent. -/
def dropExponent : Nat → List Char → List Char
  | _, [] => []
  | n, c :: rest =>
    let n := 10 * n + (c.toNat - '0'.toNat)
    if exponentLimit < n then rest else dropExponent n rest

/-- Takes an exponent, if there is one. One that is limited stops where it gets too great. -/
def takeExponent (isLimited : Bool) : List Char → Except Stop (List Char × List Char)
  | [] => .ok ([], [])
  | c :: rest =>
    if c = 'e' || c = 'E' then
      let (sign, rest) := takeSign rest
      match rest.takeWhile isDigit with
      | [] => stopBehind 1 rest
      | digits =>
        if isLimited && sign ≠ ['-'] && exponentLimit < decimal digits then
          stopAt (dropExponent 0 rest)
        else .ok (c :: sign ++ digits, rest.dropWhile isDigit)
    else .ok ([], c :: rest)

def takeNumber (cs : List Char) : Except Stop (JsonNumber × List Char) := do
  let (isNegative, cs) := match cs with
    | '-' :: rest => (true, rest)
    | _ => (false, cs)
  let (whole, cs) ← takeWhole cs
  let (fraction, cs) ← takeFraction cs
  let isLimited := whole ≠ 0 || fraction.any fun c ↦ isDigit c && c ≠ '0'
  let (exponent, cs) ← takeExponent isLimited cs
  return (⟨isNegative, whole, fraction ++ exponent⟩, cs)

/-- Skips a number, whatever its exponent. -/
def skipNumber (cs : List Char) : Except Stop (Unit × List Char) := do
  let cs := match cs with
    | '-' :: rest => rest
    | _ => cs
  let (_, cs) ← takeWhole cs
  let (_, cs) ← takeFraction cs
  let (_, cs) ← takeExponent false cs
  return ((), cs)

/-! ## Strings -/

def takeUnit (cs : List Char) : Except Stop (Nat × List Char) :=
  match (cs.take 4).mapM Hex.value? with
  | some [a, b, c, d] => .ok (((16 * a + b) * 16 + c) * 16 + d, cs.drop 4)
  | _ => stopBehind 4 cs

/-- The first half of a surrogate pair. -/
def isHighSurrogate (unit : Nat) : Bool := 0xD800 ≤ unit && unit < 0xDC00

/-- The second half of a surrogate pair. -/
def isLowSurrogate (unit : Nat) : Bool := 0xDC00 ≤ unit && unit < 0xE000

/-- Takes what follows `\u`. Half of a surrogate pair stands for no character. -/
def takeUnicode (cs : List Char) : Except Stop (Char × List Char) := do
  let (unit, rest) ← takeUnit cs
  if isLowSurrogate unit then
    stopAt rest
  else if isHighSurrogate unit then
    match rest with
    | '\\' :: 'u' :: rest =>
      let (second, rest) ← takeUnit rest
      if isLowSurrogate second then
        return (Char.ofNat (0x10000 + (unit - 0xD800) * 0x400 + (second - 0xDC00)), rest)
      else stopAt rest
    | '\\' :: rest => stopBehind 1 rest
    | rest => stopBehind 1 rest
  else
    return (Char.ofNat unit, rest)

/-- The character that a letter stands for behind a backslash. -/
def escaped? (c : Char) : Option Char :=
  if c = '"' || c = '\\' || c = '/' then some c
  else if c = 'b' then some (Char.ofNat 8)
  else if c = 'f' then some (Char.ofNat 12)
  else if c = 'n' then some '\n'
  else if c = 'r' then some '\r'
  else if c = 't' then some '\t'
  else none

/-- Takes what follows a backslash. -/
def takeEscape : List Char → Except Stop (Char × List Char)
  | 'u' :: rest => takeUnicode rest
  | [] => .error none
  | c :: rest =>
    match escaped? c with
    | some char => .ok (char, rest)
    | none => stopBehind 1 (c :: rest)

/-- Takes the rest of a string, its opening quote being read. The fuel bounds the length of the
text. -/
def takeString : Nat → List Char → Except Stop (List Char × List Char)
  | 0, _ | _, [] => .error none
  | fuel + 1, c :: rest => do
    if c = '"' then
      return ([], rest)
    if c.toNat < 32 then
      stopAt rest
    let (char, rest) ← if c = '\\' then takeEscape rest else pure (c, rest)
    let (tail, rest) ← takeString fuel rest
    return (char :: tail, rest)

/-- Skips the rest of a string, which may name halves of surrogate pairs. The fuel bounds the length
of the text. -/
def skipString : Nat → List Char → Except Stop (Unit × List Char)
  | 0, _ | _, [] => .error none
  | fuel + 1, c :: rest =>
    if c = '"' then .ok ((), rest)
    else if c.toNat < 32 then stopAt rest
    else if c ≠ '\\' then skipString fuel rest
    else match rest with
      | 'u' :: rest => takeUnit rest >>= fun (_, rest) ↦ skipString fuel rest
      | rest => takeEscape rest >>= fun (_, rest) ↦ skipString fuel rest

end Json
end ChainSync
