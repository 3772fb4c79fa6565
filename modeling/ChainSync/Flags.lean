import ChainSync.Json.Reader
import ChainSync.Settings.Field

/-!
# Command lines

A command line is read word by word. A flag stands alone; an option takes its value behind an
equals sign or from the next word. A value that came in a word of its own is looked at only when
the next option or flag was read, so that an unknown word after it is reported first.
-/

namespace ChainSync

/-- Why a command line is refused, or what it asks for instead of a run. -/
inductive FlagError where
  /-- A word is no flag or option, and no value either. -/
  | unknownArgument
  /-- A flag or option stands twice. -/
  | argumentConflict
  /-- A flag was given a value. -/
  | tooManyValues
  /-- An option has no value, or an empty one where that is not allowed. -/
  | invalidValue
  /-- A value cannot be read. -/
  | valueValidation
  /-- The usage is asked for. -/
  | displayHelp
  /-- The version is asked for. -/
  | displayVersion
  deriving DecidableEq, Repr

namespace FlagError

def text : FlagError → String
  | unknownArgument => "UnknownArgument"
  | argumentConflict => "ArgumentConflict"
  | tooManyValues => "TooManyValues"
  | invalidValue => "InvalidValue"
  | valueValidation => "ValueValidation"
  | displayHelp => "DisplayHelp"
  | displayVersion => "DisplayVersion"

/-- The exit code of a program that stops because of it. -/
def exitCode : FlagError → Nat
  | displayHelp | displayVersion => 0
  | _ => 2

end FlagError

/-- What a flag or option does. -/
inductive FlagAction (σ : Type) where
  /-- A flag that may stand once. -/
  | set (apply : σ → σ)
  /-- A flag that may be repeated. -/
  | count (apply : σ → σ)
  /-- An option that may stand once, and how its value is read. -/
  | value (read : String → Except FlagError (σ → σ))
  /-- Asks for the usage. -/
  | help
  /-- Asks for the version. -/
  | version

/-- A flag or option. -/
structure Flag (σ : Type) where
  /-- Its name behind two dashes. -/
  long : String
  /-- Its letter behind one dash. -/
  short : Option Char
  /-- What it does. -/
  action : FlagAction σ

namespace Flag

variable {σ : Type}

/-- The number that decimal digits write, of which there is one at least. -/
def digits? (cs : List Char) : Option Nat :=
  if !cs.isEmpty && cs.all Json.isDigit then some (Json.decimal cs) else none

/-- A number without a sign, or with a plus sign. -/
def nat? : List Char → Option Nat
  | '+' :: cs => digits? cs
  | cs => digits? cs

/-- A number of at most `limit`. -/
def number? (limit : Nat) (text : String) : Except FlagError UInt64 :=
  match nat? text.toList with
  | some n => if n ≤ limit then .ok (UInt64.ofNat n) else .error .valueValidation
  | none => .error .valueValidation

/-- A number of at most `limit`, where a zero may have a minus sign. -/
def smallNumber? (limit : Nat) (text : String) : Except FlagError UInt64 :=
  match text.toList with
  | '-' :: cs => if digits? cs = some 0 then .ok 0 else .error .valueValidation
  | _ => number? limit text

/-- The name of a field behind two dashes. -/
def nameOf (field : String) : String :=
  String.ofList (field.toList.map fun c ↦ if c = '_' then '-' else c)

/-- The flag or option that sets a field. Numbers below 256 are read as signed ones. -/
def ofField (f : Field σ) : Flag σ where
  long := nameOf f.name
  short := none
  action := match f.kind with
    | .number limit _ set =>
      .value fun text ↦
        (if limit < 256 then smallNumber? limit text else number? limit text).map set
    | .optionalNumber _ set => .value fun text ↦
      (number? Json.maxWord text).map fun n ↦ set (some n)
    | .flag _ set => .set (set true)
    | .optionalText _ set => .value fun text ↦
      if text.isEmpty then .error .invalidValue else .ok (set (some text))

/-- A flag of a part as a flag of the whole. -/
def lift {τ : Type} (part : Part τ σ) (f : Flag σ) : Flag τ where
  long := f.long
  short := f.short
  action := match f.action with
    | .set apply => .set fun t ↦ part.put (apply (part.get t)) t
    | .count apply => .count fun t ↦ part.put (apply (part.get t)) t
    | .value read => .value fun text ↦
      (read text).map fun apply t ↦ part.put (apply (part.get t)) t
    | .help => .help
    | .version => .version

def usage : Flag σ := ⟨"help", some 'h', .help⟩

def version : Flag σ := ⟨"version", some 'V', .version⟩

end Flag

/-- How far a command line was read. -/
structure FlagState (σ : Type) where
  /-- The settings so far. -/
  settings : σ
  /-- The names of what stands already and may not stand again. -/
  given : List String
  /-- The option that was read last and is not set yet, with the value it has so far. -/
  pending : Option (String × (String → Except FlagError (σ → σ)) × Option String)

namespace FlagState

variable {σ : Type}

/-- Notes that something stands now which may stand once only. -/
def give (s : FlagState σ) (name : String) : Except FlagError (FlagState σ) :=
  if s.given.contains name then .error .argumentConflict
  else .ok { s with given := name :: s.given }

def setOption (s : FlagState σ) (name : String) (read : String → Except FlagError (σ → σ))
    (value : String) : Except FlagError (FlagState σ) := do
  let s ← s.give name
  let set ← read value
  return { s with settings := set s.settings }

/-- Sets the option that was read last. -/
def resolve (s : FlagState σ) : Except FlagError (FlagState σ) :=
  match s.pending with
  | none => .ok s
  | some (_, _, none) => .error .invalidValue
  | some (name, read, some value) => { s with pending := none }.setOption name read value

/-- Takes a flag that has no value. -/
def takeFlag (s : FlagState σ) (f : Flag σ) : Except FlagError (FlagState σ) := do
  let s ← s.resolve
  match f.action with
  | .set apply =>
    let s ← s.give f.long
    return { s with settings := apply s.settings }
  | .count apply => return { s with settings := apply s.settings }
  | .value read => return { s with pending := some (f.long, read, none) }
  | .help => throw .displayHelp
  | .version => throw .displayVersion

/-- Takes the letters behind one dash. -/
def takeLetters (flags : List (Flag σ)) :
    List Char → FlagState σ → Except FlagError (FlagState σ)
  | [], s => .ok s
  | c :: rest, s =>
    match flags.find? fun f ↦ f.short = some c with
    | none => .error .unknownArgument
    | some f => do
      let s ← s.takeFlag f
      takeLetters flags rest s

/-- Takes a name behind two dashes, and the value behind an equals sign if there is one. -/
def takeName (flags : List (Flag σ)) (name : List Char) (value : Option (List Char))
    (s : FlagState σ) : Except FlagError (FlagState σ) :=
  match flags.find? fun f ↦ f.long = String.ofList name with
  | none => .error .unknownArgument
  | some f =>
    match value, f.action with
    | some value, .value read => do
      let s ← s.resolve
      s.setOption f.long read (String.ofList value)
    | some _, _ => .error .tooManyValues
    | none, _ => s.takeFlag f

/-- Takes a word that is not behind dashes: the value that is missing, if one is. -/
def takePlain (word : String) (s : FlagState σ) : Except FlagError (FlagState σ) :=
  match s.pending with
  | some (name, read, none) => .ok { s with pending := some (name, read, some word) }
  | _ => .error .unknownArgument

/-- The part before the first equals sign, and the part behind it if there is one. -/
def splitAtEquals (cs : List Char) : List Char × Option (List Char) :=
  match cs.dropWhile (· ≠ '=') with
  | [] => (cs, none)
  | _ :: value => (cs.takeWhile (· ≠ '='), some value)

/-- Takes the words of a command line. Nothing may follow two dashes that stand alone. -/
def takeAll (flags : List (Flag σ)) : List String → FlagState σ → Except FlagError (FlagState σ)
  | [], s => s.resolve
  | word :: rest, s =>
    match word.toList with
    | ['-', '-'] => if rest.isEmpty then s.resolve else .error .unknownArgument
    | '-' :: '-' :: cs => do
      let (name, value) := splitAtEquals cs
      let s ← s.takeName flags name value
      takeAll flags rest s
    | '-' :: c :: cs => do
      let s ← s.takeLetters flags (c :: cs)
      takeAll flags rest s
    | _ => do
      let s ← s.takePlain word
      takeAll flags rest s

end FlagState

/-- The settings that a command line makes of some defaults. -/
def parseFlags {σ : Type} (flags : List (Flag σ)) (defaults : σ) (words : List String) :
    Except FlagError σ :=
  (FlagState.takeAll flags words ⟨defaults, [], none⟩).map FlagState.settings

namespace Settings

def flags : List (Flag Settings) := fields.map Flag.ofField

end Settings

namespace LogSettings

/-- One step more verbose; there is an end to it. -/
def raiseVerbosity (s : LogSettings) : LogSettings :=
  { s with verbosity := if s.verbosity = 255 then 255 else s.verbosity + 1 }

def flags : List (Flag LogSettings) :=
  [⟨"verbose", some 'v', .count raiseVerbosity⟩,
    ⟨"log-json", none, .set fun s ↦ { s with logJson := true }⟩]

end LogSettings

/-- The settings of an engine and of its log. -/
structure CommandSettings where
  /-- The settings of the engine. -/
  engine : Settings := {}
  /-- The settings of the log. -/
  log : LogSettings := {}
  deriving DecidableEq, Repr

namespace CommandSettings

def enginePart : Part CommandSettings Settings := ⟨engine, fun engine c ↦ { c with engine }⟩

def logPart : Part CommandSettings LogSettings := ⟨log, fun log c ↦ { c with log }⟩

def flags : List (Flag CommandSettings) :=
  Settings.flags.map (Flag.lift enginePart) ++ LogSettings.flags.map (Flag.lift logPart)

/-- The settings that a command line stands for. -/
def ofWords (words : List String) : Except FlagError CommandSettings :=
  parseFlags (flags ++ [.usage, .version]) {} words

end CommandSettings
end ChainSync
