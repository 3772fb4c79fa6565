import ChainSync.Json.Record
import ChainSync.Settings

/-!
# The fields of settings

Every setting is a named field that can be looked up and set. Reading settings from JSON, reading
them from a command line and writing them all go through this table, so a setting has one name and
one range.
-/

namespace ChainSync

/-- What a field holds: how it is looked up, and how it is set. -/
inductive FieldKind (σ : Type) where
  /-- A number of at most `limit`. -/
  | number (limit : Nat) (get : σ → UInt64) (set : UInt64 → σ → σ)
  /-- A 64-bit number that may be missing. -/
  | optionalNumber (get : σ → Option UInt64) (set : Option UInt64 → σ → σ)
  /-- A truth value. -/
  | flag (get : σ → Bool) (set : Bool → σ → σ)
  /-- A text that may be missing. -/
  | optionalText (get : σ → Option String) (set : Option String → σ → σ)

/-- A named setting. -/
structure Field (σ : Type) where
  /-- Its name, with underscores between the words. -/
  name : String
  /-- What it holds. -/
  kind : FieldKind σ

namespace Field

variable {σ : Type}

/-- A field that holds a 64-bit number. -/
def word (name : String) (get : σ → UInt64) (set : UInt64 → σ → σ) : Field σ :=
  ⟨name, .number Json.maxWord get set⟩

/-- How a JSON value sets a field. -/
def read (f : Field σ) (j : Json) : Option (σ → σ) :=
  match f.kind with
  | .number limit _ set => (j.toNat? limit).map fun n ↦ set (UInt64.ofNat n)
  | .optionalNumber _ set => (j.toNullable? Json.toWord?).map set
  | .flag _ set => j.toBool?.map set
  | .optionalText _ set => (j.toNullable? Json.toText?).map set

def write (f : Field σ) (s : σ) : Json :=
  match f.kind with
  | .number _ get _ => .word (get s)
  | .optionalNumber get _ => .ofOption .word (get s)
  | .flag get _ => .bool (get s)
  | .optionalText get _ => .ofOption .text (get s)

/-- Sets fields to JSON values in order; a missing value leaves its field as it is. -/
def readAll : List (Field σ) → List (Option Json) → σ → Option σ
  | f :: fields, some j :: values, s => do
    let set ← f.read j
    readAll fields values (set s)
  | _ :: fields, none :: values, s => readAll fields values s
  | _, _, s => some s

/-- Fields as a JSON object. -/
def writeAll (fields : List (Field σ)) (s : σ) : Json :=
  .object (fields.map fun f ↦ (f.name, f.write s))

end Field

namespace Settings

def fields : List (Field Settings) :=
  [.word "blocks_queue_max" blocksQueueMax fun n s ↦ { s with blocksQueueMax := n },
    .word "import_slack" importSlack fun n s ↦ { s with importSlack := n },
    .word "imported_cache_size" importedCacheSize fun n s ↦ { s with importedCacheSize := n },
    .word "propagation_cache_size" propagationCacheSize fun n s ↦
      { s with propagationCacheSize := n },
    .word "header_request_interval_ms" headerRequestInterval fun n s ↦
      { s with headerRequestInterval := n },
    .word "status_request_interval_ms" statusRequestInterval fun n s ↦
      { s with statusRequestInterval := n },
    .word "status_log_interval_ms" statusLogInterval fun n s ↦ { s with statusLogInterval := n },
    .word "header_expiry_secs" headerExpiry fun n s ↦ { s with headerExpiry := n },
    .word "shutdown_timeout_ms" shutdownTimeout fun n s ↦ { s with shutdownTimeout := n },
    .word "max_requests_per_second" maxRequestsPerSecond fun n s ↦
      { s with maxRequestsPerSecond := n },
    ⟨"fast_sync", .flag fastSync fun b s ↦ { s with fastSync := b }⟩,
    ⟨"sync_only_node", .flag syncOnlyNode fun b s ↦ { s with syncOnlyNode := b }⟩,
    ⟨"show_status", .flag showStatus fun b s ↦ { s with showStatus := b }⟩,
    ⟨"pending_dir", .optionalText pendingDir fun dir s ↦ { s with pendingDir := dir }⟩,
    ⟨"seed", .optionalNumber seed fun n s ↦ { s with seed := n }⟩]

/-- The settings that JSON stands for; a missing field has its default. -/
def ofJson? (j : Json) : Option Settings := do
  Field.readAll fields (← j.fields? (fields.map Field.name)) {}

def toJson (s : Settings) : Json := Field.writeAll fields s

def form : JsonForm Settings := ⟨.flatRecord (fields.map Field.name), ofJson?⟩

end Settings

namespace LogSettings

def fields : List (Field LogSettings) :=
  [⟨"verbosity", .number 255 (fun s ↦ s.verbosity.toUInt64) fun n s ↦
      { s with verbosity := n.toUInt8 }⟩,
    ⟨"log_json", .flag logJson fun b s ↦ { s with logJson := b }⟩]

/-- The settings of the log that JSON stands for; no field may be missing. -/
def ofJson? (j : Json) : Option LogSettings := do
  Field.readAll fields ((← j.allFields? (fields.map Field.name)).map some) {}

def toJson (s : LogSettings) : Json := Field.writeAll fields s

def form : JsonForm LogSettings := ⟨.flatRecord (fields.map Field.name), ofJson?⟩

end LogSettings
end ChainSync
