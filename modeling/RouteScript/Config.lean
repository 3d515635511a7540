import RouteScript.Json.Reader
import RouteScript.Workspace.Disk

/-!
# Configuration

What a user may set, and how it is read from a JSON value or from a JSON text.  Every field is
optional.  A value is an object, whose fields are looked at in the order of their names, or an
array of the fields in the order of `Setting.all`.  A text is read from front to back, so the first
fault in it counts, be it one of JSON or one of the configuration.

* `ofJson`, `ofText`: the two readings.
* `load`: the configuration in a file.
-/

namespace RouteScript

/-- The settings of the analysis. -/
structure Config where
  /-- Where imported modules are looked up before the roots of the workspace. -/
  roots : List Path
  /-- How many files are read at a time. -/
  indexBatchSize : Nat
  /-- How long a document stays unchanged before its diagnostics are published, in milliseconds. -/
  debounceMs : Nat
  /-- The statistics that scripts may use; if there are none, they may use all. -/
  declaredStatistics : List String
  /-- The hash tables that are defined outside the scripts. -/
  declaredTables : List String
  /-- Names of directories that hold no scripts, besides `Disk.skipped`. -/
  excludedDirectories : List String
deriving DecidableEq, Repr

namespace Config

/-- The configuration of a user who sets nothing. -/
def default : Config := ⟨[], 50, 300, [], [], []⟩

/-- At least one file is read at a time. -/
def normalized (c : Config) : Config := { c with indexBatchSize := max 1 c.indexBatchSize }

/-- A field of the configuration. -/
inductive Setting where
  | roots
  | indexBatchSize
  | debounceMs
  | declaredStatistics
  | declaredTables
  | excludedDirectories
deriving DecidableEq, Repr

/-- What the reader looks for. -/
inductive Want where
  | config
  | list
  | path
  | word
  | size
  | time
deriving DecidableEq, Repr

/-- What the reader looks for, in messages. -/
def Want.label : Want → String
  | config => "struct Config"
  | list => "a sequence"
  | path => "path string"
  | word => "a string"
  | size => "usize"
  | time => "u64"

/-- Why something is no configuration. -/
inductive Cause where
  | wrongType (found : String) (want : Want)
  /-- The number `-n`. -/
  | negative (n : Nat) (want : Want)
  | tooLong (count : Nat)
  | duplicate (name : String)
  | json (cause : Json.Cause)
deriving DecidableEq, Repr

/-- The message for the user. -/
def Cause.message : Cause → String
  | wrongType found want => "invalid type: " ++ found ++ ", expected " ++ want.label
  | negative n want => "invalid value: integer `-" ++ toString n ++ "`, expected " ++ want.label
  | tooLong count =>
    "invalid length " ++ toString count ++ ", expected fewer elements in array"
  | duplicate name => "duplicate field `" ++ name ++ "`"
  | json cause => cause.message

namespace Setting

/-- The fields in the order of an array. -/
def all : List Setting :=
  [roots, indexBatchSize, debounceMs, declaredStatistics, declaredTables, excludedDirectories]

/-- The name of the field. -/
def name : Setting → String
  | roots => "roots"
  | indexBatchSize => "indexBatchSize"
  | debounceMs => "debounceMs"
  | declaredStatistics => "declaredStatistics"
  | declaredTables => "declaredHtables"
  | excludedDirectories => "excludedDirs"

/-- The field with a name. -/
def ofName? (name : String) : Option Setting := all.find? (·.name == name)

/-- What the field holds: a number, or a list of strings of some sort. -/
inductive Shape where
  | number (want : Want) (set : Nat → Config → Config)
  | strings (want : Want) (set : List String → Config → Config)

/-- The shape of each field. -/
def shape : Setting → Shape
  | roots => .strings .path fun l c => { c with roots := l.map Path.ofString }
  | indexBatchSize => .number .size fun n c => { c with indexBatchSize := n }
  | debounceMs => .number .time fun n c => { c with debounceMs := n }
  | declaredStatistics => .strings .word fun l c => { c with declaredStatistics := l }
  | declaredTables => .strings .word fun l c => { c with declaredTables := l }
  | excludedDirectories => .strings .word fun l c => { c with excludedDirectories := l }

end Setting

/-! ### From values -/

/-- A number that is wanted. -/
def numberOf (want : Want) : Json → Except Cause Nat
  | .number (.natural n) => .ok n
  | .number (.negative n) => .error (.negative n want)
  | v => .error (.wrongType v.describe want)

/-- A string that is wanted. -/
def stringOf (want : Want) : Json → Except Cause String
  | .string s => .ok s
  | v => .error (.wrongType v.describe want)

/-- The configuration with a field set to a value. -/
def set (c : Config) (s : Setting) (v : Json) : Except Cause Config :=
  match s.shape with
  | .number want set => return set (← numberOf want v) c
  | .strings want set =>
    match v with
    | .array items => return set (← items.mapM (stringOf want)) c
    | v => .error (.wrongType v.describe .list)

/-- The configuration with a field set, if there is one of that name. -/
def setNamed (c : Config) (field : String × Json) : Except Cause Config :=
  match Setting.ofName? field.1 with
  | some s => c.set s field.2
  | none => .ok c

/-- The configuration that a value describes. -/
def ofJson : Json → Except Cause Config
  | .object fields =>
    let sorted := fields.mergeSort fun a b => compare a.1 b.1 != .gt
    (sorted.foldlM setNamed default).map normalized
  | .array items => do
    let c ← (Setting.all.zip items).foldlM (fun c (s, v) => c.set s v) default
    if Setting.all.length < items.length then .error (.tooLong items.length)
    else .ok c.normalized
  | v => .error (.wrongType v.describe .config)

/-! ### From texts -/

/-- What is wrong with a text and the offset up to which it was read. -/
structure Fault where
  cause : Cause
  offset : Nat
deriving DecidableEq, Repr

open Json (Stream)

/-- A fault of JSON. -/
def Fault.ofJson (f : Json.Fault) : Fault := ⟨.json f.cause, f.offset⟩

/-- A step of reading JSON. -/
def reading {α : Type} (step : Except Json.Fault α) : Except Fault α := step.mapError .ofJson

/-- A value without parts, taken by `take`, and the stream behind it. -/
def scalar {α : Type} (want : Want) (take : Json → Except Cause α) (s : Stream) :
    Except Fault (α × Stream) :=
  match s with
  | .next ⟨.openList, span⟩ _ => .error ⟨.wrongType (Json.array []).describe want, span.start⟩
  | .next ⟨.openObject, span⟩ _ => .error ⟨.wrongType (Json.object []).describe want, span.start⟩
  | .next token rest => do
    match ← reading token.scalar? with
    | none => .error (.ofJson s.noValue)
    | some v =>
      match take v with
      | .ok a => .ok (a, rest)
      | .error cause => .error ⟨cause, token.span.stop⟩
  | s => .error (.ofJson s.noValue)

/-- A value that is not what is wanted. -/
def mismatch (want : Want) (s : Stream) : Fault :=
  let refuse (v : Json) : Except Cause Unit := .error (.wrongType v.describe want)
  match scalar want refuse s with
  | .error fault => fault
  | .ok _ => .ofJson s.noValue

/-- The strings of a list from here on, and the stream behind it.  Every step takes a token. -/
def strings (want : Want) : (steps : Nat) → (isFirst : Bool) → Stream →
    Except Fault (List String × Stream)
  | 0, _, s => .error (.ofJson s.noValue)
  | steps + 1, isFirst, s => do
    let (more, s) ← reading (s.nextItem isFirst)
    if more then
      let (v, s) ← scalar want (stringOf want) s
      let (vs, s) ← strings want steps false s
      return (v :: vs, s)
    else return ([], s)

/-- The configuration with a field set to the value that comes next. -/
def readSetting (c : Config) (setting : Setting) (s : Stream) : Except Fault (Config × Stream) :=
  match setting.shape with
  | .number want set => do
    let (n, s) ← scalar want (numberOf want) s
    return (set n c, s)
  | .strings want set => do
    match s with
    | .next ⟨.openList, _⟩ rest =>
      let (l, s) ← strings want (s.size + 1) true rest
      return (set l c, s)
    | s => .error (mismatch .list s)

/-- The offset up to which a text has been read when a field is found twice. -/
def duplicateOffset : Stream → Nat
  | .next ⟨.closeObject, span⟩ _ => span.stop
  | s => s.start

/-- The fields of an object from here on; `seen` are those already set. -/
def readFields : (steps : Nat) → (isFirst : Bool) → (seen : List Setting) → Config → Stream →
    Except Fault (Config × Stream)
  | 0, _, _, _, s => .error (.ofJson s.noValue)
  | steps + 1, isFirst, seen, c, s => do
    match ← reading (s.nextKey isFirst) with
    | (none, s) => return (c, s)
    | (some name, s) =>
      match Setting.ofName? name with
      | none => readFields steps false seen c (← reading (Json.skim (← reading s.colon)))
      | some setting =>
        if seen.contains setting then .error ⟨.duplicate name, duplicateOffset s⟩
        let (c, s) ← c.readSetting setting (← reading s.colon)
        readFields steps false (setting :: seen) c s

/-- The stream behind an array that has all its items. -/
def closeItems : Stream → Except Fault Stream
  | .next ⟨.closeList, _⟩ rest => .ok rest
  | .next ⟨.comma, _⟩ (.next ⟨.closeList, span⟩ _) => .error ⟨.json .trailingComma, span.start + 1⟩
  | .next ⟨.comma, _⟩ (.stop .done offset) => .error ⟨.json .trailingCharacters, offset⟩
  | .next ⟨.comma, _⟩ rest => .error ⟨.json .trailingCharacters, rest.start + 1⟩
  | s => .error (.ofJson (s.unexpected .trailingCharacters .endInList))

/-- The fields of an array from here on. -/
def readItems : (isFirst : Bool) → List Setting → Config → Stream →
    Except Fault (Config × Stream)
  | _, [], c, s => do return (c, ← closeItems s)
  | isFirst, setting :: settings, c, s => do
    let (more, s) ← reading (s.nextItem isFirst)
    if more then
      let (c, s) ← c.readSetting setting s
      readItems false settings c s
    else return (c, s)

/-- A configuration and the stream behind it. -/
def read (s : Stream) : Except Fault (Config × Stream) :=
  match s with
  | .next ⟨.openObject, _⟩ rest => readFields (s.size + 1) true [] default rest
  | .next ⟨.openList, _⟩ rest => readItems true Setting.all default rest
  | s => .error (mismatch .config s)

/-- The configuration that a text describes. -/
def ofText (t : Text) : Except Fault Config := do
  let (c, rest) ← read (Stream.ofText t)
  reading rest.finish
  return c.normalized

/-! ### From files -/

/-- Why there is no configuration. -/
inductive LoadError where
  | unreadable (path : Path) (error : DiskError)
  | invalid (cause : Cause)
  /-- A fault in a text, up to which there are that many lines and bytes of the last of them. -/
  | invalidText (cause : Cause) (line column : Nat)
deriving DecidableEq, Repr

/-- The fault in a text, by its place. -/
def LoadError.ofFault (t : Text) (f : Fault) : LoadError :=
  let before := t.takeBytes f.offset
  let lastLine := (before.reverse.takeWhile (· != '\n')).reverse
  .invalidText f.cause (before.count '\n' + 1) (f.offset - (before.bytes - Text.bytes lastLine))

/-- The message for the user. -/
def LoadError.message : LoadError → String
  | unreadable path error => "cannot read " ++ path.toString ++ ": " ++ error.message
  | invalid cause => "invalid configuration: " ++ cause.message
  | invalidText cause line column =>
    "invalid configuration: " ++ cause.message ++ " at line " ++ toString line ++ " column "
      ++ toString column

/-- The configuration in a file. -/
def load (d : Disk) (path : Path) : Except LoadError Config :=
  match d.readText path with
  | .error error => .error (.unreadable path error)
  | .ok text =>
    match ofText text with
    | .ok c => .ok c
    | .error fault => .error (.ofFault text fault)

end Config

end RouteScript
