import RouteScript.Report
import RouteScript.Script.Occurrence
import RouteScript.Session

/-!
# The command line

What the program does for its arguments, with the disk as a value: `check` reports the diagnostics
of scripts, `pvs` lists the pseudo-variables of one file.

* `Command.ofArguments?`: the command that the arguments ask for.
* `Command.run`: what it prints and how it ends.
-/

namespace RouteScript

variable [Python.Recovery]

/-- What the user asks for. -/
inductive Command where
  | check (config : Option Path) (paths : List Path)
  | list (file : Path)
  | help
deriving DecidableEq, Repr

/-- What the program prints and the status it ends with. -/
structure Result where
  status : Nat
  output : String
  /-- A message besides the output. -/
  error : Option String
deriving DecidableEq, Repr

namespace Command

/-! ### Arguments -/

/-- An option with a value. -/
inductive Flag where
  | config
  | logLevel
deriving DecidableEq, Repr

/-- The option as it is written. -/
def Flag.name : Flag → String
  | config => "--config"
  | logLevel => "--log-level"

/-- What the arguments hold, as far as they have been read. -/
structure Arguments where
  config : Option String
  logLevel : Option String
  positional : List String
deriving DecidableEq, Repr

namespace Arguments

/-- Nothing has been read. -/
def empty : Arguments := ⟨none, none, []⟩

/-- One more option; an option is given once. -/
def set? (a : Arguments) (flag : Flag) (value : String) : Option Arguments :=
  match flag with
  | .config => if a.config.isSome then none else some { a with config := some value }
  | .logLevel => if a.logLevel.isSome then none else some { a with logLevel := some value }

/-- One more argument that is not an option. -/
def push (a : Arguments) (value : String) : Arguments :=
  { a with positional := a.positional ++ [value] }

end Arguments

/-- The argument starts with a dash and is not just one. -/
def isDashed (s : String) : Bool := s.startsWith "-" && s != "-"

/-- The option that an argument names, and the value behind its equals sign. -/
def flagOf? (flags : List Flag) (s : String) : Option (Flag × Option String) :=
  let name := s.toList.takeWhile (· != '=')
  let value := (s.toList.drop name.length).tail?.map String.ofList
  (flags.find? (·.name.toList == name)).map fun flag => (flag, value)

/-- The arguments of a command with the given options.  Behind two dashes there are no more
options. -/
def readArguments (flags : List Flag) : Arguments → List String → Option Arguments
  | a, [] => some a
  | a, s :: rest =>
    if s = "--" then some (rest.foldl .push a)
    else if !isDashed s then readArguments flags (a.push s) rest
    else match flagOf? flags s, rest with
      | some (flag, some value), rest => do readArguments flags (← a.set? flag value) rest
      | some (flag, none), value :: rest =>
        if isDashed value then none else do readArguments flags (← a.set? flag value) rest
      | _, _ => none

/-- A path is not empty. -/
def pathOf? (s : String) : Option Path := if s.isEmpty then none else some (.ofString s)

/-- The command with the given name. -/
def ofName? (name : String) (arguments : List String) : Option Command :=
  match name with
  | "check" => do
    let a ← readArguments [.config, .logLevel] .empty arguments
    let paths ← a.positional.mapM pathOf?
    if paths.isEmpty then none
    else match a.config with
      | none => some (.check none paths)
      | some config => (pathOf? config).map fun config => .check (some config) paths
  | "pvs" => do
    let a ← readArguments [.logLevel] .empty arguments
    match a.positional with
    | [file] => (pathOf? file).map .list
    | _ => none
  | _ => none

/-- The user wants to know what there is. -/
def isHelp (s : String) : Bool := s == "--help" || s == "-h"

/-- The command that the arguments ask for. -/
def ofArguments? (arguments : List String) : Option Command :=
  if (arguments.takeWhile (· != "--")).any isHelp || arguments.head? == some "help" then some .help
  else match arguments with
    | [] => none
    | s :: rest =>
      match flagOf? [.logLevel] s, rest with
      | some (_, some _), name :: rest => ofName? name rest
      | some (_, none), value :: name :: rest => if isDashed value then none else ofName? name rest
      | some _, _ => none
      | none, rest => ofName? s rest

/-! ### Running -/

/-- How to call the program. -/
def usage : String :=
  "Usage: kemi-pv [--log-level <LOG_LEVEL>] check [--config <CONFIG>] <PATHS>...\n"
    ++ "       kemi-pv [--log-level <LOG_LEVEL>] pvs <FILE>\n"

/-- The status of a program that was called the wrong way or cannot read its input. -/
def failureStatus : Nat := 2

/-- The end of a program that cannot go on. -/
def failed (message : String) : Result := ⟨failureStatus, "", some ("Error: " ++ message)⟩

/-- The session after reading the scripts at and below the paths; directories among them are roots
of the workspace. -/
def indexed (config : Config) (disk : Disk) (paths : List Path) : Session :=
  let s := (paths.filter disk.isDirectory).foldl Session.addRoot (Session.start config)
  ((s.enqueuePaths disk paths).1.indexAll disk).1

/-- The document's name in reports. -/
def displayName (uri : String) : String :=
  match Uri.toPath? uri with
  | some path => path.toString
  | none => uri

/-- The diagnostics of all documents, by URI. -/
def findings (s : Session) : List (Document × Diagnostic) :=
  s.store.documents.values.flatMap fun d => (s.diagnostics d.uri).map fun x => (d, x)

/-- The last line of a check. -/
def summary (files errors warnings : Nat) : String :=
  toString files ++ " file(s) checked: " ++ toString errors ++ " error(s), " ++ toString warnings
    ++ " warning(s)\n"

/-- The reports of all diagnostics and their number. -/
def checkResult (config : Config) (disk : Disk) (paths : List Path) : Result :=
  let s := indexed config disk paths
  let found := findings s
  let errors := found.countP fun (_, x) => x.isError
  let reports := found.map fun (d, x) =>
    (Report.ofDiagnostic x d.text (displayName d.uri)).render true
  ⟨if errors = 0 then 0 else 1,
    String.join reports ++ summary s.store.size errors (found.length - errors), none⟩

/-- A pseudo-variable on a line of its own: place, access, key, method and spelling. -/
def listLine (o : Occurrence) : String :=
  let start := o.range.start
  "\t".intercalate [toString (start.line + 1) ++ ":" ++ toString (start.character + 1),
    if o.isWrite then "write" else "read", o.key, o.method, String.ofList o.var.matched] ++ "\n"

/-- The pseudo-variables of a file. -/
def listResult (disk : Disk) (file : Path) : Result :=
  match disk.readText file with
  | .error error => failed error.message
  | .ok text =>
    let d := Document.ofText (Uri.ofPath file) text Session.diskVersion
    ⟨0, String.join (d.occurrences.map listLine), none⟩

/-- What a command does. -/
def run (disk : Disk) : Command → Result
  | .check none paths => checkResult .default disk paths
  | .check (some file) paths =>
    match Config.load disk file with
    | .ok config => checkResult config disk paths
    | .error error => failed error.message
  | .list file => listResult disk file
  | .help => ⟨0, usage, none⟩

end Command

/-- What the program does for its arguments. -/
def runArguments (disk : Disk) (arguments : List String) : Result :=
  match Command.ofArguments? arguments with
  | some command => command.run disk
  | none => ⟨Command.failureStatus, "", some Command.usage⟩

end RouteScript
