import RouteScript.Path
import RouteScript.Text.Utf8

/-!
# The disk

The files and directories that scripts are read from, as a value.  An entry stands at a place, the
names that lead to it from the root; a path leads to a place by walking through directories that
exist.

* `search` goes through the directories below a place,
* `scripts` lists the scripts at and below a path, in order.
-/

namespace RouteScript

/-- The names that lead from the root of the disk to an entry. -/
abbrev Place := List Text

/-- What stands at a place. -/
inductive Entry where
  | file (content : List UInt8)
  | directory
deriving DecidableEq, Repr

/-- Files and directories, and the directory that relative paths start from. -/
structure Disk where
  entries : List (Place × Entry)
  current : Place
deriving DecidableEq, Repr

/-- Why a file cannot be read. -/
inductive DiskError where
  | missing
  | notDirectory
  | isDirectory
  | notText
deriving DecidableEq, Repr

/-- The message for the user. -/
def DiskError.message : DiskError → String
  | missing => "No such file or directory (os error 2)"
  | notDirectory => "Not a directory (os error 20)"
  | isDirectory => "Is a directory (os error 21)"
  | notText => "stream did not contain valid UTF-8"

namespace Disk

/-- Nothing but the root. -/
def empty : Disk := ⟨[], []⟩

/-- What stands at a place; the root is always there. -/
def entry? (d : Disk) (place : Place) : Option Entry :=
  if place.isEmpty then some .directory else d.entries.lookup place

/-- The place one name further. -/
def enter (place : Place) (name : Text) : Place :=
  match Path.inner? name with
  | some (.name n) => place ++ [n]
  | some .up => place.dropLast
  | _ => place

/-- The place some names lead to.  What a name starts from is a directory. -/
def walk (d : Disk) : Place → List Text → Except DiskError Place
  | place, [] => if (d.entry? place).isSome then .ok place else .error .missing
  | place, name :: names =>
    match d.entry? place with
    | none => .error .missing
    | some (.file _) => .error .notDirectory
    | some .directory => d.walk (enter place name) names

/-- Where a path starts. -/
def origin (d : Disk) (p : Path) : Place := if p.isAbsolute then [] else d.current

/-- The place a path leads to. -/
def resolve (d : Disk) (p : Path) : Except DiskError Place :=
  if p.text.isEmpty then .error .missing else d.walk (d.origin p) p.names

/-- The entry a path leads to. -/
def lookup? (d : Disk) (p : Path) : Option Entry :=
  match d.resolve p with
  | .ok place => d.entry? place
  | .error _ => none

/-- The path leads to a file. -/
def isFile (d : Disk) (p : Path) : Bool :=
  match d.lookup? p with
  | some (.file _) => true
  | _ => false

/-- The path leads to a directory. -/
def isDirectory (d : Disk) (p : Path) : Bool := d.lookup? p == some .directory

/-- The text of the file that a path leads to. -/
def readText (d : Disk) (p : Path) : Except DiskError Text := do
  match d.entry? (← d.resolve p) with
  | none => .error .missing
  | some .directory => .error .isDirectory
  | some (.file content) =>
    match Utf8.decode? content with
    | some text => .ok text
    | none => .error .notText

/-! ### Changing the disk -/

/-- The place a path names, whether it exists or not. -/
def placeOf (d : Disk) (p : Path) : Place := p.names.foldl enter (d.origin p)

/-- The disk with an entry at a place, in place of any other. -/
def put (d : Disk) (place : Place) (entry : Entry) : Disk :=
  { d with entries := (place, entry) :: d.entries.filter fun e => e.1 != place }

/-- The disk with a directory at a place where nothing is. -/
def addDirectory (d : Disk) (place : Place) : Disk :=
  if (d.entry? place).isSome then d else d.put place .directory

/-- The disk with an entry at a path and with the directories on the way there. -/
def write (d : Disk) (p : Path) (entry : Entry) : Disk :=
  let place := d.placeOf p
  (((List.range place.length).map place.take).foldl addDirectory d).put place entry

/-- The disk without the entry at a path and without all below it. -/
def remove (d : Disk) (p : Path) : Disk :=
  { d with entries := d.entries.filter fun e => !(d.placeOf p).isPrefixOf e.1 }

/-! ### Finding scripts -/

/-- Names of directories that hold no scripts of a workspace. -/
def skipped : List String :=
  [".git", ".hg", ".svn", "__pycache__", "node_modules", ".venv", "venv", ".tox", ".mypy_cache",
    ".pytest_cache", "target"]

/-- The names in a directory, each once. -/
def namesIn (d : Disk) (place : Place) : List Text :=
  (d.entries.filterMap fun e => if e.1.dropLast == place then e.1.getLast? else none).eraseDups

/-- A name of a directory is that of a directory in it, and one of the excluded names. -/
def isExcluded (d : Disk) (excluded : List String) (place : Place) (name : Text) : Bool :=
  d.entry? (place ++ [name]) == some .directory && excluded.contains (String.ofList name)

/-- The paths of the files at and below a place, given the path that led there.  Directories with
an excluded name are not entered, but for the place itself.  Each step goes down one name, so
`steps` need not exceed the number of names that lead to a file. -/
def search (d : Disk) (excluded : List String) : (steps : Nat) → Place → Path → List Path
  | 0, _, _ => []
  | steps + 1, place, path =>
    match d.entry? place with
    | none => []
    | some (.file _) => [path]
    | some .directory =>
      ((d.namesIn place).filter fun name => !d.isExcluded excluded place name).flatMap fun name =>
        search d excluded steps (place ++ [name]) (path.join ⟨name⟩)

/-- The number of names on the longest way to an entry. -/
def depth (d : Disk) : Nat := (d.entries.map (·.1.length)).foldr max 0

/-- The scripts below a path, or the script it leads to, in the order of their paths. -/
def scripts (d : Disk) (excluded : List String) (root : Path) : List Path :=
  match d.resolve root with
  | .error _ => []
  | .ok place =>
    ((d.search excluded (d.depth + 1) place root).filter (·.isScript)).mergeSort Path.le

end Disk

end RouteScript
