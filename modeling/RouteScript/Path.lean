import RouteScript.Text.Basic

/-!
# File paths

A path is a text with `/` between its names.  What it names is its list of components: an empty
name and a `.` that is not the very first name say nothing.  Two paths that name the same file by
the same components are `same`, whatever their spelling.
-/

namespace RouteScript

/-- A step of a path. -/
inductive Component where
  | root
  | here
  | up
  | name (text : Text)
deriving DecidableEq, Repr

namespace Component

/-- Position of the component's kind in the order of paths. -/
def rank : Component → Nat
  | root => 0
  | here => 1
  | up => 2
  | name _ => 3

/-- The order of components: by kind, names by their characters. -/
def compare : Component → Component → Ordering
  | name a, name b => Ord.compare (String.ofList a) (String.ofList b)
  | a, b => Ord.compare a.rank b.rank

end Component

/-- A path as it was written. -/
structure Path where
  text : Text
deriving DecidableEq, Repr, Inhabited

namespace Path

/-- The path written as the given string. -/
def ofString (s : String) : Path := ⟨s.toList⟩

/-- The path as a string. -/
def toString (p : Path) : String := String.ofList p.text

/-- The path starts at the root. -/
def isAbsolute (p : Path) : Bool := p.text.head? == some '/'

/-- The names between the slashes, without the empty one before a leading slash. -/
def names (p : Path) : List Text :=
  let parts := p.text.splitOn '/'
  if p.isAbsolute then parts.drop 1 else parts

/-- A name inside a path that says nothing. -/
def isVoid (name : Text) : Bool := name == [] || name == ['.']

/-- The component a name stands for inside a path. -/
def inner? (name : Text) : Option Component :=
  if isVoid name then none else if name == ['.', '.'] then some .up else some (.name name)

/-- The components of a path. -/
def components (p : Path) : List Component :=
  if p.isAbsolute then .root :: p.names.filterMap inner?
  else match p.names with
    | ['.'] :: rest => .here :: rest.filterMap inner?
    | names => names.filterMap inner?

/-- The paths name the same file in the same way. -/
def same (p q : Path) : Bool := p.components == q.components

/-- Lexicographic order by components. -/
def compareComponents : List Component → List Component → Ordering
  | [], [] => .eq
  | [], _ :: _ => .lt
  | _ :: _, [] => .gt
  | a :: as, b :: bs => (a.compare b).then (compareComponents as bs)

/-- The order of paths. -/
def le (p q : Path) : Bool := compareComponents p.components q.components != .gt

/-- The last component, if it is a name. -/
def fileName? (p : Path) : Option Text :=
  match p.components.getLast? with
  | some (.name n) => some n
  | _ => none

/-- A file name cut at its last dot, unless it starts with that dot. -/
def stemAndExtension (name : Text) : Text × Option Text :=
  match (Text.splitOn '.' name).reverse with
  | last :: before :: more =>
    let stem := Text.joinWith '.' (before :: more).reverse
    if stem.isEmpty then (name, none) else (stem, some last)
  | _ => (name, none)

/-- What follows the last dot of the file name, unless the name starts with that dot. -/
def extension? (p : Path) : Option Text := p.fileName?.bind fun name => (stemAndExtension name).2

/-- The file name ends in `.py`. -/
def isScript (p : Path) : Bool := p.extension? == some ['p', 'y']

/-- The names without those at the end that say nothing. -/
def dropVoid (names : List Text) : List Text := (names.reverse.dropWhile isVoid).reverse

/-- `dropVoid` for a relative path, whose first name may be a dot. -/
def dropVoidRelative : List Text → List Text
  | ['.'] :: rest => ['.'] :: dropVoid rest
  | names => dropVoid names

/-- The path without its last component, if that is not the root. -/
def parent? (p : Path) : Option Path :=
  if p.isAbsolute then
    match dropVoid p.names with
    | [] => none
    | names => some ⟨'/' :: Text.joinWith '/' (dropVoid names.dropLast)⟩
  else
    match dropVoidRelative p.names with
    | [] => none
    | names => some ⟨Text.joinWith '/' (dropVoidRelative names.dropLast)⟩

/-- The path with the extension of its file name replaced, or added if it has none; a path without
a file name stays as it is. -/
def withExtension (p : Path) (extension : Text) : Path :=
  match p.fileName? with
  | none => p
  | some name =>
    let renamed := (stemAndExtension name).1 ++ '.' :: extension
    if p.isAbsolute then
      ⟨'/' :: Text.joinWith '/' ((dropVoid p.names).dropLast ++ [renamed])⟩
    else ⟨Text.joinWith '/' ((dropVoidRelative p.names).dropLast ++ [renamed])⟩

/-- The path of `rest` seen from `p`; an absolute `rest` stands for itself. -/
def join (p rest : Path) : Path :=
  if rest.isAbsolute || p.text.isEmpty then rest
  else if p.text.getLast? == some '/' then ⟨p.text ++ rest.text⟩
  else ⟨p.text ++ '/' :: rest.text⟩

end Path

end RouteScript
