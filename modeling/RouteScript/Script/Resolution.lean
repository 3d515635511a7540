import RouteScript.Script.Import
import RouteScript.Uri

/-!
# Resolution of imports

Where an imported module may lie, and which of these places holds a known document.  A path without
leading dots is looked up below each root in turn and then below the directory of the importing
document; a path with `n` dots below the `n - 1`th directory above that one, and nowhere else.
Below a directory, the module `a.b` is the file `a/b.py` or, if that is unknown, the package
`a/b/__init__.py`.
-/

namespace RouteScript.Resolution

/-- The file that makes a directory a package. -/
def packageFile : Path := .ofString "__init__.py"

/-- The files that may hold the module named by `rest` below a directory. -/
def candidates (base : Path) (rest : Text) : List Path :=
  if rest.isEmpty then [base.join packageFile]
  else
    let segments := (Text.splitOn '.' rest).filter fun s => !s.isEmpty
    let module := segments.foldl (fun p s => p.join ⟨s⟩) base
    [module.withExtension ['p', 'y'], module.join packageFile]

/-- The directory `n` levels up. -/
def ancestor? : Nat → Path → Option Path
  | 0, p => some p
  | n + 1, p => p.parent?.bind (ancestor? n)

/-- The directories below which a module is looked up. -/
def bases (path : Text) (importer : String) (roots : List Path) : List Path :=
  match (path.takeWhile (· == '.')).length with
  | 0 => if path.isEmpty then [] else roots ++ (Uri.directory? importer).toList
  | dots + 1 => ((Uri.directory? importer).bind (ancestor? dots)).toList

/-- The URIs under which the module may be known, in order of preference. -/
def candidateUris (path : String) (importer : String) (roots : List Path) : List String :=
  let rest := path.toList.dropWhile (· == '.')
  (bases path.toList importer roots).flatMap fun base => (candidates base rest).map Uri.ofPath

/-- The document of a module. -/
def resolve? (known : String → Bool) (roots : List Path) (importer path : String) :
    Option String :=
  (candidateUris path importer roots).find? known

/-- The path of a member that is a module itself. -/
def submodule (path name : String) : String :=
  if path.toList.getLast? == some '.' then path ++ name else path ++ "." ++ name

/-- The document is that of a package. -/
def isPackage (uri : String) : Bool :=
  (Text.stripFront? "/__init__.py".toList.reverse uri.toList.reverse).isSome

/-- The binding with the document it leads to.  A name imported from a package, or from a module
that is unknown, may be a module below it; then the name stands for that module. -/
def bind (known : String → Bool) (roots : List Path) (importer : String) (b : Binding) : Binding :=
  let module := resolve? known roots importer b.modulePath
  match b.target with
  | .member name =>
    if module.all isPackage then
      let nested := submodule b.modulePath name
      match resolve? known roots importer nested with
      | some uri => { b with modulePath := nested, target := .whole, resolved := some uri }
      | none => { b with resolved := module }
    else { b with resolved := module }
  | _ => { b with resolved := module }

/-- Where a call through an imported name leads: a document and the name there, unless the name
stands for a module. -/
structure Target where
  uri : String
  remote : Option String
deriving DecidableEq, Repr

/-- The target of the first binding of a name; an unresolved one hides those behind it. -/
def target? (bindings : List Binding) (name : String) : Option Target := do
  let b ← bindings.find? fun b => !b.isWildcard && b.boundName == name
  some ⟨← b.resolved, b.remote?⟩

/-- The module that the importing document names by the given path. -/
def module? (bindings : List Binding) (path : String) : Option String := do
  let b ← bindings.find? fun b => b.isModule && b.accessPath == path
  b.resolved

end RouteScript.Resolution
