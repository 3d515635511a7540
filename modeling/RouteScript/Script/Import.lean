import RouteScript.Script.Scope
import RouteScript.Text.Blank

/-!
# Imports

The names that import statements bind in a document.
-/

namespace RouteScript

open Python (Node)

variable [Python.Recovery]

/-- What a name is bound to. -/
inductive Imported where
  /-- The module itself. -/
  | whole
  /-- A name of the module. -/
  | member (name : String)
  /-- All names of the module. -/
  | everything
deriving DecidableEq, Repr

/-- A name bound by an import statement. -/
structure Binding where
  /-- The name in the importing document, `*` if all names of a module are imported. -/
  boundName : String
  target : Imported
  /-- The path of the module, with its leading dots. -/
  modulePath : String
  /-- How the importing document names the module: the whole path for `import a.b`, which binds
  `a`, and the bound name otherwise. -/
  accessPath : String
  /-- The document of the module, once it is known. -/
  resolved : Option String
  span : Span
  range : Range
deriving DecidableEq, Repr

namespace Binding

/-- The name imported from the module. -/
def remote? (b : Binding) : Option String :=
  match b.target with
  | .member name => some name
  | _ => none

/-- All names of the module are imported. -/
def isWildcard (b : Binding) : Bool := b.target == .everything

/-- The name stands for a module. -/
def isModule (b : Binding) : Bool := b.target == .whole

/-- The binding a node makes, named in the importing document as it is bound. -/
def ofNode (t : Text) (n : Node) (name : String) (target : Imported) (path : String) : Binding :=
  ⟨name, target, path, name, none, n.span, t.rangeOf n.span⟩

/-- The imported name and the name given to it. -/
def aliased? (t : Text) (n : Node) : Option (String × String) := do
  let target ← n.child? .name
  let given ← n.child? .newName
  some (target.textIn t, given.textIn t)

/-- A name of an `import` statement. -/
def ofModuleName? (t : Text) (n : Node) : Option Binding :=
  match n.kind with
  | .dottedName =>
    let path := n.textIn t
    let first := String.ofList (path.toList.takeWhile (· != '.'))
    some { ofNode t n first .whole path with accessPath := path }
  | .aliasedImport => (aliased? t n).map fun (path, given) => ofNode t n given .whole path
  | _ => none

/-- A name of a `from` statement. -/
def ofMemberName? (t : Text) (path : String) (n : Node) : Option Binding :=
  match n.kind with
  | .dottedName => some (ofNode t n (n.textIn t) (.member (n.textIn t)) path)
  | .aliasedImport =>
    (aliased? t n).map fun (name, given) => ofNode t n given (.member name) path
  | _ => none

/-- The bindings a statement makes. -/
def ofStatement (t : Text) (n : Node) : List Binding :=
  let names := n.children.filter (·.field == some .name)
  match n.kind with
  | .importStatement => names.filterMap (ofModuleName? t)
  | .importFromStatement =>
    match n.child? .moduleName with
    | none => []
    | some module =>
      let path := String.ofList (t.slice module.span).squeeze
      match n.children.find? (·.kind == .wildcardImport) with
      | some wildcard => [ofNode t wildcard "*" .everything path]
      | none => names.filterMap (ofMemberName? t path)
  | _ => []

end Binding

namespace Document

/-- The names imported into a document, in document order. -/
def bindings (d : Document) : List Binding :=
  d.root.descendants.flatMap (Binding.ofStatement d.text)

end Document

end RouteScript
