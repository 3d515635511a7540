import RouteScript.Script.Scope

/-!
# Routines

The functions and methods a script defines, with the names of their parameters.
-/

namespace RouteScript

open Python (Node)

variable [Python.Recovery]

/-- A function definition. -/
structure Routine where
  name : String
  span : Span
  nameSpan : Span
  parameters : List String
deriving DecidableEq, Repr

namespace Routine

/-- The name a parameter declares: its own, that in its name field, or else that of the first
identifier in it. -/
def parameterName? (t : Text) (parameter : Node) : Option String :=
  if parameter.kind == .identifier then some (parameter.textIn t)
  else match parameter.child? .name with
    | some name => some (name.textIn t)
    | none => (parameter.children.find? (·.kind == .identifier)).map (·.textIn t)

/-- The node as a routine. -/
def ofNode? (t : Text) (n : Node) : Option Routine := do
  guard (n.kind == .functionDefinition)
  let name ← n.child? .name
  let parameters := match n.child? .parameters with
    | some parameters => parameters.children.filterMap (parameterName? t)
    | none => []
  some ⟨name.textIn t, n.span, name.span, parameters⟩

end Routine

namespace Document

/-- The routines a document defines, in document order. -/
def routines (d : Document) : List Routine := d.root.descendants.filterMap (Routine.ofNode? d.text)

end Document

end RouteScript
