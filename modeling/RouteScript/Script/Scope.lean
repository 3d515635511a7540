import RouteScript.Document.Basic

/-!
# Scopes

The scope of a node is the name of the innermost function around it, or `<module>` if there is
none.
-/

namespace RouteScript.Python.Node

/-- The scope of what stands in no function. -/
def moduleScope : String := "<module>"

/-- The characters of the node. -/
def textIn (t : Text) (n : Node) : String := t.sliceString n.span

/-- The name of a function definition. -/
def functionName? (t : Text) (n : Node) : Option String :=
  if n.kind == .functionDefinition then (n.child? .name).map (·.textIn t) else none

/-- The scope of the children of a node whose own scope is `scope`. -/
def scopeBelow (t : Text) (scope : String) (n : Node) : String := (n.functionName? t).getD scope

mutual

/-- The node and all nodes below it with their scopes, in document order. -/
def withScopes (t : Text) (scope : String) : Node → List (String × Node)
  | mk kind field span children =>
    (scope, mk kind field span children)
      :: withScopesAll t (scopeBelow t scope (mk kind field span children)) children

/-- The nodes of several trees with their scopes. -/
def withScopesAll (t : Text) (scope : String) : List Node → List (String × Node)
  | [] => []
  | n :: ns => withScopes t scope n ++ withScopesAll t scope ns

end

/-- The scope of a node inside the given nodes, the innermost first. -/
def scopeIn (t : Text) (outer : List Node) : String :=
  (outer.findSome? (·.functionName? t)).getD moduleScope

end RouteScript.Python.Node
