import RouteScript.Script.EngineCall

/-!
# Call sites

The calls by which one routine of a script may reach another: those of a plain name and those of a
name behind a dotted path.  Calls of the routing engine are none.
-/

namespace RouteScript

open Python (Node)

variable [Python.Recovery]

/-- A call of a name. -/
structure CallSite where
  callee : String
  /-- The dotted path in front of the name; none for a plain name and for `self` and `cls`. -/
  qualifier : Option String
  scope : String
  span : Span
  calleeSpan : Span
deriving DecidableEq, Repr

namespace CallSite

mutual

/-- The path `a.b.c` of an identifier or of a chain of attributes. -/
def dottedPath? (t : Text) : Node → Option String
  | .mk kind field span children =>
    if kind == .identifier then some ((Node.mk kind field span children).textIn t)
    else if kind == .attribute then do
      let object ← objectPath? t children
      let member ← (Node.mk kind field span children).child? .attribute
      some (object ++ "." ++ member.textIn t)
    else none

/-- The path of the object among the children of an attribute. -/
def objectPath? (t : Text) : List Node → Option String
  | [] => none
  | n :: ns => if n.field == some .object then dottedPath? t n else objectPath? t ns

end

/-- The path names the routing engine or something in it. -/
def reachesEngine (path : String) : Bool :=
  path == EngineCall.engine
    || (Text.stripFront? (EngineCall.engine ++ ".").toList path.toList).isSome

/-- The called name and the path in front of it. -/
def callee? (t : Text) (function : Node) : Option (Node × Option String) :=
  if function.kind == .identifier then some (function, none)
  else if function.kind == .attribute then do
    let object ← function.child? .object
    let member ← function.child? .attribute
    let path ← dottedPath? t object
    if reachesEngine path then none
    else if path == "self" || path == "cls" then some (member, none)
    else some (member, some path)
  else none

/-- The node as a call site. -/
def ofNode? (t : Text) (scope : String) (n : Node) : Option CallSite := do
  guard (n.kind == .call)
  let (callee, qualifier) ← callee? t (← n.child? .function)
  some ⟨callee.textIn t, qualifier, scope, n.span, callee.span⟩

end CallSite

namespace Document

/-- The call sites of a document, in document order. -/
def callSites (d : Document) : List CallSite :=
  (d.root.withScopes d.text Node.moduleScope).filterMap fun (scope, n) =>
    CallSite.ofNode? d.text scope n

end Document

end RouteScript
