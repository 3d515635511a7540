import RouteScript.Script.Scope

/-!
# Calls of the routing engine

Scripts reach the routing engine through the object `KSR`: a call `KSR.module.method(…)` runs a
method of one of its modules.  An `EngineCall` is such a call whose first argument is a string
literal.

* `engineCalls` finds those of a document,
* `engineCallAt?` the one whose literal stands at an offset,
* `engineCallsIn` those in the statements around given spans.
-/

namespace RouteScript

open Python (Node)

variable [Python.Recovery]

/-- A call of the routing engine with a string literal in front. -/
structure EngineCall where
  module : String
  method : String
  /-- What stands between the quotes. -/
  content : Text
  contentSpan : Span
  callSpan : Span
  scope : String
deriving DecidableEq, Repr

namespace EngineCall

/-- The name of the object that stands for the routing engine. -/
def engine : String := "KSR"

/-- Module and method of a call `KSR.module.method(…)`. -/
def method? (t : Text) (call : Node) : Option (String × String) := do
  guard (call.kind == .call)
  let function ← call.child? .function
  guard (function.kind == .attribute)
  let method ← function.child? .attribute
  let owner ← function.child? .object
  guard (owner.kind == .attribute)
  let root ← owner.child? .object
  let module ← owner.child? .attribute
  guard (root.kind == .identifier && root.textIn t == engine)
  some (module.textIn t, method.textIn t)

/-- What stands between the quotes of a string literal, the last ones if there are several. -/
def bodySpan? (literal : Node) : Option Span := do
  let opening ← literal.children.reverse.find? (·.kind == .stringStart)
  let closing ← literal.children.reverse.find? (·.kind == .stringEnd)
  guard (opening.span.stop ≤ closing.span.start)
  some ⟨opening.span.stop, closing.span.start⟩

/-- The body of the first argument, if it is one string literal. -/
def firstString? (call : Node) : Option Span := do
  let arguments ← call.child? .arguments
  let first ← arguments.children.head?
  guard (first.kind == .string)
  bodySpan? first

/-- The node as a call of the routing engine. -/
def ofNode? (t : Text) (scope : String) (n : Node) : Option EngineCall := do
  let (module, method) ← method? t n
  let body ← firstString? n
  some ⟨module, method, t.slice body, body, n.span, scope⟩

/-- The calls at and below a node of the given scope. -/
def below (t : Text) (scope : String) (n : Node) : List EngineCall :=
  (n.withScopes t scope).filterMap fun (scope, n) => ofNode? t scope n

/-- The innermost call expression of a path, with the nodes around it. -/
def innermostCall? : List Node → Option (Node × List Node)
  | [] => none
  | n :: outer => if n.kind == .call then some (n, outer) else innermostCall? outer

/-- The innermost whole statement of a path, with the nodes around it. -/
def innermostStatement? : List Node → Option (Node × List Node)
  | [] => none
  | [n] => some (n, [])
  | n :: outer => if n.kind.isStatement then some (n, outer) else innermostStatement? outer

/-- The statements in document order, an outer one before an inner one that starts with it. -/
def startsFirst (a b : Node × List Node) : Bool :=
  a.1.span.start < b.1.span.start
    || (a.1.span.start == b.1.span.start && b.1.span.stop ≤ a.1.span.stop)

/-- The statements without those that lie inside the last one kept before them. -/
def outermost : (last : Option Node) → List (Node × List Node) → List (Node × List Node)
  | _, [] => []
  | last, n :: ns =>
    if last.any fun m => m.span.Encloses n.1.span then outermost last ns
    else n :: outermost (some n.1) ns

end EngineCall

namespace Document

open EngineCall

/-- The calls of the routing engine, in document order. -/
def engineCalls (d : Document) : List EngineCall := below d.text Node.moduleScope d.root

/-- The call whose literal stands at the offset, its closing quote included. -/
def engineCallAt? (d : Document) (offset : Nat) : Option EngineCall := do
  let (call, outer) ← innermostCall? (d.root.pathTo ⟨offset, offset⟩ [])
  let found ← ofNode? d.text (Node.scopeIn d.text outer) call
  if found.contentSpan.Touches offset then some found else none

/-- The outermost of the statements around the spans. -/
def statementsAround (d : Document) (spans : List Span) : List (Node × List Node) :=
  let around := spans.filterMap fun s =>
    innermostStatement? (d.root.pathTo ⟨s.start, max s.start s.stop⟩ [])
  outermost none (around.mergeSort startsFirst)

/-- The calls in the statements around the spans. -/
def engineCallsIn (d : Document) (spans : List Span) : List EngineCall :=
  (d.statementsAround spans).flatMap fun (n, outer) => below d.text (Node.scopeIn d.text outer) n

end Document

end RouteScript
