import RouteScript.PseudoVar.Scanner
import RouteScript.Script.EngineCall

/-!
# Occurrences of pseudo-variables

A script reads and writes pseudo-variables by naming them in the literals it gives to certain
methods of the routing engine.  The method decides between reading and writing.
-/

namespace RouteScript

variable [Python.Recovery]

/-- What a method does with the pseudo-variables named in its first argument. -/
inductive Access where
  | read
  | write
deriving DecidableEq, Repr

namespace Access

/-- The methods that take the names of pseudo-variables. -/
def methods : List (String × String × Access) :=
  [("pv", "get", read), ("pv", "gete", read), ("pv", "getw", read), ("pv", "getvs", read),
    ("pv", "getvn", read), ("pv", "is_null", read), ("pv", "sets", write), ("pv", "seti", write),
    ("pv", "unset", write), ("pvx", "pv_printf", write)]

/-- The access of a method, if it takes the names of pseudo-variables. -/
def ofMethod? (module method : String) : Option Access :=
  (methods.find? fun (m, name, _) => m == module && name == method).map (·.2.2)

end Access

/-- A pseudo-variable at a place of a document. -/
structure Occurrence where
  var : PseudoVar
  /-- The method that names it. -/
  method : String
  access : Access
  span : Span
  range : Range
  scope : String
deriving DecidableEq, Repr

namespace Occurrence

/-- The identity of the variable. -/
def key (o : Occurrence) : String := o.var.key

/-- The occurrence writes its variable. -/
def isWrite (o : Occurrence) : Bool := o.access == .write

/-- The occurrences in the literal of a call. -/
def ofCall (t : Text) (call : EngineCall) : List Occurrence :=
  match Access.ofMethod? call.module call.method with
  | none => []
  | some access => (PseudoVar.scan call.content).map fun var =>
    let span := var.span.shift call.contentSpan.start
    ⟨var, call.method, access, span, t.rangeOf span, call.scope⟩

end Occurrence

namespace Document

/-- The occurrences of a document, call by call. -/
def occurrences (d : Document) : List Occurrence :=
  d.engineCalls.flatMap (Occurrence.ofCall d.text)

/-- The occurrences in the statements around the spans. -/
def occurrencesIn (d : Document) (spans : List Span) : List Occurrence :=
  (d.engineCallsIn spans).flatMap (Occurrence.ofCall d.text)

end Document

end RouteScript
