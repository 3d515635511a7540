import RouteScript.Analysis.Analyzer
import RouteScript.Analysis.Knowledge
import RouteScript.Script.Resolution
import RouteScript.Script.Routine

/-!
# The call graph analyzer

It knows the routines of all documents and which calls lead to which of them.  Calls are resolved
anew on every event, since a routine that becomes known may be the target of calls seen earlier.
-/

namespace RouteScript.CallAnalysis

open Python.Node (moduleScope)

variable [Python.Recovery]

/-- The routine, if the graph knows it. -/
def known? (g : CallGraph) (key : RoutineKey) : Option RoutineKey :=
  if g.contains key then some key else none

/-- Where a call of a plain name leads by way of its own document and its imports. -/
def resolvePlain? (g : CallGraph) (bindings : List Binding) (uri callee : String) :
    Option RoutineKey :=
  known? g ⟨uri, callee⟩
    <|> ((Resolution.target? bindings callee).bind fun t =>
      t.remote.bind fun remote => known? g ⟨t.uri, remote⟩)
    <|> bindings.findSome? fun b =>
      if b.isWildcard then b.resolved.bind fun module => known? g ⟨module, callee⟩ else none

/-- Where a call of a name behind a path leads by way of the imported modules. -/
def resolveQualified? (g : CallGraph) (bindings : List Binding) (path callee : String) :
    Option RoutineKey :=
  (Resolution.module? bindings path).bind fun module => known? g ⟨module, callee⟩

/-- The only routine of the given name. -/
def onlyNamed? (g : CallGraph) (name : String) : Option RoutineKey :=
  match g.withName name with
  | [only] => some only
  | _ => none

/-- Where a call of a document leads. -/
def resolve? (g : CallGraph) (imports : Table String (List Binding)) (uri : String)
    (site : CallSite) : Option RoutineKey :=
  let bindings := imports.usesOf uri
  (match site.qualifier with
    | none => resolvePlain? g bindings uri site.callee
    | some path => resolveQualified? g bindings path site.callee)
    <|> onlyNamed? g site.callee

/-- The graph with the call of a site added, if it leads somewhere. -/
def link (imports : Table String (List Binding)) (uri : String) (g : CallGraph) (s : LinkSite) :
    CallGraph :=
  match resolve? g imports uri s.site with
  | some callee => g.addCall ⟨uri, s.site.scope⟩ callee
  | none => g

/-- All calls resolved among the routines now known. -/
def relink (k : Knowledge) : Knowledge :=
  let linkAll (g : CallGraph) (e : String × List LinkSite) := e.2.foldl (link k.imports e.1) g
  { k with graph := k.sites.entries.foldl linkAll k.graph.clearCalls }

/-- The document itself as a routine: it runs what stands in no function. -/
def moduleDef (d : Document) : RoutineDef :=
  let span : Span := ⟨0, d.text.bytes⟩
  let range := d.text.rangeOf span
  ⟨⟨d.uri, moduleScope⟩, span, range, ⟨range.start, range.start⟩, []⟩

/-- The definition of a routine of a document. -/
def routineDef (d : Document) (r : Routine) : RoutineDef :=
  ⟨⟨d.uri, r.name⟩, r.span, d.text.rangeOf r.span, d.text.rangeOf r.nameSpan, r.parameters⟩

/-- The call sites of a document with the ranges of the called names. -/
def linkSites (d : Document) : List LinkSite :=
  d.callSites.map fun s => ⟨s, d.text.rangeOf s.calleeSpan⟩

/-- A document has changed. -/
def analyze (d : Document) (k : Knowledge) : Knowledge :=
  let defs := moduleDef d :: d.routines.map (routineDef d)
  let graph := defs.foldl CallGraph.addRoutine (k.graph.removeDocument d.uri)
  relink { k with graph := graph, sites := k.sites.insert d.uri (linkSites d) }

/-- A document has gone. -/
def removed (uri : String) (k : Knowledge) : Knowledge :=
  relink { k with graph := k.graph.removeDocument uri, sites := k.sites.erase uri }

/-- The call at a place. -/
def siteAt? (k : Knowledge) (q : Query) : Option LinkSite :=
  (k.sites.usesOf q.document.uri).find? fun s => s.site.calleeSpan.Touches q.offset

/-- The name of the routine stands at the place. -/
def isNamedAt (q : Query) (r : RoutineDef) : Bool :=
  r.key.name != moduleScope
    && q.document.text.offsetOf r.nameRange.start ≤ q.offset
    && q.offset ≤ q.document.text.offsetOf r.nameRange.stop

/-- The routine that a place names, by a call or by its definition. -/
def routineAt? (k : Knowledge) (q : Query) : Option RoutineKey :=
  match siteAt? k q with
  | some s => resolve? k.graph k.imports q.document.uri s.site
  | none => ((k.graph.routinesOf q.document.uri).find? (isNamedAt q)).map (·.key)

/-- The node of the routine that a place names. -/
def nodeAt? (k : Knowledge) (q : Query) : Option CallNode :=
  (routineAt? k q).bind k.graph.node?

/-- The name in the definition of the routine. -/
def definitions (k : Knowledge) (q : Query) : List Location :=
  ((nodeAt? k q).bind fun n => Location.of? n.definition.key.uri n.definition.nameRange).toList

/-- The order of places by document, line and column. -/
def comesFirst (a b : String × Range) : Bool :=
  a.1 < b.1 || (a.1 == b.1 && a.2.start.le b.2.start)

/-- The calls that lead to a routine. -/
def callsOf (k : Knowledge) (key : RoutineKey) : List (String × Range) :=
  k.sites.entries.flatMap fun (uri, sites) =>
    (sites.filter fun s => resolve? k.graph k.imports uri s.site == some key).map fun s =>
      (uri, s.range)

/-- The name of a routine in its definition and in all calls that lead to it. -/
def places (k : Knowledge) (key : RoutineKey) : List (String × Range) :=
  ((k.graph.node? key).map fun n => (n.definition.key.uri, n.definition.nameRange)).toList
    ++ callsOf k key

/-- Where the routine is defined and called. -/
def references (k : Knowledge) (q : Query) : List Location :=
  match routineAt? k q with
  | none => []
  | some key =>
    ((places k key).mergeSort comesFirst).filterMap fun (uri, range) => Location.of? uri range

/-- The header of the routine, and what it writes. -/
def describe (g : CallGraph) (n : CallNode) : String :=
  let header := "```python\ndef " ++ n.definition.key.name ++ "("
    ++ ", ".intercalate n.definition.parameters ++ ")\n```"
  match (g.transitiveWrites n.definition.key).keys with
  | [] => header
  | writes => header ++ "\n\nWrites (including callees): "
      ++ ", ".intercalate (writes.map fun w => "`" ++ w ++ "`")

/-- What is to be said about a routine. -/
def hover (k : Knowledge) (q : Query) : Option Hover :=
  (nodeAt? k q).map fun n => ⟨describe k.graph n, n.definition.nameRange⟩

/-- The analyzer. -/
def analyzer : Analyzer Knowledge where
  id := "call-graph"
  analyze _ d k := .value (analyze d k)
  removed _ uri k := .value (removed uri k)
  definitions k q := .value (definitions k q)
  references k q := .value (references k q)
  hover k q := .value (hover k q)

end RouteScript.CallAnalysis
