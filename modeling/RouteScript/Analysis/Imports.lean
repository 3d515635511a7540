import RouteScript.Analysis.Analyzer
import RouteScript.Analysis.Knowledge
import RouteScript.Script.Resolution

/-!
# The import analyzer

It knows what the names imported by each document lead to.  A document that becomes known may
satisfy the imports of others, so all imports are resolved anew on every event.
-/

namespace RouteScript.ImportAnalysis

variable [Python.Recovery]

/-- All imports resolved among the documents now known. -/
def resolveAll (view : View) (k : Knowledge) : Knowledge :=
  { k with imports := k.bindings.mapValues fun uri bindings =>
      bindings.map (Resolution.bind view.store.contains view.roots uri) }

/-- A document has changed. -/
def analyze (view : View) (d : Document) (k : Knowledge) : Knowledge :=
  resolveAll view { k with bindings := k.bindings.insert d.uri d.bindings }

/-- A document has gone. -/
def removed (view : View) (uri : String) (k : Knowledge) : Knowledge :=
  resolveAll view { k with bindings := k.bindings.erase uri }

/-- The imported name at a place. -/
def bindingAt? (k : Knowledge) (q : Query) : Option Binding :=
  (k.imports.usesOf q.document.uri).find? fun b => b.span.Touches q.offset

/-- The start of the imported document. -/
def definitions (k : Knowledge) (q : Query) : List Location :=
  ((bindingAt? k q).bind (·.resolved)).bind (Location.of? · .origin) |>.toList

/-- The imported module and its document. -/
def describe (b : Binding) : String :=
  let target := match b.resolved with
    | some uri => "`" ++ uri ++ "`"
    | none => "unresolved"
  let module := "module `" ++ b.modulePath ++ "`\n\n" ++ target
  match b.remote? with
  | some remote => "`" ++ remote ++ "` from " ++ module
  | none => module

/-- What is to be said about an imported name. -/
def hover (k : Knowledge) (q : Query) : Option Hover :=
  (bindingAt? k q).map fun b => ⟨describe b, b.range⟩

/-- The analyzer. -/
def analyzer : Analyzer Knowledge where
  id := "imports"
  analyze view d k := .value (analyze view d k)
  removed view uri k := .value (removed view uri k)
  definitions k q := .value (definitions k q)
  hover k q := .value (hover k q)

end RouteScript.ImportAnalysis
