import RouteScript.Analysis.Answer
import RouteScript.Script.CallSite
import RouteScript.Script.Import
import RouteScript.Workspace.CallGraph
import RouteScript.Workspace.VariableIndex

/-!
# What the analyzers know

The state that the analyzers share, most of it by document.
-/

namespace RouteScript

/-- A call site with the range of the called name. -/
structure LinkSite where
  site : CallSite
  range : Range
deriving DecidableEq, Repr

/-- A routine named as a callback. -/
structure CallbackUse where
  name : String
  /-- The method that is told the name. -/
  method : String
  span : Span
  range : Range
deriving DecidableEq, Repr

/-- A use of a hash table. -/
structure TableUse where
  table : String
  access : Access
  span : Span
  range : Range
deriving DecidableEq, Repr

/-- A use of a statistic. -/
structure StatisticUse where
  name : String
  span : Span
  range : Range
deriving DecidableEq, Repr

/-- The state of all analyzers. -/
structure Knowledge where
  /-- The imports of each document as they are written. -/
  bindings : Table String (List Binding)
  /-- The imports of each document with the documents they lead to. -/
  imports : Table String (List Binding)
  sites : Table String (List LinkSite)
  graph : CallGraph
  indexes : Table String VariableIndex
  callbacks : Table String (List CallbackUse)
  tables : Table String (List TableUse)
  statistics : Table String (List StatisticUse)

namespace Knowledge

/-- Nothing is known. -/
def empty : Knowledge := ⟨.empty, .empty, .empty, .empty, .empty, .empty, .empty, .empty⟩

end Knowledge

namespace Table

/-- The uses of a document. -/
def usesOf {υ : Type} (t : Table String (List υ)) (uri : String) : List υ := (t.get? uri).getD []

/-- The locations of the uses that pass a test, by document. -/
def locations {υ : Type} (t : Table String (List υ)) (test : υ → Bool) (range : υ → Range) :
    List Location :=
  t.entries.flatMap fun (uri, uses) =>
    (uses.filter test).filterMap fun use => Location.of? uri (range use)

end Table

end RouteScript
