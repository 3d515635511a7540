import RouteScript.Analysis.Completing
import RouteScript.Analysis.Knowledge

/-!
# The callback analyzer

Some methods of the transaction module take the name of a routine to be run later.  The analyzer
reports names that no routine has.
-/

namespace RouteScript.CallbackAnalysis

open Python.Node (moduleScope)

variable [Python.Recovery]

/-- The methods that take the name of a routine. -/
def methods : List String := ["t_on_failure", "t_on_branch", "t_on_reply", "t_on_branch_failure"]

/-- The call takes the name of a routine. -/
def isCallback (call : EngineCall) : Bool := call.module == "tm" && methods.contains call.method

/-- The routine that a call names. -/
def ofCall? (t : Text) (call : EngineCall) : Option CallbackUse :=
  if isCallback call then
    some ⟨String.ofList call.content, call.method, call.contentSpan, t.rangeOf call.contentSpan⟩
  else none

/-- A document has changed. -/
def analyze (d : Document) (k : Knowledge) : Knowledge :=
  { k with callbacks := k.callbacks.insert d.uri (d.engineCalls.filterMap (ofCall? d.text)) }

/-- A document has gone. -/
def removed (uri : String) (k : Knowledge) : Knowledge :=
  { k with callbacks := k.callbacks.erase uri }

/-- Some routine has the name. -/
def isRoutine (k : Knowledge) (name : String) : Bool :=
  name != moduleScope && !(k.graph.withName name).isEmpty

/-- The findings in a document. -/
def diagnostics (k : Knowledge) (d : Document) : List Diagnostic :=
  ((k.callbacks.usesOf d.uri).filter fun c => !isRoutine k c.name).map fun c =>
    .ofFinding c.range .error "callback-unresolved"
      ("No routine named `" ++ c.name ++ "` for KSR.tm." ++ c.method)

/-- The callback named at a place. -/
def callbackAt? (k : Knowledge) (q : Query) : Option CallbackUse :=
  (k.callbacks.usesOf q.document.uri).find? fun c => c.span.Touches q.offset

/-- The routines of a name, in ascending order of their keys. -/
def routinesNamed (k : Knowledge) (name : String) : List CallNode :=
  ((k.graph.withName name).mergeSort fun a b => compare a b != .gt).filterMap k.graph.node?

/-- Where routines of the name are defined. -/
def definitions (k : Knowledge) (q : Query) : List Location :=
  match callbackAt? k q with
  | none => []
  | some c => (routinesNamed k c.name).filterMap fun n =>
      Location.of? n.definition.key.uri n.definition.nameRange

/-- Where the name is given as a callback. -/
def references (k : Knowledge) (q : Query) : List Location :=
  match callbackAt? k q with
  | none => []
  | some c => k.callbacks.locations (·.name == c.name) (·.range)

/-- What is to be said about a callback. -/
def hover (k : Knowledge) (q : Query) : Option Hover :=
  (callbackAt? k q).map fun c =>
    let status := if isRoutine k c.name then "routine" else "unresolved routine"
    ⟨"`KSR.tm." ++ c.method ++ "` callback: " ++ status ++ " `" ++ c.name ++ "`", c.range⟩

/-- What may be typed at a place. -/
def completions (k : Knowledge) (q : Query) : List Completion :=
  match q.engineCall? with
  | none => []
  | some call =>
    if isCallback call then
      (k.graph.names.filter fun n => n != moduleScope && startsWith (q.typed call) n).map fun n =>
        ⟨n, some .function, none⟩
    else []

/-- The tokens of a document. -/
def tokens (k : Knowledge) (d : Document) : List SemanticToken :=
  ((k.callbacks.usesOf d.uri).filter fun c => isRoutine k c.name).filterMap fun c =>
    SemanticToken.of? c.range "function" []

/-- The analyzer. -/
def analyzer : Analyzer Knowledge where
  id := "callbacks"
  analyze _ d k := .value (analyze d k)
  removed _ uri k := .value (removed uri k)
  diagnostics k d := .value (diagnostics k d)
  definitions k q := .value (definitions k q)
  references k q := .value (references k q)
  hover k q := .value (hover k q)
  completions k q := .value (completions k q)
  tokens k d := .value (tokens k d)

end RouteScript.CallbackAnalysis
