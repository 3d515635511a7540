import RouteScript.Analysis.Completing
import RouteScript.Analysis.Knowledge

/-!
# The statistics analyzer

Statistics are named in calls of a module and in the payload of a pseudo-variable.  If any are
declared, the analyzer reports those that are not.
-/

namespace RouteScript.StatisticAnalysis

variable [Python.Recovery]

/-- The methods that take the name of a statistic. -/
def methods : List String := ["update_stat", "reset_stat", "get_stat"]

/-- The call takes the name of a statistic. -/
def isStatistic (call : EngineCall) : Bool :=
  call.module == "statistics" && methods.contains call.method

/-- The statistic a call names. -/
def ofCall? (t : Text) (call : EngineCall) : Option StatisticUse :=
  if isStatistic call then
    some ⟨String.ofList call.content, call.contentSpan, t.rangeOf call.contentSpan⟩
  else none

/-- The statistic a pseudo-variable names. -/
def ofOccurrence? (o : Occurrence) : Option StatisticUse :=
  if o.var.className == "stat" then
    o.var.inner.map fun name => ⟨String.ofList name, o.span, o.range⟩
  else none

/-- The statistics a document uses, by position. -/
def uses (d : Document) : List StatisticUse :=
  (d.engineCalls.filterMap (ofCall? d.text) ++ d.occurrences.filterMap ofOccurrence?).mergeSort
    fun a b => a.span.start ≤ b.span.start

/-- A document has changed. -/
def analyze (d : Document) (k : Knowledge) : Knowledge :=
  { k with statistics := k.statistics.insert d.uri (uses d) }

/-- A document has gone. -/
def removed (uri : String) (k : Knowledge) : Knowledge :=
  { k with statistics := k.statistics.erase uri }

/-- The findings in a document. -/
def diagnostics (declared : OrdSet String) (k : Knowledge) (d : Document) : List Diagnostic :=
  if declared.isEmpty then []
  else ((k.statistics.usesOf d.uri).filter fun u => !declared.contains u.name).map fun u =>
    .ofFinding u.range .warning "statistic-undeclared"
      ("Statistic `" ++ u.name ++ "` is not declared")

/-- Where the statistic named at a place is used. -/
def references (k : Knowledge) (q : Query) : List Location :=
  match (k.statistics.usesOf q.document.uri).find? fun u => u.span.Touches q.offset with
  | none => []
  | some u => k.statistics.locations (·.name == u.name) (·.range)

/-- What may be typed at a place. -/
def completions (declared : OrdSet String) (q : Query) : List Completion :=
  match q.engineCall? with
  | none => []
  | some call =>
    if isStatistic call then
      (declared.keys.filter (startsWith (q.typed call))).map fun n =>
        ⟨n, some .constant, some "statistic"⟩
    else []

/-- The analyzer, with the statistics that are declared. -/
def analyzer (declared : OrdSet String) : Analyzer Knowledge where
  id := "statistics"
  analyze _ d k := .value (analyze d k)
  removed _ uri k := .value (removed uri k)
  diagnostics k d := .value (diagnostics declared k d)
  references k q := .value (references k q)
  completions _ q := .value (completions declared q)

end RouteScript.StatisticAnalysis
