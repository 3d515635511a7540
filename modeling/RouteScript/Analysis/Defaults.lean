import RouteScript.Analysis.Callbacks
import RouteScript.Analysis.Calls
import RouteScript.Analysis.Dispatcher
import RouteScript.Analysis.HashTables
import RouteScript.Analysis.Imports
import RouteScript.Analysis.Statistics
import RouteScript.Analysis.Variables

/-!
# The default analyzers

Each comes after those whose knowledge it uses: calls are resolved by way of imports, and variables
and callbacks by way of calls.
-/

namespace RouteScript

variable [Python.Recovery]

/-- The default analyzers, with the tables and statistics that are declared. -/
def defaultAnalyzers (tables statistics : List String) : List (Analyzer Knowledge) :=
  [ImportAnalysis.analyzer, CallAnalysis.analyzer, VariableAnalysis.analyzer,
    CallbackAnalysis.analyzer, HashTableAnalysis.analyzer (OrdSet.ofList tables),
    StatisticAnalysis.analyzer (OrdSet.ofList statistics)]

/-- The dispatcher of the default analyzers. -/
def defaultDispatcher (tables statistics : List String) : Dispatcher Knowledge :=
  ⟨defaultAnalyzers tables statistics, by
    simp [defaultAnalyzers, ImportAnalysis.analyzer, CallAnalysis.analyzer,
      VariableAnalysis.analyzer, CallbackAnalysis.analyzer, HashTableAnalysis.analyzer,
      StatisticAnalysis.analyzer]⟩

end RouteScript
