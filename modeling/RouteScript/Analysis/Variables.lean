import RouteScript.Analysis.Completing
import RouteScript.Analysis.Knowledge

/-!
# The variable analyzer

It knows where every pseudo-variable is read and written, and tells the call graph what each
routine reads and writes itself.  It reports classes that are unknown and variables that are read
and never written.
-/

namespace RouteScript.VariableAnalysis

variable [Python.Recovery]

/-- The keys of the occurrences in a scope that have the given access. -/
def keysIn (os : List Occurrence) (scope : String) (access : Access) : OrdSet String :=
  OrdSet.ofList ((os.filter fun o => o.scope == scope && o.access == access).map (·.key))

/-- The graph with the accesses of the scopes of a document. -/
def recordAccess (uri : String) (os : List Occurrence) (g : CallGraph) : CallGraph :=
  (OrdSet.ofList (os.map (·.scope))).keys.foldl (fun g scope =>
    g.setAccess ⟨uri, scope⟩ (keysIn os scope .read) (keysIn os scope .write)) g

/-- A document has changed. -/
def analyze (d : Document) (k : Knowledge) : Knowledge :=
  let index := VariableIndex.ofList d.occurrences
  { k with
    graph := recordAccess d.uri index.byPosition k.graph
    indexes := k.indexes.insert d.uri index }

/-- A document has gone. -/
def removed (uri : String) (k : Knowledge) : Knowledge :=
  { k with indexes := k.indexes.erase uri }

/-- The occurrences of a document, by position. -/
def occurrencesOf (k : Knowledge) (uri : String) : List Occurrence :=
  ((k.indexes.get? uri).map (·.byPosition)).getD []

/-- A read of the variable in a scope of a document has a write to match. -/
def isWritten (k : Knowledge) (uri scope key : String) : Bool :=
  (k.indexes.get? uri).any (fun index => (index.firstWrite? key).isSome)
    || (k.graph.transitiveWrites ⟨uri, scope⟩).contains key
    || k.graph.hasWrite key
    || k.indexes.values.any fun index => (index.firstWrite? key).isSome

/-- The finding about an occurrence. -/
def finding? (k : Knowledge) (uri : String) (o : Occurrence) : Option Diagnostic :=
  if !Category.isKnown o.var.className then
    some (.ofFinding o.range .warning "pv-unknown-class"
      ("Unknown pseudo-variable class `$" ++ o.var.className ++ "`"))
  else if o.isWrite || !o.var.category.isWritable then none
  else if isWritten k uri o.scope o.key then none
  else some (.ofFinding o.range .warning "pv-never-written"
    ("`" ++ String.ofList o.var.matched ++ "` is read but never written"))

/-- The findings in a document. -/
def diagnostics (k : Knowledge) (d : Document) : List Diagnostic :=
  (occurrencesOf k d.uri).filterMap (finding? k d.uri)

/-- The occurrence at a place. -/
def occurrenceAt? (k : Knowledge) (q : Query) : Option Occurrence :=
  (k.indexes.get? q.document.uri).bind (·.findAt? q.offset)

/-- The occurrences of a variable in all documents that pass a test. -/
def locationsOf (k : Knowledge) (key : String) (test : Occurrence → Bool) : List Location :=
  k.indexes.entries.flatMap fun (uri, index) =>
    ((index.withKey key).filter test).filterMap fun o => Location.of? uri o.range

/-- Where the variable is written. -/
def definitions (k : Knowledge) (q : Query) : List Location :=
  ((occurrenceAt? k q).map fun o => locationsOf k o.key (·.isWrite)).getD []

/-- Where the variable is read or written. -/
def references (k : Knowledge) (q : Query) : List Location :=
  ((occurrenceAt? k q).map fun o => locationsOf k o.key fun _ => true).getD []

/-- The number of accesses of a kind in all documents. -/
def count (k : Knowledge) (key : String) (access : Access) : Nat :=
  ((k.indexes.values.flatMap (·.withKey key)).filter (·.access == access)).length

/-- The variable, its class and its subscript. -/
def describe (o : Occurrence) : String :=
  "**`" ++ String.ofList o.var.matched ++ "`** (" ++ o.var.category.label ++ ")"
    ++ (if Category.isKnown o.var.className then ""
        else "\n\nUnknown class `" ++ o.var.className ++ "`")
    ++ (match o.var.index with
        | some index => "\n\nIndex `" ++ String.ofList index ++ "`"
        | none => "")

/-- What is to be said about a variable. -/
def hover (k : Knowledge) (q : Query) : Option Hover :=
  (occurrenceAt? k q).map fun o =>
    ⟨describe o ++ "\n\nIdentity `" ++ o.key ++ "`: " ++ toString (count k o.key .write)
      ++ " write(s), " ++ toString (count k o.key .read) ++ " read(s) in the workspace", o.range⟩

/-! ### Completions -/

/-- What is being typed. -/
inductive Typing where
  | cls (typed : Text)
  | inner (cls typed : Text)
deriving DecidableEq, Repr

/-- The word at the end of a text, and the text before it, both backwards. -/
def lastWord (backwards : Text) : Text × Text :=
  (backwards.takeWhile PseudoVar.isWordChar, backwards.dropWhile PseudoVar.isWordChar)

/-- What is being typed at the end of a text: a class behind a dollar sign, or a payload behind a
class and a parenthesis. -/
def typing? (typed : Text) : Option Typing :=
  let (word, before) := lastWord typed.reverse
  match before with
  | '$' :: _ => some (.cls word.reverse)
  | '(' :: before =>
    let (cls, before) := lastWord before
    if cls.isEmpty then none
    else match before with
      | '$' :: _ | '(' :: '$' :: _ => some (.inner cls.reverse word.reverse)
      | _ => none
  | _ => none

/-- The payloads with which variables of a class occur. -/
def innerNames (k : Knowledge) (cls : Text) : OrdSet String :=
  OrdSet.ofList ((k.indexes.values.flatMap (·.byPosition)).filterMap fun o =>
    if o.var.cls == cls then o.var.inner.map String.ofList else none)

/-- The classes and payloads that go on from what is being typed. -/
def offers (k : Knowledge) : Typing → List Completion
  | .cls typed => (Category.known.filter fun (cls, _) => startsWith typed cls).map
      fun (cls, category) => ⟨cls, some .variable, some category.label⟩
  | .inner cls typed => ((innerNames k cls).keys.filter (startsWith typed)).map fun name =>
      let cls := String.ofList cls
      ⟨name, some .variable,
        some ((Category.ofClass cls).label ++ " `" ++ cls ++ ":" ++ name ++ "`")⟩

/-- What may be typed at a place. -/
def completions (k : Knowledge) (q : Query) : List Completion :=
  ((do
    let call ← q.engineCall?
    let typing ← typing? (← q.typed? call)
    some (offers k typing)) : Option (List Completion)).getD []

/-- The tokens of a document. -/
def tokens (k : Knowledge) (d : Document) : List SemanticToken :=
  (occurrencesOf k d.uri).filterMap fun o =>
    SemanticToken.of? o.range "variable"
      ((if o.isWrite then ["modification"] else [])
        ++ if o.var.category.isBuiltin && Category.isKnown o.var.className then ["defaultLibrary"]
          else [])

/-- The analyzer. -/
def analyzer : Analyzer Knowledge where
  id := "pv"
  analyze _ d k := .value (analyze d k)
  removed _ uri k := .value (removed uri k)
  diagnostics k d := .value (diagnostics k d)
  definitions k q := .value (definitions k q)
  references k q := .value (references k q)
  hover k q := .value (hover k q)
  completions k q := .value (completions k q)
  tokens k d := .value (tokens k d)

end RouteScript.VariableAnalysis
