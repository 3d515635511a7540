import RouteScript.Analysis.Completing
import RouteScript.Analysis.Knowledge

/-!
# The hash table analyzer

Hash tables are used through the methods of a module and through pseudo-variables that name a table
in their payload.  The analyzer reports tables that are read and neither written nor declared.
-/

namespace RouteScript.HashTableAnalysis

variable [Python.Recovery]

/-- The methods that take the name of a table. -/
def methods : List (String × Access) :=
  [("sht_get", .read), ("sht_gete", .read), ("sht_is_null", .read), ("sht_match_name", .read),
    ("sht_match_str_value", .read), ("sht_sets", .write), ("sht_seti", .write),
    ("sht_setex", .write), ("sht_setxs", .write), ("sht_setxi", .write), ("sht_rm", .write),
    ("sht_rm_name", .write), ("sht_rm_value", .write), ("sht_rm_name_re", .write),
    ("sht_rm_value_re", .write), ("sht_reset", .write), ("sht_inc", .write), ("sht_dec", .write)]

/-- The classes of pseudo-variables that name a table, and what naming it does. -/
def classes : List (String × Access) :=
  [("sht", .read), ("shtex", .read), ("shtcn", .read), ("shtcv", .read), ("shtinc", .write),
    ("shtdec", .write)]

/-- The access of a call that takes the name of a table. -/
def accessOf? (call : EngineCall) : Option Access :=
  if call.module == "htable" then (methods.find? (·.1 == call.method)).map (·.2) else none

/-- The table a call names. -/
def ofCall? (t : Text) (call : EngineCall) : Option TableUse :=
  (accessOf? call).map fun access =>
    ⟨String.ofList call.content, access, call.contentSpan, t.rangeOf call.contentSpan⟩

/-- The table a pseudo-variable names. -/
def ofOccurrence? (o : Occurrence) : Option TableUse := do
  let (_, access) ← classes.find? (·.1 == o.var.className)
  let table ← o.var.tableName?
  some ⟨String.ofList table, if o.isWrite then .write else access, o.span, o.range⟩

/-- The tables a document uses, by position. -/
def uses (d : Document) : List TableUse :=
  (d.engineCalls.filterMap (ofCall? d.text) ++ d.occurrences.filterMap ofOccurrence?).mergeSort
    fun a b => a.span.start ≤ b.span.start

/-- A document has changed. -/
def analyze (d : Document) (k : Knowledge) : Knowledge :=
  { k with tables := k.tables.insert d.uri (uses d) }

/-- A document has gone. -/
def removed (uri : String) (k : Knowledge) : Knowledge := { k with tables := k.tables.erase uri }

/-- The uses of a table in all documents. -/
def usesOfTable (k : Knowledge) (table : String) : List TableUse :=
  k.tables.values.flatten.filter (·.table == table)

/-- The table is declared, or some document writes it. -/
def isWritten (declared : OrdSet String) (k : Knowledge) (table : String) : Bool :=
  declared.contains table || (usesOfTable k table).any (·.access == .write)

/-- The findings in a document. -/
def diagnostics (declared : OrdSet String) (k : Knowledge) (d : Document) : List Diagnostic :=
  let unwritten := (k.tables.usesOf d.uri).filter fun u =>
    u.access == .read && !u.table.isEmpty && !isWritten declared k u.table
  unwritten.map fun u => .ofFinding u.range .warning "htable-never-written"
    ("Hash table `" ++ u.table ++ "` is read but never written")

/-- The table named at a place. -/
def useAt? (k : Knowledge) (q : Query) : Option TableUse :=
  (k.tables.usesOf q.document.uri).find? fun u => u.span.Touches q.offset

/-- Where the table is written. -/
def definitions (k : Knowledge) (q : Query) : List Location :=
  match useAt? k q with
  | none => []
  | some u => k.tables.locations (fun v => v.table == u.table && v.access == .write) (·.range)

/-- Where the table is read or written. -/
def references (k : Knowledge) (q : Query) : List Location :=
  match useAt? k q with
  | none => []
  | some u => k.tables.locations (·.table == u.table) (·.range)

/-- The number of accesses of a kind to a table. -/
def count (k : Knowledge) (table : String) (access : Access) : Nat :=
  ((usesOfTable k table).filter (·.access == access)).length

/-- What is to be said about a table. -/
def hover (declared : OrdSet String) (k : Knowledge) (q : Query) : Option Hover :=
  (useAt? k q).map fun u =>
    ⟨"Hash table `" ++ u.table ++ "`: " ++ toString (count k u.table .write) ++ " write(s), "
      ++ toString (count k u.table .read) ++ " read(s)"
      ++ (if declared.contains u.table then ", declared in configuration" else ""), u.range⟩

/-- The tables that are declared or used. -/
def knownTables (declared : OrdSet String) (k : Knowledge) : OrdSet String :=
  OrdSet.ofList (declared.keys ++ k.tables.values.flatten.map (·.table))

/-- What may be typed at a place. -/
def completions (declared : OrdSet String) (k : Knowledge) (q : Query) : List Completion :=
  match q.engineCall? with
  | none => []
  | some call =>
    if (accessOf? call).isSome then
      let typed := q.typed call
      let offered := (knownTables declared k).keys.filter fun t =>
        !t.isEmpty && startsWith typed t && t.toList != typed
      offered.map fun t => ⟨t, some .struct, some "hash table"⟩
    else []

/-- The analyzer, with the tables that are declared. -/
def analyzer (declared : OrdSet String) : Analyzer Knowledge where
  id := "htable"
  analyze _ d k := .value (analyze d k)
  removed _ uri k := .value (removed uri k)
  diagnostics k d := .value (diagnostics declared k d)
  definitions k q := .value (definitions k q)
  references k q := .value (references k q)
  hover k q := .value (hover declared k q)
  completions k q := .value (completions declared k q)

end RouteScript.HashTableAnalysis
