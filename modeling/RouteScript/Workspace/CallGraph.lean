import RouteScript.Table
import RouteScript.Text.Position

/-!
# The call graph

The routines of a workspace, which of them call which, and the pseudo-variables each one reads and
writes itself.

* `reachable` lists the routines that a routine leads to, nearest first,
* `transitiveWrites` and `transitiveReads` collect what all of these write and read.
-/

namespace RouteScript

/-- A routine, by its document and its name. -/
structure RoutineKey where
  uri : String
  name : String
deriving DecidableEq, Repr, Inhabited

namespace RoutineKey

/-- The order by document, then by name. -/
instance : Ord RoutineKey := ⟨compareLex (compareOn uri) (compareOn name)⟩

instance : Std.TransOrd RoutineKey :=
  inferInstanceAs (Std.TransCmp (compareLex (compareOn uri) (compareOn name)))

/-- Document and name with a `#` between them. -/
def label (k : RoutineKey) : String := k.uri ++ "#" ++ k.name

end RoutineKey

/-- Where a routine is defined, and its parameters. -/
structure RoutineDef where
  key : RoutineKey
  span : Span
  range : Range
  nameRange : Range
  parameters : List String
deriving DecidableEq, Repr

/-- A routine in the graph. -/
structure CallNode where
  definition : RoutineDef
  callees : OrdSet RoutineKey
  callers : OrdSet RoutineKey
  reads : OrdSet String
  writes : OrdSet String

/-- The routines of a workspace and the calls between them. -/
structure CallGraph where
  nodes : Table RoutineKey CallNode
  /-- The routines of each name, as they were registered. -/
  byName : Table String (List RoutineKey)

namespace CallGraph

/-- The graph without routines. -/
def empty : CallGraph := ⟨.empty, .empty⟩

/-- The node of a routine. -/
def node? (g : CallGraph) (k : RoutineKey) : Option CallNode := g.nodes.get? k

/-- The routine is in the graph. -/
def contains (g : CallGraph) (k : RoutineKey) : Bool := g.nodes.contains k

/-- The routines of a name, as they were registered. -/
def withName (g : CallGraph) (name : String) : List RoutineKey := (g.byName.get? name).getD []

/-- The names of routines, in ascending order. -/
def names (g : CallGraph) : List String := g.byName.keys

/-- The graph with a routine registered; one that is there already only gets its definition
replaced. -/
def addRoutine (g : CallGraph) (d : RoutineDef) : CallGraph :=
  match g.node? d.key with
  | some node => ⟨g.nodes.insert d.key { node with definition := d }, g.byName⟩
  | none =>
    ⟨g.nodes.insert d.key ⟨d, .empty, .empty, .empty, .empty⟩,
      g.byName.insert d.key.name (g.withName d.key.name ++ [d.key])⟩

/-- The graph with a call added between two of its routines. -/
def addCall (g : CallGraph) (caller callee : RoutineKey) : CallGraph :=
  if g.contains caller && g.contains callee then
    let nodes := g.nodes.modify caller fun n => { n with callees := OrdSet.add n.callees callee }
    ⟨nodes.modify callee fun n => { n with callers := OrdSet.add n.callers caller }, g.byName⟩
  else g

/-- The graph with the accesses of one of its routines set. -/
def setAccess (g : CallGraph) (k : RoutineKey) (reads writes : OrdSet String) : CallGraph :=
  ⟨g.nodes.modify k fun n => { n with reads := reads, writes := writes }, g.byName⟩

/-- The node without a neighbor. -/
def CallNode.forget (k : RoutineKey) (n : CallNode) : CallNode :=
  { n with callees := n.callees.erase k, callers := n.callers.erase k }

/-- The nodes without a routine, which its neighbors forget. -/
def removeRoutine (nodes : Table RoutineKey CallNode) (k : RoutineKey) :
    Table RoutineKey CallNode :=
  match nodes.get? k with
  | none => nodes
  | some node =>
    (node.callees.keys ++ node.callers.keys).foldl
      (fun nodes n => nodes.modify n (CallNode.forget k)) (nodes.erase k)

/-- The graph without the routines of a document. -/
def removeDocument (g : CallGraph) (uri : String) : CallGraph :=
  let removed := g.nodes.keys.filter (·.uri == uri)
  let byName := g.byName.mapValues fun _ keys => keys.filter (·.uri != uri)
  ⟨removed.foldl removeRoutine g.nodes, byName.filter fun _ keys => !keys.isEmpty⟩

/-- The graph without calls. -/
def clearCalls (g : CallGraph) : CallGraph :=
  ⟨g.nodes.mapValues fun _ n => { n with callees := .empty, callers := .empty }, g.byName⟩

/-- The routines a routine calls, in ascending order. -/
def callees (g : CallGraph) (k : RoutineKey) : List RoutineKey :=
  ((g.node? k).map (·.callees.keys)).getD []

/-- The routines that call a routine, in ascending order. -/
def callers (g : CallGraph) (k : RoutineKey) : List RoutineKey :=
  ((g.node? k).map (·.callers.keys)).getD []

/-- Breadth-first search: `queue` holds what was seen and not yet listed.  Each round lists one
routine, so `fuel` need not exceed the number of routines that can be seen. -/
def search (g : CallGraph) : (fuel : Nat) → (queue seen : List RoutineKey) → List RoutineKey
  | 0, _, _ => []
  | _ + 1, [], _ => []
  | fuel + 1, k :: queue, seen =>
    let new := (g.callees k).filter fun c => !seen.contains c
    k :: search g fuel (queue ++ new) (seen ++ new)

/-- The number of routines that a search can see: its start and the ends of all calls. -/
def searchBound (g : CallGraph) : Nat := 1 + (g.nodes.values.flatMap fun n => n.callees.keys).length

/-- The routine and all that it leads to, nearest first; nothing for a routine that is not
there. -/
def reachable (g : CallGraph) (k : RoutineKey) : List RoutineKey :=
  if g.contains k then g.search g.searchBound [k] [k] else []

/-- What a routine and all that it leads to have of something. -/
def transitive (g : CallGraph) (select : CallNode → OrdSet String) (k : RoutineKey) :
    OrdSet String :=
  OrdSet.ofList (((g.reachable k).filterMap g.node?).flatMap fun n => (select n).keys)

/-- The variables that a routine writes, itself or through others. -/
def transitiveWrites (g : CallGraph) (k : RoutineKey) : OrdSet String := g.transitive (·.writes) k

/-- The variables that a routine reads, itself or through others. -/
def transitiveReads (g : CallGraph) (k : RoutineKey) : OrdSet String := g.transitive (·.reads) k

/-- Some routine writes the variable. -/
def hasWrite (g : CallGraph) (key : String) : Bool := g.nodes.values.any (·.writes.contains key)

/-- The routines of a document by position, those at one place by name. -/
def routinesOf (g : CallGraph) (uri : String) : List RoutineDef :=
  ((g.nodes.values.filter (·.definition.key.uri == uri)).map (·.definition)).mergeSort
    fun a b => a.span.start ≤ b.span.start

/-- The number of routines. -/
def size (g : CallGraph) : Nat := g.nodes.size

end CallGraph

end RouteScript
