import RouteScript.Analysis.Calls
import RouteScript.Analysis.Variables
import RouteScript.Proofs.CallGraph

/-!
# Resolving calls and recording accesses

Where a call leads depends on which routines there are and not on the calls between them.  So all
calls can be resolved first and added afterwards: `relink_eq` says that relinking adds to the graph
without calls the calls that `callsFrom` finds.

What a document contributes to the graph is its routines (`routinesIn`) with their accesses; this is
its `ownGraph`.  Analyzing a document puts its own graph in place of what the graph knew about it
before and leaves the routines of other documents alone (`node?_clearCalls_analyzed`).
-/

namespace RouteScript

namespace CallGraph

/-- The graph with several calls added, each a caller and its callee. -/
def addCalls (g : CallGraph) (calls : List (RoutineKey × RoutineKey)) : CallGraph :=
  calls.foldl (fun g c => g.addCall c.1 c.2) g

variable (g : CallGraph) (calls : List (RoutineKey × RoutineKey))

@[simp] theorem contains_addCalls (k : RoutineKey) :
    (g.addCalls calls).contains k = g.contains k := by
  induction calls generalizing g with
  | nil => rfl
  | cons c calls ih => exact (ih (g.addCall c.1 c.2)).trans (g.contains_addCall ..)

@[simp] theorem byName_addCalls : (g.addCalls calls).byName = g.byName := by
  induction calls generalizing g with
  | nil => rfl
  | cons c calls ih => exact (ih (g.addCall c.1 c.2)).trans (g.byName_addCall ..)

@[simp] theorem clearCalls_addCalls : (g.addCalls calls).clearCalls = g.clearCalls := by
  induction calls generalizing g with
  | nil => rfl
  | cons c calls ih => exact (ih (g.addCall c.1 c.2)).trans (g.clearCalls_addCall ..)

theorem setAccess_addCalls (k : RoutineKey) (reads writes : OrdSet String) :
    (g.addCalls calls).setAccess k reads writes = (g.setAccess k reads writes).addCalls calls := by
  induction calls generalizing g with
  | nil => rfl
  | cons c calls ih =>
    refine (ih (g.addCall c.1 c.2)).trans ?_
    rw [setAccess_addCall]
    rfl

variable {g} {h : CallGraph}

theorem Similar.addCall (hs : g.Similar h) (a b : RoutineKey) :
    (g.addCall a b).Similar (h.addCall a b) := by
  refine ⟨Table.ext_get? fun k => ?_, fun name => ?_, ?_⟩
  · refine (g.node?_addCall a b k).trans (Eq.trans ?_ (h.node?_addCall a b k).symm)
    rw [hs.node?, hs.contains, hs.contains]
  · rw [CallGraph.withName, CallGraph.withName, byName_addCall, byName_addCall]
    exact hs.withName name
  · rw [CallGraph.names, CallGraph.names, byName_addCall, byName_addCall]
    exact hs.names

theorem Similar.addCalls (hs : g.Similar h) : (g.addCalls calls).Similar (h.addCalls calls) := by
  induction calls generalizing g h with
  | nil => exact hs
  | cons c calls ih => exact ih (hs.addCall c.1 c.2)

end CallGraph

namespace CallAnalysis

/-! ### Where calls lead -/

variable {g h : CallGraph}

theorem onlyNamed?_congr (hw : ∀ name, (g.withName name).Perm (h.withName name)) (name : String) :
    onlyNamed? g name = onlyNamed? h name := by
  have hp := hw name
  unfold onlyNamed?
  match hg : g.withName name, hh : h.withName name with
  | [], [] => rfl
  | [a], [b] =>
    rw [hg, hh, List.singleton_perm_singleton] at hp
    rw [hp]
  | _ :: _ :: _, _ :: _ :: _ => rfl
  | [], _ :: _ | _ :: _, [] | [_], _ :: _ :: _ | _ :: _ :: _, [_] =>
    rw [hg, hh] at hp
    have := hp.length_eq
    simp at this

/-- Where a call leads depends on which routines there are, whatever the order in which they were
registered. -/
theorem resolve?_congr (hc : ∀ k, g.contains k = h.contains k)
    (hw : ∀ name, (g.withName name).Perm (h.withName name))
    (imports : Table String (List Binding)) (uri : String) (site : CallSite) :
    resolve? g imports uri site = resolve? h imports uri site := by
  have hk : known? g = known? h := funext fun k => by rw [known?, known?, hc]
  unfold resolve?
  rw [onlyNamed?_congr hw]
  simp only [resolvePlain?, resolveQualified?, hk]

/-- The calls of all documents that lead somewhere: the caller and the callee. -/
def callsFrom (g : CallGraph) (imports : Table String (List Binding))
    (sites : Table String (List LinkSite)) : List (RoutineKey × RoutineKey) :=
  sites.entries.flatMap fun e => e.2.filterMap fun s =>
    (resolve? g imports e.1 s.site).map fun callee => (⟨e.1, s.site.scope⟩, callee)

theorem callsFrom_congr (hc : ∀ k, g.contains k = h.contains k)
    (hw : ∀ name, (g.withName name).Perm (h.withName name))
    (imports : Table String (List Binding)) (sites : Table String (List LinkSite)) :
    callsFrom g imports sites = callsFrom h imports sites := by
  have hr : resolve? g imports = resolve? h imports :=
    funext fun uri => funext (resolve?_congr hc hw imports uri)
  rw [callsFrom, callsFrom, hr]

theorem link_eq (imports : Table String (List Binding)) (uri : String) (s : LinkSite) :
    link imports uri g s = g.addCalls ((resolve? g imports uri s.site).map fun callee =>
      ((⟨uri, s.site.scope⟩ : RoutineKey), callee)).toList := by
  unfold link
  cases resolve? g imports uri s.site <;> rfl

/-- Linking the sites of one document adds the calls found before. -/
theorem foldl_link (imports : Table String (List Binding)) (uri : String) (sites : List LinkSite)
    (calls : List (RoutineKey × RoutineKey)) :
    sites.foldl (link imports uri) (g.addCalls calls) =
      g.addCalls (calls ++ sites.filterMap fun s =>
        (resolve? g imports uri s.site).map fun callee => (⟨uri, s.site.scope⟩, callee)) := by
  induction sites generalizing calls with
  | nil => simp
  | cons s sites ih =>
    have hr : resolve? (g.addCalls calls) imports uri s.site = resolve? g imports uri s.site :=
      resolve?_congr (g.contains_addCalls calls) (fun name => by simp [CallGraph.withName]) ..
    rw [List.foldl_cons, link_eq, hr, CallGraph.addCalls, CallGraph.addCalls, ← List.foldl_append]
    refine (ih _).trans ?_
    cases hs : resolve? g imports uri s.site <;> simp [hs]

/-- Relinking adds to the graph without calls all calls that lead somewhere. -/
theorem relink_eq (k : Knowledge) :
    relink k = { k with
      graph := k.graph.clearCalls.addCalls (callsFrom k.graph k.imports k.sites) } := by
  have hr : callsFrom k.graph k.imports k.sites = callsFrom k.graph.clearCalls k.imports k.sites :=
    callsFrom_congr (fun key => (k.graph.contains_clearCalls key).symm) (fun _ => .refl _) ..
  have hl : ∀ (entries : List (String × List LinkSite)) (g : CallGraph)
      (calls : List (RoutineKey × RoutineKey)),
      entries.foldl (fun g e => e.2.foldl (link k.imports e.1) g) (g.addCalls calls) =
        g.addCalls (calls ++ entries.flatMap fun e => e.2.filterMap fun s =>
          (resolve? g k.imports e.1 s.site).map fun callee => (⟨e.1, s.site.scope⟩, callee)) := by
    intro entries g calls
    induction entries generalizing calls with
    | nil => simp
    | cons e entries ih =>
    rw [List.foldl_cons, foldl_link, ih, List.flatMap_cons, List.append_assoc]
  rw [hr]
  exact congrArg (fun graph => { k with graph }) (hl k.sites.entries k.graph.clearCalls [])

/-! ### The routines of a document -/

/-- The routines a document contributes: itself and those it defines. -/
def routinesIn [Python.Recovery] (d : Document) : List RoutineDef :=
  moduleDef d :: d.routines.map (routineDef d)

theorem uri_of_mem_routinesIn [Python.Recovery] {d : Document} {r : RoutineDef}
    (h : r ∈ routinesIn d) : r.key.uri = d.uri := by
  rcases List.mem_cons.1 h with rfl | h
  · rfl
  · obtain ⟨_, _, rfl⟩ := List.mem_map.1 h
    rfl

end CallAnalysis

namespace CallGraph

variable {g h : CallGraph}

theorem clearCalls_foldl_addRoutine (defs : List RoutineDef) (g : CallGraph) :
    (defs.foldl addRoutine g).clearCalls = defs.foldl addRoutine g.clearCalls := by
  induction defs generalizing g with
  | nil => rfl
  | cons d defs ih => rw [List.foldl_cons, ih, clearCalls_addRoutine, List.foldl_cons]

theorem Named.foldl_addRoutine (hg : g.Named) (defs : List RoutineDef) :
    (defs.foldl CallGraph.addRoutine g).Named := by
  induction defs generalizing g with
  | nil => exact hg
  | cons d defs ih => exact ih (hg.addRoutine d)

/-- Routines of one document do not concern the nodes of another. -/
theorem node?_foldl_addRoutine_of_ne {uri : String} {defs : List RoutineDef}
    (hd : ∀ d ∈ defs, d.key.uri = uri) {k : RoutineKey} (hk : k.uri ≠ uri) (g : CallGraph) :
    (defs.foldl addRoutine g).node? k = g.node? k := by
  induction defs generalizing g with
  | nil => rfl
  | cons d defs ih =>
    rw [List.foldl_cons, ih fun e he => hd e (by simp [he]), node?_addRoutine, if_neg]
    rintro rfl
    exact hk (hd d (by simp))

/-- Routines of one document are registered by looking at the nodes of that document only. -/
theorem node?_foldl_addRoutine_congr {uri : String} {defs : List RoutineDef}
    (hd : ∀ d ∈ defs, d.key.uri = uri) (hn : ∀ k, k.uri = uri → g.node? k = h.node? k) :
    ∀ k, k.uri = uri → (defs.foldl addRoutine g).node? k = (defs.foldl addRoutine h).node? k := by
  induction defs generalizing g h with
  | nil => exact hn
  | cons d defs ih =>
    refine ih (fun e he => hd e (by simp [he])) fun k hk => ?_
    rw [node?_addRoutine, node?_addRoutine, hn d.key (hd d (by simp)), hn k hk]

end CallGraph

namespace VariableAnalysis

variable {g h : CallGraph}

/-! ### The accesses of a document -/

/-- The graph with the accesses of the given scopes of a document. -/
def recordScopes (uri : String) (os : List Occurrence) (scopes : List String) (g : CallGraph) :
    CallGraph :=
  scopes.foldl (fun g scope =>
    g.setAccess ⟨uri, scope⟩ (keysIn os scope .read) (keysIn os scope .write)) g

theorem recordAccess_eq (uri : String) (os : List Occurrence) (g : CallGraph) :
    recordAccess uri os g = recordScopes uri os (OrdSet.ofList (os.map (·.scope))).keys g := rfl

variable (uri : String) (os : List Occurrence) (scopes : List String)

theorem node?_recordScopes (g : CallGraph) (k : RoutineKey) :
    (recordScopes uri os scopes g).node? k = (g.node? k).map fun n =>
      if k.uri = uri ∧ k.name ∈ scopes then
        { n with reads := keysIn os k.name .read, writes := keysIn os k.name .write }
      else n := by
  induction scopes generalizing g with
  | nil => simp [recordScopes]
  | cons scope scopes ih =>
    refine (ih _).trans ?_
    rw [CallGraph.node?_setAccess, Option.map_map]
    congr 1
    funext n
    by_cases hk : (⟨uri, scope⟩ : RoutineKey) = k
    · subst hk
      by_cases hs : scope ∈ scopes <;> simp [hs]
    · have hm : k.uri = uri ∧ k.name ∈ scope :: scopes ↔ k.uri = uri ∧ k.name ∈ scopes := by
        refine and_congr_right fun hu => ?_
        rw [List.mem_cons, or_iff_right]
        rintro rfl
        exact hk (by rw [← hu])
      simp only [Function.comp_apply, if_neg hk, hm]

theorem contains_recordScopes (g : CallGraph) (k : RoutineKey) :
    (recordScopes uri os scopes g).contains k = g.contains k := by
  rw [CallGraph.contains_eq, node?_recordScopes, Option.isSome_map, CallGraph.contains_eq]

theorem byName_recordScopes (g : CallGraph) :
    (recordScopes uri os scopes g).byName = g.byName := by
  induction scopes generalizing g with
  | nil => rfl
  | cons scope scopes ih => exact ih _

theorem clearCalls_recordScopes (g : CallGraph) :
    (recordScopes uri os scopes g).clearCalls = recordScopes uri os scopes g.clearCalls := by
  induction scopes generalizing g with
  | nil => rfl
  | cons scope scopes ih =>
    refine (ih _).trans ?_
    rw [CallGraph.clearCalls_setAccess]
    rfl

theorem recordScopes_addCalls (calls : List (RoutineKey × RoutineKey)) (g : CallGraph) :
    recordScopes uri os scopes (g.addCalls calls) =
      (recordScopes uri os scopes g).addCalls calls := by
  induction scopes generalizing g with
  | nil => rfl
  | cons scope scopes ih =>
    unfold recordScopes
    rw [List.foldl_cons, CallGraph.setAccess_addCalls]
    exact ih _

end VariableAnalysis

open CallAnalysis VariableAnalysis

/-- The routines of a document with their accesses, as if there were no other document. -/
def Document.ownGraph [Python.Recovery] (d : Document) : CallGraph :=
  recordAccess d.uri (VariableIndex.ofList d.occurrences).byPosition
    ((routinesIn d).foldl CallGraph.addRoutine .empty)

/-- The graph after a document has been analyzed, given the calls that were found. -/
def CallGraph.analyzed [Python.Recovery] (g : CallGraph) (d : Document)
    (calls : List (RoutineKey × RoutineKey)) : CallGraph :=
  recordAccess d.uri (VariableIndex.ofList d.occurrences).byPosition
    (((routinesIn d).foldl CallGraph.addRoutine (g.removeDocument d.uri)).clearCalls.addCalls calls)

theorem CallGraph.node?_clearCalls_analyzed [Python.Recovery] (g : CallGraph) (d : Document)
    (calls : List (RoutineKey × RoutineKey)) (k : RoutineKey) :
    (g.analyzed d calls).clearCalls.node? k =
      if k.uri = d.uri then d.ownGraph.node? k else g.clearCalls.node? k := by
  have hd : ∀ r ∈ routinesIn d, r.key.uri = d.uri := fun r => uri_of_mem_routinesIn
  rw [analyzed, Document.ownGraph, recordAccess_eq, recordAccess_eq, clearCalls_recordScopes,
    clearCalls_addCalls, clearCalls_clearCalls, clearCalls_foldl_addRoutine, node?_recordScopes,
    node?_recordScopes]
  by_cases hk : k.uri = d.uri
  · rw [if_pos hk, node?_foldl_addRoutine_congr hd (fun k' hk' => ?_) k hk]
    rw [node?_clearCalls_removeDocument, if_pos hk', node?_empty]
  · rw [if_neg hk, node?_foldl_addRoutine_of_ne hd hk, node?_clearCalls_removeDocument, if_neg hk]
    simp [hk]

end RouteScript
