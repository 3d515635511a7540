import RouteScript.Proofs.CallGraphHistory
import RouteScript.Proofs.Knowledge
import RouteScript.Proofs.Paths

/-!
# The calls in the graph

The graph notes a call for each call site that leads somewhere, and no other.  A call is noted only
between routines that have nodes; both ends of a resolved call do, since a call is resolved among
the nodes and since the scope of a call site is the document itself or a function that it defines.

* `calls_addCalls`, `linked_addCalls`: the calls of a graph to which calls were added.
* `contains_of_resolve?`: a call leads to a routine of the graph.
* `scope_of_mem_callSites`: a call site lies in the document itself or in a function it defines.
* `Knowledge.Current.mem_callers_iff`, `mem_callees_iff`: callers and callees in knowledge that is
  up to date.
-/

namespace RouteScript

namespace CallGraph

variable {g : CallGraph}

/-! ### Adding calls -/

theorem calls_addCalls (added : List (RoutineKey × RoutineKey)) (g : CallGraph) (a b : RoutineKey) :
    calls (g.addCalls added).nodes a b = true ↔
      calls g.nodes a b = true ∨
        ((a, b) ∈ added ∧ g.contains a = true ∧ g.contains b = true) := by
  induction added generalizing g with
  | nil => simp [addCalls]
  | cons c added ih =>
    have ih' := ih (g.addCall c.1 c.2)
    simp only [contains_addCall, calls_addCall, Bool.or_eq_true, Bool.and_eq_true,
      decide_eq_true_iff] at ih'
    refine ih'.trans ?_
    rw [List.mem_cons, Prod.ext_iff]
    constructor
    · rintro ((h | ⟨⟨ha, hb⟩, rfl, rfl⟩) | h)
      · exact .inl h
      · exact .inr ⟨.inl ⟨rfl, rfl⟩, ha, hb⟩
      · exact .inr ⟨.inr h.1, h.2⟩
    · rintro (h | ⟨⟨rfl, rfl⟩ | h, ha, hb⟩)
      · exact .inl (.inl h)
      · exact .inl (.inr ⟨⟨ha, hb⟩, rfl, rfl⟩)
      · exact .inr ⟨h, ha, hb⟩

theorem linked_addCalls (h : Linked g.nodes) (added : List (RoutineKey × RoutineKey)) :
    Linked (g.addCalls added).nodes := by
  induction added generalizing g with
  | nil => exact h
  | cons c added ih => exact ih (linked_addCall h c.1 c.2)

theorem not_calls_clearCalls (a b : RoutineKey) : ¬ calls g.clearCalls.nodes a b = true := by
  intro h
  obtain ⟨n, hn, hb⟩ := (Option.any_eq_true ..).1 h
  obtain ⟨m, -, rfl⟩ := Option.map_eq_some_iff.1 ((g.node?_clearCalls a).symm.trans hn)
  cases hb

end CallGraph

/-! ### The ends of a call -/

namespace CallAnalysis

variable {g : CallGraph}

theorem known?_eq_some {key key' : RoutineKey} (h : known? g key = some key') :
    key' = key ∧ g.contains key = true := by
  unfold known? at h
  split at h
  · rename_i hc
    exact ⟨(Option.some.inj h).symm, hc⟩
  · cases h

theorem contains_of_known? {key key' : RoutineKey} (h : known? g key = some key') :
    g.contains key' = true := by
  obtain ⟨rfl, hc⟩ := known?_eq_some h
  exact hc

theorem contains_of_resolvePlain? {bindings : List Binding} {uri callee : String}
    {key : RoutineKey} (h : resolvePlain? g bindings uri callee = some key) :
    g.contains key = true := by
  rw [resolvePlain?, Option.orElse_eq_some] at h
  rcases h with h | ⟨-, h⟩
  · exact contains_of_known? h
  · rw [Option.orElse_eq_some] at h
    rcases h with h | ⟨-, h⟩
    · obtain ⟨target, -, h⟩ := Option.bind_eq_some_iff.1 h
      obtain ⟨remote, -, h⟩ := Option.bind_eq_some_iff.1 h
      exact contains_of_known? h
    · obtain ⟨b, -, h⟩ := List.exists_of_findSome?_eq_some h
      split at h
      · obtain ⟨module, -, h⟩ := Option.bind_eq_some_iff.1 h
        exact contains_of_known? h
      · cases h

/-- A call leads to a routine of the graph. -/
theorem contains_of_resolve? (hg : g.Named) {imports : Table String (List Binding)} {uri : String}
    {site : CallSite} {key : RoutineKey} (h : resolve? g imports uri site = some key) :
    g.contains key = true := by
  rw [resolve?, Option.orElse_eq_some] at h
  rcases h with h | ⟨-, h⟩
  · cases hq : site.qualifier with
    | none =>
      rw [hq] at h
      exact contains_of_resolvePlain? h
    | some path =>
      rw [hq] at h
      obtain ⟨module, -, h⟩ := Option.bind_eq_some_iff.1 h
      exact contains_of_known? h
  · unfold onlyNamed? at h
    split at h
    · rename_i only ho
      cases h
      exact ((hg.mem_iff site.callee key).1 (ho ▸ List.mem_singleton_self key)).2
    · cases h

end CallAnalysis

open Python (Node)

theorem Routine.name_ofNode? (t : Text) (n : Node) :
    (Routine.ofNode? t n).map (·.name) = n.functionName? t := by
  unfold Routine.ofNode? Node.functionName?
  cases hk : n.kind == .functionDefinition with
  | false => rfl
  | true => cases n.child? .name <;> rfl

theorem CallSite.place_ofNode? {t : Text} {scope : String} {n : Node} {s : CallSite}
    (h : CallSite.ofNode? t scope n = some s) :
    n.kind = .call ∧ s.scope = scope ∧ s.span = n.span := by
  simp only [ofNode?, Option.bind_eq_bind, Option.bind_eq_some_iff, Option.guard_eq_some',
    beq_iff_eq, Option.some.injEq] at h
  obtain ⟨-, hk, -, -, -, -, rfl⟩ := h
  exact ⟨hk, rfl, rfl⟩

namespace Document

/-- A call site lies in the document itself or in a routine that it defines. -/
theorem scope_of_mem_callSites [Python.Recovery] {d : Document} {s : CallSite}
    (h : s ∈ d.callSites) : s.scope = Node.moduleScope ∨ ∃ r ∈ d.routines, r.name = s.scope := by
  obtain ⟨⟨scope, n⟩, hn, hs⟩ := List.mem_filterMap.1 h
  rw [(CallSite.place_ofNode? hs).2.1]
  obtain ⟨above, hline, rfl⟩ := Node.exists_lineage hn .root
  rcases Node.scopeIn_cases d.text above with hm | ⟨f, hf, hname⟩
  · exact .inl hm
  · rw [← Routine.name_ofNode?] at hname
    obtain ⟨r, hr, hname⟩ := Option.map_eq_some_iff.1 hname
    have hf := hline.mem_descendants f (List.mem_cons_of_mem n hf)
    exact .inr ⟨r, List.mem_filterMap.2 ⟨f, hf, hr⟩, hname⟩

end Document

/-! ### Callers and callees -/

namespace CallGraph

theorem contains_foldl_addRoutine (defs : List RoutineDef) (g : CallGraph) (key : RoutineKey) :
    (defs.foldl addRoutine g).contains key = true ↔
      (∃ r ∈ defs, r.key = key) ∨ g.contains key = true := by
  induction defs generalizing g with
  | nil => simp
  | cons d defs ih =>
    rw [List.foldl_cons, ih, contains_addRoutine]
    simp only [List.mem_cons, exists_eq_or_imp, Bool.or_eq_true, decide_eq_true_iff,
      eq_comm (a := key)]
    rw [or_left_comm, or_assoc]

end CallGraph

namespace Knowledge

open CallAnalysis VariableAnalysis

variable [Python.Recovery] {store : Store} {roots : List Path} {k : Knowledge}

theorem contains_ownGraph (d : Document) (key : RoutineKey) :
    d.ownGraph.contains key = true ↔ ∃ r ∈ routinesIn d, r.key = key := by
  rw [Document.ownGraph, recordAccess_eq, contains_recordScopes,
    CallGraph.contains_foldl_addRoutine]
  simp [CallGraph.contains_eq]

/-- The routines of the graph are those of the stored documents. -/
theorem Current.contains_graph_iff (h : k.Current ⟨store, roots⟩) {key : RoutineKey} :
    k.graph.contains key = true ↔
      ∃ d, store.get? key.uri = some d ∧ ∃ r ∈ routinesIn d, r.key = key := by
  rw [← CallGraph.contains_clearCalls, CallGraph.contains_eq, h.routines]
  cases store.get? key.uri with
  | none => simp
  | some d =>
    simp only [Option.bind_some, Option.some.injEq, exists_eq_left']
    exact contains_ownGraph d key

theorem Current.get?_sites (h : k.Current ⟨store, roots⟩) (uri : String) :
    k.sites.get? uri = (store.get? uri).map linkSites := by
  rw [h.sites, Table.get?_mapValues]
  rfl

theorem Current.usesOf_sites (h : k.Current ⟨store, roots⟩) {uri : String} {d : Document}
    (hd : store.get? uri = some d) : k.sites.usesOf uri = linkSites d := by
  rw [h.sites]
  exact Store.usesOf_mapValues linkSites hd

/-- The routine that a call site of a stored document lies in has a node. -/
theorem Current.contains_caller (h : k.Current ⟨store, roots⟩) (hk : store.Keyed) {uri : String}
    {d : Document} (hd : store.get? uri = some d) {s : CallSite} (hs : s ∈ d.callSites) :
    k.graph.contains ⟨uri, s.scope⟩ = true := by
  rw [h.contains_graph_iff]
  refine ⟨d, hd, ?_⟩
  obtain rfl := hk uri d hd
  rcases d.scope_of_mem_callSites hs with hm | ⟨r, hr, hn⟩
  · exact ⟨moduleDef d, List.mem_cons_self, by rw [hm]; rfl⟩
  · exact ⟨routineDef d r, List.mem_cons_of_mem _ (List.mem_map_of_mem hr), by rw [← hn]; rfl⟩

theorem Current.mem_callsFrom_iff (h : k.Current ⟨store, roots⟩) {a b : RoutineKey} :
    (a, b) ∈ callsFrom k.graph k.imports k.sites ↔
      ∃ d, store.get? a.uri = some d ∧ ∃ s ∈ d.callSites, s.scope = a.name ∧
        resolve? k.graph k.imports a.uri s = some b := by
  simp only [callsFrom, List.mem_flatMap, List.mem_filterMap, Option.map_eq_some_iff, Prod.exists,
    Table.mem_entries_iff, h.get?_sites, linkSites]
  constructor
  · rintro ⟨uri, _, ⟨d, hd, rfl⟩, _, hs, key, hr, heq⟩
    obtain ⟨s, hm, rfl⟩ := List.mem_map.1 hs
    cases heq
    exact ⟨d, hd, s, hm, rfl, hr⟩
  · rintro ⟨d, hd, s, hs, hscope, hr⟩
    refine ⟨a.uri, _, ⟨d, hd, rfl⟩, _, List.mem_map_of_mem hs, b, hr, ?_⟩
    rw [hscope]

theorem Current.linked (h : k.Current ⟨store, roots⟩) : CallGraph.Linked k.graph.nodes := by
  rw [h.calls]
  exact CallGraph.linked_addCalls k.graph.linked_clearCalls _

/-- The routines that a routine calls are those that its call sites lead to. -/
theorem Current.mem_callees_iff (h : k.Current ⟨store, roots⟩) (hk : store.Keyed)
    {a b : RoutineKey} : b ∈ k.graph.callees a ↔
      ∃ d, store.get? a.uri = some d ∧ ∃ s ∈ d.callSites, s.scope = a.name ∧
        resolve? k.graph k.imports a.uri s = some b := by
  rw [← h.mem_callsFrom_iff, CallGraph.mem_callees_iff]
  nth_rewrite 1 [h.calls]
  rw [CallGraph.calls_addCalls, or_iff_right (CallGraph.not_calls_clearCalls a b)]
  refine ⟨And.left, fun hm => ⟨hm, ?_, ?_⟩⟩
  · obtain ⟨d, hd, s, hs, hscope, -⟩ := h.mem_callsFrom_iff.1 hm
    have hc := h.contains_caller hk hd hs
    rw [hscope] at hc
    rwa [CallGraph.contains_clearCalls]
  · obtain ⟨d, -, s, -, -, hr⟩ := h.mem_callsFrom_iff.1 hm
    rw [CallGraph.contains_clearCalls]
    exact contains_of_resolve? h.named hr

/-- A routine is called by those that it is a callee of. -/
theorem Current.mem_callers_iff (h : k.Current ⟨store, roots⟩) {a b : RoutineKey} :
    a ∈ k.graph.callers b ↔ b ∈ k.graph.callees a := by
  rw [CallGraph.mem_callers_iff, CallGraph.mem_callees_iff, h.linked]

end Knowledge

end RouteScript
