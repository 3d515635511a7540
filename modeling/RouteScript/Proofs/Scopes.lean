import RouteScript.Proofs.CallbackDiagnostics
import RouteScript.Proofs.Parameters
import RouteScript.Proofs.RangeExtraction
import RouteScript.Proofs.VariableDiagnostics

/-!
# Scopes and routines

A scope is found on the way down to a call, the routines of a document by a walk of its own, and
only the name of the one leads to the other.  It always does: what stands in a function stands in a
routine of that name, so no access is lost between the two analyzers.

* `Document.HasScope`: what the scope of a place says about the functions around it.
* `encloses_iff_mem`: the functions around a call are those above it in the tree.
* `CallGraph.RecordsAccesses`: the graph has the routines of a document with all their accesses.
* `scopes_closed`: scopes lead to routines, and accesses are noted where they occur.
-/

namespace RouteScript

open CallAnalysis VariableAnalysis
open Python (Node)

namespace Document

/-- The scope of a place is that of the module if no function definition is around it, and else the
name of the innermost one that is, which is a routine. -/
structure HasScope (d : Document) (s : Span) (scope : String) : Prop where
  module_iff : scope = Node.moduleScope ↔ ∀ f ∈ d.definitions, ¬ f.span.Encloses s
  innermost : scope ≠ Node.moduleScope → ∃ f ∈ d.definitions, f.span.Encloses s ∧
    (∀ g ∈ d.definitions, g.span.Encloses s → f ∈ g.descendants) ∧
    f.functionName? d.text = some scope ∧ ∃ r ∈ d.routines, r.name = scope ∧ r.span = f.span

/-! ### Functions above a call -/

section Above

variable {d : Document} {n f : Node} {above : List Node} {s : Span} {scope name : String}

theorem mem_definitions_iff :
    f ∈ d.definitions ↔ f ∈ d.root.descendants ∧ f.kind = .functionDefinition := by
  rw [definitions, List.mem_filter, beq_iff_eq]

/-- Every function definition has a name, and no other node has. -/
theorem mem_definitions_iff_isSome (hf : f ∈ d.root.descendants) :
    f ∈ d.definitions ↔ (f.functionName? d.text).isSome = true := by
  rw [mem_definitions_iff, and_iff_right hf, ← Routine.name_ofNode?, Option.isSome_map,
    Routine.isSome_ofNode? (d.hasParts_of_mem f hf), beq_iff_eq]

theorem exists_routine_of_functionName? (hf : f ∈ d.root.descendants)
    (hname : f.functionName? d.text = some name) :
    ∃ r ∈ d.routines, r.name = name ∧ r.span = f.span := by
  rw [← Routine.name_ofNode?] at hname
  obtain ⟨r, hr, hname⟩ := Option.map_eq_some_iff.1 hname
  obtain ⟨-, _, _, -, -, -, -, hparts⟩ := parts_of_ofNode? hf hr
  exact ⟨r, List.mem_filterMap.2 ⟨f, hf, hr⟩, hname, by rw [hparts]⟩

/-- The functions around a place in a call are those above the call: a call holds no function. -/
theorem encloses_iff_mem (hline : Node.Lineage d.root (n :: above)) (hk : n.kind = .call)
    (hs : n.span.Encloses s) (hwide : s.start < s.stop) (hf : f ∈ d.definitions) :
    f.span.Encloses s ↔ f ∈ above := by
  obtain ⟨hmem, hkind⟩ := mem_definitions_iff.1 hf
  have hn := hline.mem_descendants n List.mem_cons_self
  constructor
  · intro hin
    have hfb : f.span.Contains s.start := ⟨hin.1, Nat.lt_of_lt_of_le hwide hin.2⟩
    have hnb : n.span.Contains s.start := ⟨hs.1, Nat.lt_of_lt_of_le hwide hs.2⟩
    refine (hline.mem_of_contains d.isPlaced_root hmem hfb hnb).resolve_right fun hbelow => ?_
    rw [Node.descendants_eq] at hbelow
    rcases List.mem_cons.1 hbelow with rfl | hbelow
    · cases hk.symm.trans hkind
    · have hplain := (d.plain_of_call hn hk hbelow).1
      rw [hkind] at hplain
      cases hplain
  · intro hin
    have hbelow := (List.pairwise_cons.1 hline.pairwise).1 f hin
    have hp := (Node.placed_of_mem_descendants d.isPlaced_root hmem).1
    obtain ⟨-, hlow, hhigh⟩ := Node.placed_of_mem_descendants hp hbelow
    exact ⟨Nat.le_trans hlow hs.1, Nat.le_trans hs.2 hhigh⟩

/-- A place in a call has the scope of the call. -/
theorem hasScope_of_lineage (hline : Node.Lineage d.root (n :: above)) (hk : n.kind = .call)
    (hs : n.span.Encloses s) (hwide : s.start < s.stop) :
    d.HasScope s (Node.scopeIn d.text above) := by
  have hmem : ∀ f ∈ above, f ∈ d.root.descendants := fun f hf =>
    hline.mem_descendants f (List.mem_cons_of_mem n hf)
  have haround : ∀ f ∈ d.definitions, f.span.Encloses s ↔ f ∈ above := fun f =>
    encloses_iff_mem hline hk hs hwide
  rw [Node.scopeIn]
  cases hfind : above.findSome? (·.functionName? d.text) with
  | none =>
    refine ⟨iff_of_true rfl fun f hf hin => ?_, fun hne => absurd rfl hne⟩
    have habove := (haround f hf).1 hin
    have hnone := List.findSome?_eq_none_iff.1 hfind f habove
    rw [mem_definitions_iff_isSome (hmem f habove), hnone] at hf
    cases hf
  | some name =>
    obtain ⟨inner, f, outer, rfl, hname, hinner⟩ := List.findSome?_eq_some_iff.1 hfind
    have hfd := hmem f (by simp)
    have hf : f ∈ d.definitions :=
      (mem_definitions_iff_isSome hfd).2 (Option.isSome_of_eq_some hname)
    have hin : f.span.Encloses s := (haround f hf).2 (by simp)
    obtain ⟨r, hr, hrname, hspan⟩ := exists_routine_of_functionName? hfd hname
    refine ⟨iff_of_false ?_ fun hnone => hnone f hf hin, fun _ =>
      ⟨f, hf, hin, fun g hg hgin => ?_, hname, r, hr, hrname, hspan⟩⟩
    · exact hrname ▸ name_ne_moduleScope hr
    · -- the nodes further in are no functions, and the function is below those further out
      rcases List.mem_append.1 ((haround g hg).1 hgin) with hgi | hgo
      · rw [mem_definitions_iff_isSome (hmem g (List.mem_append_left _ hgi)), hinner g hgi] at hg
        cases hg
      · rcases List.mem_cons.1 hgo with rfl | hgo
        · exact g.mem_descendants_self
        · have hpairs := (List.pairwise_append.1 (List.pairwise_cons.1 hline.pairwise).2).2.1
          exact (List.pairwise_cons.1 hpairs).1 g hgo

theorem hasScope_of_mem_withScopes (h : (scope, n) ∈ d.root.withScopes d.text Node.moduleScope)
    (hk : n.kind = .call) (hs : n.span.Encloses s) (hwide : s.start < s.stop) :
    d.HasScope s scope := by
  obtain ⟨above, hline, rfl⟩ := Node.exists_lineage h .root
  exact hasScope_of_lineage hline hk hs hwide

end Above

/-! ### The scopes of calls and occurrences -/

section Scopes

variable {d : Document}

theorem hasScope_of_mem_callSites {s : CallSite} (h : s ∈ d.callSites) :
    d.HasScope s.span s.scope := by
  obtain ⟨⟨scope, n⟩, hn, hs⟩ := List.mem_filterMap.1 h
  obtain ⟨hk, hscope, hspan⟩ := CallSite.place_ofNode? hs
  rw [hscope, hspan]
  have hwide := d.start_lt_of_call (Node.mem_descendants_of_mem_withScopes hn) hk
  exact hasScope_of_mem_withScopes hn hk ⟨Nat.le_refl _, Nat.le_refl _⟩ hwide

/-- A place in a call of the routing engine has the scope of the call. -/
theorem hasScope_of_mem_engineCalls {c : EngineCall} {s : Span} (h : c ∈ d.engineCalls)
    (hs : c.callSpan.Encloses s) (hwide : s.start < s.stop) : d.HasScope s c.scope := by
  obtain ⟨⟨scope, n⟩, hn, hc⟩ := List.mem_filterMap.1 h
  obtain ⟨hk, hscope, hspan, -⟩ :=
    EngineCall.ofNode?_cases (shaped_placed_of_mem_withScopes hn).1 hc
  rw [hspan] at hs
  rw [hscope]
  exact hasScope_of_mem_withScopes hn hk hs hwide

theorem hasScope_callSpan {c : EngineCall} (h : c ∈ d.engineCalls) :
    d.HasScope c.callSpan c.scope := by
  obtain ⟨-, n, -, -, -, hspan, hwide⟩ := exists_node_of_mem_engineCalls h
  exact hasScope_of_mem_engineCalls h ⟨Nat.le_refl _, Nat.le_refl _⟩ (hspan ▸ hwide)

/-- An occurrence lies in a call and has its scope. -/
theorem hasScope_of_mem_occurrences {o : Occurrence} (h : o ∈ d.occurrences) :
    d.HasScope o.span o.scope ∧
      ∃ c ∈ d.engineCalls, c.callSpan.Encloses o.span ∧ c.scope = o.scope := by
  obtain ⟨c, hmem, ho⟩ := List.mem_flatMap.1 h
  obtain ⟨scope, n, hn, hc, -, hspan, -⟩ := exists_node_of_mem_engineCalls hmem
  obtain ⟨hs, hp⟩ := shaped_placed_of_mem_withScopes hn
  obtain ⟨hlow, hhigh⟩ := EngineCall.contentSpan_within hs hp hc
  obtain ⟨hstart, hwide, hstop⟩ := span_of_mem_ofCall hmem ho
  have hin : c.callSpan.Encloses o.span := by
    rw [hspan]
    exact ⟨by omega, by omega⟩
  have hscope := Occurrence.scope_of_mem_ofCall ho
  rw [hscope]
  exact ⟨hasScope_of_mem_engineCalls hmem hin hwide, c, hmem, hin, rfl⟩

/-- Where a place has a scope, the document has a routine for it, or it is that of the module. -/
theorem HasScope.exists_routine {s : Span} {scope : String} (h : d.HasScope s scope) :
    scope = Node.moduleScope ∨ ∃ r ∈ d.routines, r.name = scope := by
  by_cases hm : scope = Node.moduleScope
  · exact .inl hm
  · obtain ⟨_, -, -, -, -, r, hr, hname, -⟩ := h.innermost hm
    exact .inr ⟨r, hr, hname⟩

end Scopes

end Document

/-! ### The accesses in the graph -/

/-- The graph has as routines of the document the module and one for each name of a function, with
the keys of what is read and written in the scopes of that name. -/
structure CallGraph.RecordsAccesses (g : CallGraph) (d : Document) : Prop where
  contains_iff (name : String) : g.contains ⟨d.uri, name⟩ = true ↔
    name = Node.moduleScope ∨ ∃ r ∈ d.routines, r.name = name
  reads_iff {name : String} {n : CallNode} (hn : g.node? ⟨d.uri, name⟩ = some n) (key : String) :
    n.reads.contains key = true ↔
      ∃ o ∈ d.occurrences, o.scope = name ∧ o.access = .read ∧ o.key = key
  writes_iff {name : String} {n : CallNode} (hn : g.node? ⟨d.uri, name⟩ = some n) (key : String) :
    n.writes.contains key = true ↔
      ∃ o ∈ d.occurrences, o.scope = name ∧ o.access = .write ∧ o.key = key

namespace Knowledge

variable (d : Document) (k : Knowledge)

/-- What the graph has on a document after its analysis, the calls apart. -/
theorem node?_clearCalls_analyze (name : String) :
    (VariableAnalysis.analyze d (CallAnalysis.analyze d k)).graph.clearCalls.node? ⟨d.uri, name⟩ =
      d.ownGraph.node? ⟨d.uri, name⟩ := by
  rw [graph_analyze, CallGraph.node?_clearCalls_analyzed, if_pos rfl]

theorem contains_graph_analyze (name : String) :
    (VariableAnalysis.analyze d (CallAnalysis.analyze d k)).graph.contains ⟨d.uri, name⟩ = true ↔
      name = Node.moduleScope ∨ ∃ r ∈ d.routines, r.name = name := by
  rw [← CallGraph.contains_clearCalls, CallGraph.contains_eq, node?_clearCalls_analyze,
    ← CallGraph.contains_eq, contains_ownGraph, exists_mem_routinesIn_iff, and_iff_right rfl]

theorem recordsAccesses_analyze :
    (VariableAnalysis.analyze d (CallAnalysis.analyze d k)).graph.RecordsAccesses d := by
  have haccess : ∀ {name n}, (VariableAnalysis.analyze d (CallAnalysis.analyze d k)).graph.node?
      ⟨d.uri, name⟩ = some n → d.ownGraph.node? ⟨d.uri, name⟩ = some n.bare := by
    intro name n hn
    rw [← node?_clearCalls_analyze d k, CallGraph.node?_clearCalls, hn]
    rfl
  refine ⟨contains_graph_analyze d k, fun hn key => ?_, fun hn key => ?_⟩
  · rw [← Document.contains_keysIn, ← (Document.accesses_of_ownGraph (haccess hn)).1]
    rfl
  · rw [← Document.contains_keysIn, ← (Document.accesses_of_ownGraph (haccess hn)).2]
    rfl

/-- At whatever point accesses are noted, the routines in which variables occur are there. -/
theorem contains_scope_analyze {o : Occurrence} (ho : o ∈ d.occurrences) (noted : List String) :
    (recordScopes d.uri (VariableIndex.ofList d.occurrences).byPosition noted
      (CallAnalysis.analyze d k).graph).contains ⟨d.uri, o.scope⟩ = true := by
  have hscope := (Document.hasScope_of_mem_occurrences ho).1.exists_routine
  have hgraph := (contains_graph_analyze d k o.scope).2 hscope
  rw [VariableAnalysis.analyze, recordAccess_eq, contains_recordScopes] at hgraph
  rw [contains_recordScopes, hgraph]

end Knowledge

/-- **Scopes lead to routines.**  The scope of each call of the routing engine, of each occurrence
of a variable and of each call site is that of the module, if no function definition is around it,
or the name of the innermost one that is, which is a routine with that span.  So the call graph
knows the routine whenever accesses are noted, and after both analyzers have seen the document it
has for each routine of the document the keys that are read and written in its scope. -/
theorem Document.scopes_closed (d : Document) (k : Knowledge) :
    (∀ c ∈ d.engineCalls, d.HasScope c.callSpan c.scope) ∧
    (∀ o ∈ d.occurrences, d.HasScope o.span o.scope ∧
      ∃ c ∈ d.engineCalls, c.callSpan.Encloses o.span ∧ c.scope = o.scope) ∧
    (∀ s ∈ d.callSites, d.HasScope s.span s.scope) ∧
    (∀ o ∈ d.occurrences, ∀ noted,
      (recordScopes d.uri (VariableIndex.ofList d.occurrences).byPosition noted
        (CallAnalysis.analyze d k).graph).contains ⟨d.uri, o.scope⟩ = true) ∧
    (VariableAnalysis.analyze d (CallAnalysis.analyze d k)).graph.RecordsAccesses d :=
  ⟨fun _ => hasScope_callSpan, fun _ => hasScope_of_mem_occurrences,
    fun _ => hasScope_of_mem_callSites, fun _ => k.contains_scope_analyze d,
    k.recordsAccesses_analyze d⟩

-- a decorator stands outside of its function, a default value inside
example : (Document.ofText "u:a" ("@KSR.x.y('d')\ndef f(a=KSR.pv.get('$var(a)')):\n" ++
    "    def g(): KSR.pv.seti('$var(b)', a)\n").toList 0).engineCalls.map (·.scope) =
      ["<module>", "f", "g"] := by
  decide +kernel

end RouteScript
