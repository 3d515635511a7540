import RouteScript.Proofs.Run
import RouteScript.Proofs.VariableIndex

/-!
# The findings about variables

A variable that is read is looked for among the writes in three places: the index of the document,
the graph of calls and the indexes of all documents.  The graph holds what the indexes hold, so all
of this comes down to one question: does a stored document write the variable?

* `Knowledge.Current.isWritten_iff`: the tests together answer this question.
* `diagnostics_run`: after every run, the findings about a document are one for each of its
  occurrences that deserves one, by position, and no others.
-/

namespace RouteScript

open CallAnalysis VariableAnalysis

/-- Some stored document writes the variable. -/
def Store.Writes [Python.Recovery] (store : Store) (key : String) : Prop :=
  ∃ uri d, store.get? uri = some d ∧ ∃ o ∈ d.occurrences, o.access = .write ∧ o.key = key

instance [Python.Recovery] (store : Store) (key : String) : Decidable (store.Writes key) :=
  decidable_of_iff
    (∃ d ∈ store.documents.values, ∃ o ∈ d.occurrences, o.access = .write ∧ o.key = key)
    Store.exists_mem_values_iff

theorem Category.isKnown_iff {cls : String} :
    isKnown cls = true ↔ ∃ c : Category, cls ∈ c.classes := by
  rw [isKnown, ofClass?, List.find?_isSome]
  constructor
  · rintro ⟨c, -, hc⟩
    exact ⟨c, List.contains_iff_mem.1 hc⟩
  · rintro ⟨c, hc⟩
    have hall : c ∈ all := by cases c <;> decide
    exact ⟨c, hall, List.contains_iff_mem.2 hc⟩

instance (cls : String) : Decidable (∃ c : Category, cls ∈ c.classes) :=
  decidable_of_iff _ Category.isKnown_iff

/-! ### What the graph says about writes -/

namespace CallGraph

/-- A routine that was only registered accesses nothing. -/
theorem accesses_foldl_addRoutine (defs : List RoutineDef) {g : CallGraph}
    (hg : ∀ k n, g.node? k = some n → n.reads = .empty ∧ n.writes = .empty) :
    ∀ k n, (defs.foldl addRoutine g).node? k = some n → n.reads = .empty ∧ n.writes = .empty := by
  induction defs generalizing g with
  | nil => exact hg
  | cons d defs ih =>
    refine ih fun k n hn => ?_
    rw [node?_addRoutine] at hn
    split at hn
    · cases hn
      cases hd : g.node? d.key with
      | none => exact ⟨rfl, rfl⟩
      | some n => exact hg d.key n hd
    · exact hg k n hn

theorem exists_of_transitiveWrites {g : CallGraph} {k : RoutineKey} {key : String}
    (h : (g.transitiveWrites k).contains key = true) :
    ∃ k' n, g.node? k' = some n ∧ n.writes.contains key = true := by
  rw [transitiveWrites, transitive, OrdSet.contains_ofList, decide_eq_true_iff] at h
  obtain ⟨n, hn, hw⟩ := List.mem_flatMap.1 h
  obtain ⟨k', -, hk'⟩ := List.mem_filterMap.1 hn
  exact ⟨k', n, hk', Table.mem_keys_iff.1 hw⟩

theorem exists_of_hasWrite {g : CallGraph} {key : String} (h : g.hasWrite key = true) :
    ∃ k n, g.node? k = some n ∧ n.writes.contains key = true := by
  obtain ⟨n, hn, hw⟩ := List.any_eq_true.1 h
  obtain ⟨k, hk⟩ := Table.mem_values_iff.1 hn
  exact ⟨k, n, hk, hw⟩

end CallGraph

namespace Document

variable [Python.Recovery] {d : Document} {k : RoutineKey} {n : CallNode} {key : String}

/-- The accesses noted for a document's own routines are the keys that occur in their scopes. -/
theorem accesses_of_ownGraph (hn : d.ownGraph.node? k = some n) :
    n.reads = keysIn (VariableIndex.ofList d.occurrences).byPosition k.name .read ∧
      n.writes = keysIn (VariableIndex.ofList d.occurrences).byPosition k.name .write := by
  rw [ownGraph, recordAccess_eq, node?_recordScopes] at hn
  obtain ⟨m, hm, rfl⟩ := Option.map_eq_some_iff.1 hn
  have hu : k.uri = d.uri := by
    by_contra hne
    rw [CallGraph.node?_foldl_addRoutine_of_ne (fun r => uri_of_mem_routinesIn) hne] at hm
    cases hm
  split
  · exact ⟨rfl, rfl⟩
  · -- nothing occurs in the scope
    rename_i hscope
    have hnone : ∀ access,
        keysIn (VariableIndex.ofList d.occurrences).byPosition k.name access = .empty := by
      intro access
      rw [keysIn, List.filter_eq_nil_iff.2]
      · rfl
      · intro o ho hk
        refine hscope ⟨hu, Table.mem_keys_iff.2 ?_⟩
        obtain ⟨hs, -⟩ := Bool.and_eq_true_iff.1 hk
        rw [← beq_iff_eq.1 hs]
        simpa using List.mem_map_of_mem ho
    rw [hnone, hnone]
    exact CallGraph.accesses_foldl_addRoutine (routinesIn d) (fun _ _ h => by cases h) k m hm

theorem contains_keysIn {scope : String} {access : Access} :
    (keysIn (VariableIndex.ofList d.occurrences).byPosition scope access).contains key = true ↔
      ∃ o ∈ d.occurrences, o.scope = scope ∧ o.access = access ∧ o.key = key := by
  simp only [keysIn, OrdSet.contains_ofList, decide_eq_true_eq, List.mem_map, List.mem_filter,
    Bool.and_eq_true, beq_iff_eq, VariableIndex.mem_byPosition_ofList, and_assoc]

/-- What a document's own routines write, the document writes. -/
theorem writes_of_ownGraph (hn : d.ownGraph.node? k = some n) (hw : n.writes.contains key = true) :
    ∃ o ∈ d.occurrences, o.access = .write ∧ o.key = key := by
  rw [(accesses_of_ownGraph hn).2] at hw
  obtain ⟨o, ho, -, hwrites⟩ := contains_keysIn.1 hw
  exact ⟨o, ho, hwrites⟩

end Document

namespace Knowledge

variable [Python.Recovery] {view : View} {k : Knowledge}

/-- What a routine of the graph writes, a stored document writes. -/
theorem Current.writes_of_node? (h : k.Current view) {routine : RoutineKey} {n : CallNode}
    {key : String} (hn : k.graph.node? routine = some n) (hw : n.writes.contains key = true) :
    view.store.Writes key := by
  have hbare := h.routines routine
  rw [CallGraph.node?_clearCalls, hn] at hbare
  obtain ⟨d, hd, hown⟩ := Option.bind_eq_some_iff.1 hbare.symm
  exact ⟨routine.uri, d, hd, d.writes_of_ownGraph hown hw⟩

theorem Current.get?_indexes (h : k.Current view) (uri : String) :
    k.indexes.get? uri = (view.store.get? uri).map fun d => .ofList d.occurrences := by
  rw [h.indexes, Table.get?_mapValues]
  rfl

/-- A write in one of the indexes is a write in a stored document. -/
theorem Current.writes_of_index (h : k.Current view) {uri key : String} {index : VariableIndex}
    (hi : k.indexes.get? uri = some index) (hw : (index.firstWrite? key).isSome = true) :
    view.store.Writes key := by
  rw [h.get?_indexes] at hi
  obtain ⟨d, hd, rfl⟩ := Option.map_eq_some_iff.1 hi
  exact ⟨uri, d, hd, VariableIndex.isSome_firstWrite?_ofList.1 hw⟩

/-- The tests for a write answer whether some stored document writes the variable, from whichever
routine they are made. -/
theorem Current.isWritten_iff (h : k.Current view) (uri scope key : String) :
    isWritten k uri scope key = true ↔ view.store.Writes key := by
  simp only [isWritten, Bool.or_eq_true]
  constructor
  · rintro (((hlocal | htransitive) | hgraph) | hindexes)
    · obtain ⟨index, hi, hw⟩ := Option.any_eq_true .. |>.1 hlocal
      exact h.writes_of_index hi hw
    · obtain ⟨routine, n, hn, hw⟩ := CallGraph.exists_of_transitiveWrites htransitive
      exact h.writes_of_node? hn hw
    · obtain ⟨routine, n, hn, hw⟩ := CallGraph.exists_of_hasWrite hgraph
      exact h.writes_of_node? hn hw
    · obtain ⟨index, hm, hw⟩ := List.any_eq_true.1 hindexes
      obtain ⟨uri', hi⟩ := Table.mem_values_iff.1 hm
      exact h.writes_of_index hi hw
  · rintro ⟨uri', d, hd, hw⟩
    have hi : k.indexes.get? uri' = some (.ofList d.occurrences) := by
      rw [h.get?_indexes, hd]
      rfl
    refine .inr (List.any_eq_true.2 ⟨_, Table.mem_values_iff.2 ⟨uri', hi⟩, ?_⟩)
    exact VariableIndex.isSome_firstWrite?_ofList.2 hw

end Knowledge

/-! ### The findings -/

/-- The finding that an occurrence deserves: its class is in no table, or it reads a variable that
scripts assign and that no stored document writes. -/
def Occurrence.expected? [Python.Recovery] (store : Store) (o : Occurrence) : Option Diagnostic :=
  if ¬ ∃ c : Category, o.var.className ∈ c.classes then
    some (.ofFinding o.range .warning "pv-unknown-class"
      ("Unknown pseudo-variable class `$" ++ o.var.className ++ "`"))
  else if o.access = .read ∧ o.var.category.isWritable = true ∧ ¬ store.Writes o.key then
    some (.ofFinding o.range .warning "pv-never-written"
      ("`" ++ String.ofList o.var.matched ++ "` is read but never written"))
  else none

namespace Knowledge

variable [Python.Recovery] {view : View} {k : Knowledge}

theorem Current.finding?_eq (h : k.Current view) (uri : String) (o : Occurrence) :
    finding? k uri o = o.expected? view.store := by
  have hread : o.isWrite = false ↔ o.access = .read := by
    rw [Occurrence.isWrite]
    cases o.access <;> decide
  unfold finding? Occurrence.expected?
  simp only [← Category.isKnown_iff, ← h.isWritten_iff uri o.scope o.key, ← hread]
  cases Category.isKnown o.var.className <;> cases o.isWrite <;>
    cases o.var.category.isWritable <;> cases isWritten k uri o.scope o.key <;> rfl

/-- The findings about a stored document, from knowledge that is up to date. -/
theorem Current.diagnostics_eq (h : k.Current view) {d : Document}
    (hd : view.store.get? d.uri = some d) :
    VariableAnalysis.diagnostics k d =
      (d.occurrences.mergeSort VariableIndex.startsNoLater).filterMap
        (·.expected? view.store) := by
  have hf : finding? k d.uri = (·.expected? view.store) := funext (h.finding?_eq d.uri)
  rw [VariableAnalysis.diagnostics, occurrencesOf, h.get?_indexes, hd, hf,
    ← VariableIndex.byPosition_ofList]
  rfl

end Knowledge

namespace Session

/-- **The findings about variables are exact.**  After every run, a stored document is told of each
of its occurrences what it deserves to be told, once and by position, and nothing else; and the
tests for a write see the writes of the stored documents and no others. -/
theorem variableDiagnostics_run [Python.Recovery] (config : Config) (es : List Event)
    {uri : String} {d : Document} (hd : (run config es).store.get? uri = some d) :
    VariableAnalysis.analyzer.diagnostics (run config es).knowledge d =
        .value ((d.occurrences.mergeSort VariableIndex.startsNoLater).filterMap
          (·.expected? (run config es).store)) ∧
      ∀ scope key, isWritten (run config es).knowledge uri scope key = true ↔
        (run config es).store.Writes key := by
  have hs := sound_run config es
  obtain ⟨roots, hc⟩ := hs.current
  have hu : d.uri = uri := hs.keyed uri d hd
  refine ⟨congrArg Outcome.value (hc.diagnostics_eq (hu ▸ hd)), fun scope key => ?_⟩
  exact hc.isWritten_iff uri scope key

/-- A script that reads a variable and does not write it. -/
def unwrittenRead : Text := "KSR.pv.get('$var(a)')".toList

/-- The read is reported if no other document writes the variable. -/
theorem variableDiagnostics_unwrittenRead :
    VariableAnalysis.analyzer.diagnostics
        (run .default [.opened "u:a" unwrittenRead 1 0]).knowledge (.ofText "u:a" unwrittenRead 1) =
      .value [.ofFinding ⟨⟨0, 12⟩, ⟨0, 19⟩⟩ .warning "pv-never-written"
        "`$var(a)` is read but never written"] := by
  have hd : (run .default [.opened "u:a" unwrittenRead 1 0]).store.get? "u:a" =
      some (.ofText "u:a" unwrittenRead 1) :=
    (get?_run_opened_iff (by decide +kernel)).2 ⟨rfl, rfl⟩
  rw [(variableDiagnostics_run .default _ hd).1]
  decide +kernel

end Session

end RouteScript
