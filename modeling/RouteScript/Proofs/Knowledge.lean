import RouteScript.Analysis.Defaults
import RouteScript.Proofs.Linking

/-!
# Knowledge that is up to date

What the analyzers keep of each document is replaced when the document is analyzed and dropped when
it goes away, and what concerns several documents, the imports and the calls, is found anew each
time.  So after every event the knowledge is what the stored documents say, and nothing that an
earlier text said is left (`Knowledge.Current`).

* `Current.learn`, `Current.unlearn`: knowledge of the documents before an event becomes knowledge of
  those after it.  The imports may have been resolved below other roots before.
* `Current.similar`: knowledge that is up to date with the same texts below the same roots is the
  same, up to the order in which routines were registered.
-/

namespace RouteScript

open CallAnalysis VariableAnalysis

namespace Knowledge

variable [Python.Recovery]

/-- What is known after a document has been analyzed by all analyzers. -/
def learn (view : View) (d : Document) (k : Knowledge) : Knowledge :=
  StatisticAnalysis.analyze d <| HashTableAnalysis.analyze d <| CallbackAnalysis.analyze d <|
    VariableAnalysis.analyze d <| CallAnalysis.analyze d <| ImportAnalysis.analyze view d k

/-- What is known after the document under a URI has gone. -/
def unlearn (view : View) (uri : String) (k : Knowledge) : Knowledge :=
  StatisticAnalysis.removed uri <| HashTableAnalysis.removed uri <| CallbackAnalysis.removed uri <|
    VariableAnalysis.removed uri <| CallAnalysis.removed uri <| ImportAnalysis.removed view uri k

/-- The knowledge is what the stored documents say, with the imports resolved below the roots. -/
structure Current (view : View) (k : Knowledge) : Prop where
  bindings : k.bindings = view.store.documents.mapValues fun _ d => d.bindings
  imports : k.imports = k.bindings.mapValues fun uri bindings =>
    bindings.map (Resolution.bind view.store.contains view.roots uri)
  sites : k.sites = view.store.documents.mapValues fun _ d => linkSites d
  indexes : k.indexes = view.store.documents.mapValues fun _ d => .ofList d.occurrences
  callbacks : k.callbacks = view.store.documents.mapValues fun _ d =>
    d.engineCalls.filterMap (CallbackAnalysis.ofCall? d.text)
  tables : k.tables = view.store.documents.mapValues fun _ d => HashTableAnalysis.uses d
  statistics : k.statistics = view.store.documents.mapValues fun _ d => StatisticAnalysis.uses d
  /-- The routines are those of the stored documents, each with its own accesses. -/
  routines : ∀ key, k.graph.clearCalls.node? key =
    (view.store.get? key.uri).bind fun d => d.ownGraph.node? key
  /-- The calls are those that the call sites lead to. -/
  calls : k.graph = k.graph.clearCalls.addCalls (callsFrom k.graph k.imports k.sites)
  named : k.graph.Named

variable {store : Store} {roots roots' : List Path} {k k' : Knowledge}

theorem current_empty (roots : List Path) : empty.Current ⟨.empty, roots⟩ where
  bindings := rfl
  imports := rfl
  sites := rfl
  indexes := rfl
  callbacks := rfl
  tables := rfl
  statistics := rfl
  routines _ := rfl
  calls := rfl
  named := CallGraph.named_empty

/-! ### One event -/

/-- The graph after the two analyzers that write to it have seen a document. -/
theorem graph_analyze (d : Document) (k : Knowledge) :
    (VariableAnalysis.analyze d (CallAnalysis.analyze d k)).graph = k.graph.analyzed d
      (callsFrom ((routinesIn d).foldl CallGraph.addRoutine (k.graph.removeDocument d.uri))
        k.imports (k.sites.insert d.uri (linkSites d))) := by
  simp only [VariableAnalysis.analyze, CallAnalysis.analyze, relink_eq]
  rfl

theorem graph_learn (view : View) (d : Document) (k : Knowledge) :
    (k.learn view d).graph = k.graph.analyzed d
      (callsFrom ((routinesIn d).foldl CallGraph.addRoutine (k.graph.removeDocument d.uri))
        (k.learn view d).imports (k.learn view d).sites) := by
  simp only [learn, StatisticAnalysis.analyze, HashTableAnalysis.analyze, CallbackAnalysis.analyze]
  exact graph_analyze d (ImportAnalysis.analyze view d k)

theorem graph_unlearn (view : View) (uri : String) (k : Knowledge) :
    (k.unlearn view uri).graph = (k.graph.removeDocument uri).clearCalls.addCalls
      (callsFrom (k.graph.removeDocument uri) (k.unlearn view uri).imports
        (k.unlearn view uri).sites) := by
  simp only [unlearn, StatisticAnalysis.removed, HashTableAnalysis.removed,
    CallbackAnalysis.removed, VariableAnalysis.removed, CallAnalysis.removed, relink_eq]
  rfl

omit [Python.Recovery] in
/-- A graph to which calls were added is linked, if the calls were found among its routines. -/
theorem linked_of_eq {g h : CallGraph} {imports : Table String (List Binding)}
    {sites : Table String (List LinkSite)}
    (hg : g = h.addCalls (callsFrom h imports sites)) (hh : h.clearCalls = h) :
    g = g.clearCalls.addCalls (callsFrom g imports sites) := by
  have hc : callsFrom g imports sites = callsFrom h imports sites := by
    rw [hg]
    exact callsFrom_congr (h.contains_addCalls _) (fun _ => by simp [CallGraph.withName]) ..
  rw [hc, hg, CallGraph.clearCalls_addCalls, hh]

theorem insert_eq {β : Type} {f : String → Document → β} {t : Table String β}
    (h : t = store.documents.mapValues f) (d : Document) :
    t.insert d.uri (f d.uri d) = (store.put d).documents.mapValues f := by
  rw [h]
  exact (Table.mapValues_insert ..).symm

theorem erase_eq {β : Type} {f : String → Document → β} {t : Table String β}
    (h : t = store.documents.mapValues f) (uri : String) :
    t.erase uri = (store.close uri).documents.mapValues f := by
  rw [h]
  exact (Table.mapValues_erase ..).symm

/-- The document is analyzed: what is known of the other documents stays, what was known of this
one is replaced. -/
theorem Current.learn (h : k.Current ⟨store, roots⟩) (d : Document) :
    (k.learn ⟨store.put d, roots'⟩ d).Current ⟨store.put d, roots'⟩ where
  bindings := insert_eq h.bindings d
  imports := rfl
  sites := insert_eq h.sites d
  indexes := insert_eq h.indexes d
  callbacks := insert_eq h.callbacks d
  tables := insert_eq h.tables d
  statistics := insert_eq h.statistics d
  routines key := by
    rw [graph_learn, CallGraph.node?_clearCalls_analyzed, h.routines]
    simp only [Store.get?, Store.put, Table.get?_insert]
    split <;> rfl
  calls := by
    let g := (routinesIn d).foldl CallGraph.addRoutine (k.graph.removeDocument d.uri)
    let record := recordAccess d.uri (VariableIndex.ofList d.occurrences).byPosition
    refine linked_of_eq (h := record g.clearCalls) ?_ ?_
    · have hc : ∀ key, g.contains key = (record g.clearCalls).contains key := fun key =>
        ((contains_recordScopes ..).trans (g.contains_clearCalls key)).symm
      have hb : (record g.clearCalls).byName = g.byName := byName_recordScopes ..
      have hw : ∀ name, (g.withName name).Perm ((record g.clearCalls).withName name) := fun name => by
        rw [CallGraph.withName, CallGraph.withName, hb]
      rw [graph_learn, ← callsFrom_congr hc hw]
      exact recordScopes_addCalls ..
    · exact (clearCalls_recordScopes ..).trans (by rw [CallGraph.clearCalls_clearCalls]; rfl)
  named := by
    have hg : ((routinesIn d).foldl CallGraph.addRoutine (k.graph.removeDocument d.uri)).Named :=
      (h.named.removeDocument d.uri).foldl_addRoutine _
    rw [graph_learn]
    refine hg.congr ?_ fun key => ?_
    · exact (byName_recordScopes ..).trans (by simp)
    · exact (contains_recordScopes ..).trans (by simp)

/-- The document goes away: what is known of the other documents stays. -/
theorem Current.unlearn (h : k.Current ⟨store, roots⟩) (uri : String) :
    (k.unlearn ⟨store.close uri, roots'⟩ uri).Current ⟨store.close uri, roots'⟩ where
  bindings := erase_eq h.bindings uri
  imports := rfl
  sites := erase_eq h.sites uri
  indexes := erase_eq h.indexes uri
  callbacks := erase_eq h.callbacks uri
  tables := erase_eq h.tables uri
  statistics := erase_eq h.statistics uri
  routines key := by
    rw [graph_unlearn, CallGraph.clearCalls_addCalls, CallGraph.clearCalls_clearCalls,
      CallGraph.node?_clearCalls_removeDocument, h.routines]
    simp only [Store.get?, Store.close, Table.get?_erase]
    split <;> rfl
  calls := by
    refine linked_of_eq (h := (k.graph.removeDocument uri).clearCalls) ?_
      (CallGraph.clearCalls_clearCalls _)
    rw [graph_unlearn, ← callsFrom_congr (fun key => ((k.graph.removeDocument uri).contains_clearCalls
      key).symm) fun _ => .refl _]
  named := by
    rw [graph_unlearn]
    exact (h.named.removeDocument uri).congr (by simp) (by simp)

end Knowledge

/-! ### Stores with the same texts -/

theorem Document.eq_ofText [Python.Recovery] (d : Document) : d = .ofText d.uri d.text d.version :=
  Document.ext_iff.2 ⟨rfl, rfl, rfl⟩

namespace Store

variable [Python.Recovery]

/-- Every document is stored under its own URI. -/
def Keyed (s : Store) : Prop := ∀ uri d, s.get? uri = some d → d.uri = uri

theorem exists_mem_values_iff {s : Store} {P : Document → Prop} :
    (∃ d ∈ s.documents.values, P d) ↔ ∃ uri d, s.get? uri = some d ∧ P d := by
  simp only [Table.mem_values_iff, get?]
  exact ⟨fun ⟨d, ⟨uri, hd⟩, h⟩ => ⟨uri, d, hd, h⟩, fun ⟨uri, d, hd, h⟩ => ⟨d, ⟨uri, hd⟩, h⟩⟩

/-- What is kept of each document is found under its URI. -/
theorem usesOf_mapValues {s : Store} {υ : Type} (f : Document → List υ) {uri : String}
    {d : Document} (hd : s.get? uri = some d) :
    (s.documents.mapValues fun _ d => f d).usesOf uri = f d := by
  rw [Table.usesOf, Table.get?_mapValues, show s.documents.get? uri = some d from hd]
  rfl

/-- The stores hold the same texts under the same URIs; the versions may differ. -/
def SameTexts (s s' : Store) : Prop :=
  ∀ uri, (s.get? uri).map (·.text) = (s'.get? uri).map (·.text)

variable {s s' : Store}

theorem keyed_empty : empty.Keyed := fun _ _ h => by cases h

theorem Keyed.put (hs : s.Keyed) (d : Document) : (s.put d).Keyed := by
  intro uri e he
  simp only [get?, Store.put, Table.get?_insert] at he
  split at he
  · rename_i h
    cases he
    exact h.symm
  · exact hs uri e he

theorem Keyed.close (hs : s.Keyed) (uri : String) : (s.close uri).Keyed := by
  intro uri' e he
  simp only [get?, Store.close, Table.get?_erase] at he
  split at he
  · cases he
  · exact hs uri' e he

/-- Stores with the same texts tell the same about each URI, as far as versions do not matter. -/
theorem SameTexts.map_eq {β : Type} {f : Document → β}
    (hf : ∀ uri text v v', f (.ofText uri text v) = f (.ofText uri text v'))
    (h : s.SameTexts s') (hs : s.Keyed) (hs' : s'.Keyed) (uri : String) :
    (s.get? uri).map f = (s'.get? uri).map f := by
  have ht := h uri
  cases hd : s.get? uri with
  | none =>
    cases hd' : s'.get? uri with
    | none => rfl
    | some d' => simp [hd, hd'] at ht
  | some d =>
    cases hd' : s'.get? uri with
    | none => simp [hd, hd'] at ht
    | some d' =>
      simp only [hd, hd', Option.map_some, Option.some.injEq] at ht ⊢
      rw [d.eq_ofText, d'.eq_ofText, ht, hs uri d hd, hs' uri d' hd']
      exact hf ..

theorem SameTexts.mapValues_eq {β : Type} {f : Document → β}
    (hf : ∀ uri text v v', f (.ofText uri text v) = f (.ofText uri text v'))
    (h : s.SameTexts s') (hs : s.Keyed) (hs' : s'.Keyed) :
    (s.documents.mapValues fun _ => f) = s'.documents.mapValues fun _ => f := by
  refine Table.ext_get? fun uri => ?_
  rw [Table.get?_mapValues, Table.get?_mapValues]
  exact h.map_eq hf hs hs' uri

theorem SameTexts.contains (h : s.SameTexts s') : s.contains = s'.contains := by
  funext uri
  have := congrArg Option.isSome (h uri)
  rwa [Option.isSome_map, Option.isSome_map] at this

end Store

namespace Knowledge

variable [Python.Recovery] {k k' : Knowledge} {view view' : View}

/-- Knowledge of the same, up to the order in which routines were registered. -/
structure Similar (k k' : Knowledge) : Prop where
  imports : k.imports = k'.imports
  sites : k.sites = k'.sites
  indexes : k.indexes = k'.indexes
  callbacks : k.callbacks = k'.callbacks
  tables : k.tables = k'.tables
  statistics : k.statistics = k'.statistics
  graph : k.graph.Similar k'.graph

/-- Knowledge that is up to date depends on the texts and the roots only. -/
theorem Current.similar (h : k.Current view) (h' : k'.Current view')
    (ht : view.store.SameTexts view'.store) (hk : view.store.Keyed) (hk' : view'.store.Keyed)
    (hr : view.roots = view'.roots) : k.Similar k' := by
  have himports : k.imports = k'.imports := by
    rw [h.imports, h'.imports, h.bindings, h'.bindings, hr, ht.contains,
      ht.mapValues_eq (fun _ _ _ _ => rfl) hk hk']
  have hsites : k.sites = k'.sites := by
    rw [h.sites, h'.sites, ht.mapValues_eq (fun _ _ _ _ => rfl) hk hk']
  have hbare : k.graph.clearCalls.Similar k'.graph.clearCalls := by
    refine h.named.clearCalls.similar h'.named.clearCalls (Table.ext_get? fun key => ?_)
    refine (h.routines key).trans (Eq.trans ?_ (h'.routines key).symm)
    have hd := ht.map_eq (f := fun d => d.ownGraph.node? key) (fun _ _ _ _ => rfl) hk hk' key.uri
    simpa only [Option.bind_map, Function.comp_def, id] using congrArg (Option.bind · id) hd
  have hcalls : callsFrom k.graph k.imports k.sites = callsFrom k'.graph k'.imports k'.sites := by
    rw [himports, hsites]
    have hc : ∀ key, k.graph.contains key = k'.graph.contains key := fun key => by
      rw [← CallGraph.contains_clearCalls, hbare.contains, CallGraph.contains_clearCalls]
    have hw : ∀ name, (k.graph.withName name).Perm (k'.graph.withName name) := hbare.withName
    exact callsFrom_congr hc hw ..
  refine ⟨himports, hsites, ?_, ?_, ?_, ?_, ?_⟩
  · rw [h.indexes, h'.indexes, ht.mapValues_eq (fun _ _ _ _ => rfl) hk hk']
  · rw [h.callbacks, h'.callbacks, ht.mapValues_eq (fun _ _ _ _ => rfl) hk hk']
  · rw [h.tables, h'.tables, ht.mapValues_eq (fun _ _ _ _ => rfl) hk hk']
  · rw [h.statistics, h'.statistics, ht.mapValues_eq (fun _ _ _ _ => rfl) hk hk']
  · rw [h.calls, h'.calls, hcalls]
    exact hbare.addCalls _

end Knowledge

end RouteScript
