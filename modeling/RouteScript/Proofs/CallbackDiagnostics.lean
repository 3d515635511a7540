import RouteScript.CommandLine
import RouteScript.Proofs.CallEdges
import RouteScript.Proofs.CalledNames
import RouteScript.Proofs.DottedNames
import RouteScript.Proofs.Run

/-!
# The findings about callbacks

Whether a callback leads anywhere is asked of the graph, which lists routines by name and keeps each
document itself as a routine, too.  The name of a function is an identifier, so it is never the name
kept for documents, and what the graph is asked comes down to this: does a stored document define a
function of the name?

* `Store.Defines`: some stored document does.
* `Knowledge.Current.isRoutine_iff`: the graph tells whether one does.
* `Session.Sound.exists_error_iff`: the only errors are callbacks that lead nowhere.
* `Command.exists_run_indexed`: what a check has read is what some run has read.
* `callbackDiagnostics_run`: after every run, the findings are one for each callback that leads
  nowhere, in document order, and no others; a check fails if there is one.
-/

namespace RouteScript

open Python (Node)
open CallAnalysis (routinesIn moduleDef routineDef)

/-- Some stored document defines a function of the name. -/
def Store.Defines [Python.Recovery] (store : Store) (name : String) : Prop :=
  ∃ uri d, store.get? uri = some d ∧ ∃ n ∈ d.root.descendants, n.functionName? d.text = some name

instance [Python.Recovery] (store : Store) (name : String) : Decidable (store.Defines name) :=
  decidable_of_iff (∃ d ∈ store.documents.values, ∃ n ∈ d.root.descendants,
    n.functionName? d.text = some name) Store.exists_mem_values_iff

/-! ### The names of functions -/

namespace Document

variable [Python.Recovery] {d : Document} {name : String}

/-- A function is named by an identifier. -/
theorem exists_name_of_mem_routines {r : Routine} (h : r ∈ d.routines) :
    ∃ name ∈ d.root.descendants, name.kind = .identifier ∧ r.name = name.textIn d.text := by
  obtain ⟨n, hn, hr⟩ := List.mem_filterMap.1 h
  obtain ⟨hk, name, hchild, -, hname, -⟩ := Routine.name?_of_ofNode? hr
  refine ⟨name, ?_, d.isTreeOf_root.named n hn hk name hchild, hname⟩
  exact Node.descendants_trans hn
    (Node.mem_descendants_of_mem_children (List.mem_of_find?_eq_some hchild))

/-- No function has the name that is kept for documents, since it is not written in letters. -/
theorem name_ne_moduleScope {r : Routine} (h : r ∈ d.routines) : r.name ≠ Node.moduleScope := by
  intro hscope
  obtain ⟨name, hmem, hk, hname⟩ := exists_name_of_mem_routines h
  have hangle : '<' ∈ d.text.slice name.span := by
    have htext : (d.text.slice name.span) = Node.moduleScope.toList := by
      rw [← hscope, hname, Node.textIn, Text.sliceString, String.toList_ofList]
    rw [htext]
    decide
  exact absurd (d.isTreeOf_root.word name hmem hk '<' hangle) (by decide)

theorem exists_routine_iff : (∃ r ∈ d.routines, r.name = name) ↔
    ∃ n ∈ d.root.descendants, n.functionName? d.text = some name := by
  simp only [routines, List.mem_filterMap, ← Routine.name_ofNode?, Option.map_eq_some_iff]
  constructor
  · rintro ⟨r, ⟨n, hn, hr⟩, hname⟩
    exact ⟨n, hn, r, hr, hname⟩
  · rintro ⟨n, hn, r, hr, hname⟩
    exact ⟨r, ⟨n, hn, hr⟩, hname⟩

end Document

theorem Store.defines_iff [Python.Recovery] {store : Store} {name : String} : store.Defines name ↔
    ∃ uri d, store.get? uri = some d ∧ ∃ r ∈ d.routines, r.name = name := by
  simp only [Store.Defines, Document.exists_routine_iff]

/-! ### What the graph says about names -/

namespace Knowledge

open CallbackAnalysis

variable [Python.Recovery] {store : Store} {roots : List Path} {k : Knowledge}

/-- A routine of a document is the document itself or a function that it defines. -/
theorem exists_mem_routinesIn_iff {d : Document} {key : RoutineKey} :
    (∃ r ∈ routinesIn d, r.key = key) ↔
      key.uri = d.uri ∧ (key.name = Node.moduleScope ∨ ∃ r ∈ d.routines, r.name = key.name) := by
  obtain ⟨uri, name⟩ := key
  simp only [routinesIn, List.mem_cons, List.mem_map, exists_eq_or_imp, exists_exists_and_eq_and,
    moduleDef, routineDef, RoutineKey.mk.injEq, eq_comm (a := d.uri), exists_and_left,
    and_left_comm (b := uri = d.uri), ← and_or_left, eq_comm (a := Node.moduleScope)]

/-- The graph knows a function of the name if and only if a stored document defines one. -/
theorem Current.isRoutine_iff (h : k.Current ⟨store, roots⟩) (hk : store.Keyed) {name : String} :
    isRoutine k name = true ↔ store.Defines name := by
  rw [Store.defines_iff]
  simp only [isRoutine, Bool.and_eq_true, bne_iff_ne, ne_eq, Bool.not_eq_true',
    List.isEmpty_eq_false_iff]
  constructor
  · rintro ⟨hname, hne⟩
    obtain ⟨key, hkey⟩ := List.exists_mem_of_ne_nil _ hne
    obtain ⟨rfl, hc⟩ := (h.named.mem_iff name key).1 hkey
    obtain ⟨d, hd, hr⟩ := h.contains_graph_iff.1 hc
    exact ⟨key.uri, d, hd, (exists_mem_routinesIn_iff.1 hr).2.resolve_left hname⟩
  · rintro ⟨uri, d, hd, r, hr, rfl⟩
    refine ⟨Document.name_ne_moduleScope hr, List.ne_nil_of_mem (a := ⟨uri, r.name⟩) ?_⟩
    refine (h.named.mem_iff ..).2 ⟨rfl, h.contains_graph_iff.2 ⟨d, hd, ?_⟩⟩
    exact exists_mem_routinesIn_iff.2 ⟨(hk uri d hd).symm, .inr ⟨r, hr, rfl⟩⟩

end Knowledge

/-! ### The findings -/

namespace Document

/-- The callbacks of a document that lead nowhere: no stored document defines a function of the
name. -/
def unresolvedCallbacks [Python.Recovery] (d : Document) (store : Store) : List EngineCall :=
  d.engineCalls.filter fun call =>
    CallbackAnalysis.isCallback call ∧ ¬ store.Defines (String.ofList call.content)

end Document

/-- The finding about a callback that leads nowhere. -/
def EngineCall.unresolved (t : Text) (call : EngineCall) : Diagnostic :=
  .ofFinding (t.rangeOf call.contentSpan) .error "callback-unresolved"
    ("No routine named `" ++ String.ofList call.content ++ "` for KSR.tm." ++ call.method)

/-- The callbacks of a document are kept under its URI. -/
theorem Knowledge.Current.usesOf_callbacks [Python.Recovery] {store : Store} {roots : List Path}
    {k : Knowledge} (h : k.Current ⟨store, roots⟩) {uri : String} {d : Document}
    (hd : store.get? uri = some d) :
    k.callbacks.usesOf uri = d.engineCalls.filterMap (CallbackAnalysis.ofCall? d.text) := by
  rw [h.callbacks]
  exact Store.usesOf_mapValues (fun d => d.engineCalls.filterMap _) hd

/-- The findings about a stored document, from knowledge that is up to date. -/
theorem Knowledge.Current.callbackDiagnostics_eq [Python.Recovery] {store : Store}
    {roots : List Path} {k : Knowledge} (h : k.Current ⟨store, roots⟩) (hk : store.Keyed)
    {d : Document} (hd : store.get? d.uri = some d) : CallbackAnalysis.diagnostics k d =
      (d.unresolvedCallbacks store).map (EngineCall.unresolved d.text) := by
  rw [CallbackAnalysis.diagnostics, h.usesOf_callbacks hd, List.filter_filterMap,
    List.map_filterMap, Document.unresolvedCallbacks, ← List.filterMap_eq_map,
    List.filterMap_filter]
  refine List.filterMap_congr fun call _ => ?_
  have hroutine : CallbackAnalysis.isRoutine k (String.ofList call.content) = true ↔
      store.Defines (String.ofList call.content) := h.isRoutine_iff hk
  unfold CallbackAnalysis.ofCall?
  cases hcall : CallbackAnalysis.isCallback call with
  | false => simp
  | true =>
    by_cases hd : store.Defines (String.ofList call.content)
    · simp [hroutine.2 hd, hd]
    · simp [Bool.eq_false_iff.2 (mt hroutine.1 hd), hd, EngineCall.unresolved]

/-! ### Errors -/

theorem VariableAnalysis.isError_eq_false [Python.Recovery] {k : Knowledge} {d : Document}
    {x : Diagnostic} (h : x ∈ VariableAnalysis.diagnostics k d) : x.isError = false := by
  obtain ⟨o, -, ho⟩ := List.mem_filterMap.1 h
  unfold VariableAnalysis.finding? at ho
  split_ifs at ho <;> cases ho <;> rfl

theorem HashTableAnalysis.isError_eq_false [Python.Recovery] {declared : OrdSet String}
    {k : Knowledge} {d : Document} {x : Diagnostic}
    (h : x ∈ HashTableAnalysis.diagnostics declared k d) : x.isError = false := by
  obtain ⟨u, -, rfl⟩ := List.mem_map.1 h
  rfl

theorem StatisticAnalysis.isError_eq_false [Python.Recovery] {declared : OrdSet String}
    {k : Knowledge} {d : Document} {x : Diagnostic}
    (h : x ∈ StatisticAnalysis.diagnostics declared k d) : x.isError = false := by
  unfold StatisticAnalysis.diagnostics at h
  split at h
  · cases h
  · obtain ⟨u, -, rfl⟩ := List.mem_map.1 h
    rfl

namespace Session

variable [Python.Recovery] {s : Session}

theorem diagnostics_eq_append {uri : String} {d : Document} (hd : s.document? uri = some d) :
    s.diagnostics uri = VariableAnalysis.diagnostics s.knowledge d ++
      (CallbackAnalysis.diagnostics s.knowledge d ++
        (HashTableAnalysis.diagnostics (OrdSet.ofList s.config.declaredTables) s.knowledge d ++
          (StatisticAnalysis.diagnostics (OrdSet.ofList s.config.declaredStatistics) s.knowledge d
            ++ []))) := by
  rw [diagnostics, hd]
  rfl

/-- The errors in a document are its callbacks that lead nowhere. -/
theorem Sound.exists_error_iff (hs : s.Sound) {uri : String} {d : Document}
    (hd : s.store.get? uri = some d) :
    (∃ x ∈ s.diagnostics d.uri, x.isError = true) ↔ d.unresolvedCallbacks s.store ≠ [] := by
  obtain ⟨roots, hc⟩ := hs.current
  obtain rfl := hs.keyed uri d hd
  have hdocument : s.document? d.uri = some d := by
    rw [document?, hs.canonical d.uri d hd]
    exact hd
  rw [diagnostics_eq_append hdocument, hc.callbackDiagnostics_eq hs.keyed hd]
  constructor
  · rintro ⟨x, hx, herror⟩
    simp only [List.mem_append, List.not_mem_nil, or_false] at hx
    rcases hx with hx | hx | hx | hx
    · rw [VariableAnalysis.isError_eq_false hx] at herror
      cases herror
    · obtain ⟨call, hcall, -⟩ := List.mem_map.1 hx
      exact List.ne_nil_of_mem hcall
    · rw [HashTableAnalysis.isError_eq_false hx] at herror
      cases herror
    · rw [StatisticAnalysis.isError_eq_false hx] at herror
      cases herror
  · intro hne
    obtain ⟨call, hcall⟩ := List.exists_mem_of_ne_nil _ hne
    refine ⟨call.unresolved d.text, ?_, rfl⟩
    exact List.mem_append_right _ (List.mem_append_left _ (List.mem_map_of_mem hcall))

theorem exists_foldl_indexBatches (disk : Disk) (steps : Nat) (s : Session) :
    ∃ es : List Event, (indexBatches disk steps s).1 = es.foldl step s := by
  induction steps generalizing s with
  | zero => exact ⟨[], rfl⟩
  | succ steps ih =>
    rw [indexBatches]
    split
    · exact ⟨[], rfl⟩
    · obtain ⟨es, hes⟩ := ih (s.indexBatch disk).1
      exact ⟨.batchRead disk :: es, hes⟩

end Session

namespace Command

variable [Python.Recovery]

/-- What a check has read is what some run has read. -/
theorem exists_run_indexed (config : Config) (disk : Disk) (paths : List Path) :
    ∃ es, indexed config disk paths = Session.run config es := by
  obtain ⟨es, hes⟩ := Session.exists_foldl_indexBatches disk _
    (((paths.filter disk.isDirectory).foldl Session.addRoot (.start config)).enqueuePaths disk
      paths).1
  refine ⟨(paths.filter disk.isDirectory).map Event.rootAdded ++ .pathsQueued disk paths :: es, ?_⟩
  rw [Session.run, List.foldl_append, List.foldl_map, List.foldl_cons]
  exact hes

theorem exists_error_findings_iff {s : Session} (hs : s.Sound) :
    (∃ x ∈ findings s, x.2.isError = true) ↔
      ∃ uri d, s.store.get? uri = some d ∧ d.unresolvedCallbacks s.store ≠ [] := by
  simp only [findings, List.mem_flatMap, List.mem_map, Table.mem_values_iff]
  constructor
  · rintro ⟨x, ⟨d, ⟨uri, hd⟩, y, hy, rfl⟩, herror⟩
    exact ⟨uri, d, hd, (hs.exists_error_iff hd).1 ⟨y, hy, herror⟩⟩
  · rintro ⟨uri, d, hd, hne⟩
    obtain ⟨y, hy, herror⟩ := (hs.exists_error_iff hd).2 hne
    exact ⟨(d, y), ⟨d, ⟨uri, hd⟩, y, hy, rfl⟩, herror⟩

/-- A check fails if and only if it finds an error. -/
theorem status_checkResult (config : Config) (disk : Disk) (paths : List Path) :
    let failing := ∃ x ∈ findings (indexed config disk paths), x.2.isError = true
    ((checkResult config disk paths).status = 1 ↔ failing) ∧
      ((checkResult config disk paths).status = 0 ↔ ¬ failing) := by
  intro failing
  have hcount : (findings (indexed config disk paths)).countP (fun x => x.2.isError) = 0 ↔
      ¬ failing := by
    rw [List.countP_eq_zero]
    exact ⟨fun h ⟨x, hx, hx'⟩ => h x hx hx', fun h x hx hx' => h ⟨x, hx, hx'⟩⟩
  have hstatus : (checkResult config disk paths).status =
      if (findings (indexed config disk paths)).countP (fun x => x.2.isError) = 0 then 0 else 1 :=
    rfl
  by_cases h : failing
  · rw [hstatus, if_neg fun h0 => hcount.1 h0 h]
    exact ⟨iff_of_true rfl h, iff_of_false (by decide) (not_not.2 h)⟩
  · rw [hstatus, if_pos (hcount.2 h)]
    exact ⟨iff_of_false (by decide) h, iff_of_true rfl h⟩

end Command

namespace Session

/-- **The findings about callbacks are exact.**  After every run, a stored document, be it a module
or not, is told of each of its callbacks that names no function of a stored document, once, at the
literal and in document order, and of nothing else.  The order is that of the calls, each in front
of those that are part of it, and in a module that of the literals.  A check fails if and only if a
document that it has read has such a callback. -/
theorem callbackDiagnostics_run [Python.Recovery] (config : Config) (es : List Event) :
    (∀ uri d, (run config es).store.get? uri = some d →
      CallbackAnalysis.analyzer.diagnostics (run config es).knowledge d =
          .value ((d.unresolvedCallbacks (run config es).store).map
            (EngineCall.unresolved d.text)) ∧
        d.engineCalls.Pairwise (fun a b =>
          a.callSpan.Encloses b.callSpan ∨ a.callSpan.stop ≤ b.callSpan.start) ∧
        (d.hasError = false →
          d.engineCalls.Pairwise fun a b => a.contentSpan.start < b.contentSpan.start)) ∧
    ∀ disk paths,
      let store := (Command.indexed config disk paths).store
      let failing := ∃ uri d, store.get? uri = some d ∧ d.unresolvedCallbacks store ≠ []
      ((Command.checkResult config disk paths).status = 1 ↔ failing) ∧
        ((Command.checkResult config disk paths).status = 0 ↔ ¬ failing) := by
  constructor
  · intro uri d hd
    have hs := sound_run config es
    obtain ⟨roots, hc⟩ := hs.current
    obtain rfl := hs.keyed uri d hd
    refine ⟨congrArg Outcome.value (hc.callbackDiagnostics_eq hs.keyed hd), ?_, fun h => ?_⟩
    · exact EngineCall.pairwise_callSpan d.isPlaced_root _
    · exact (Document.pairwise_contentSpan_of_hasError h).imp And.left
  · intro disk paths
    obtain ⟨es', hrun⟩ := Command.exists_run_indexed config disk paths
    have hs : (Command.indexed config disk paths).Sound := hrun ▸ sound_run config es'
    simp only [← Command.exists_error_findings_iff hs]
    exact Command.status_checkResult config disk paths

/-- A script with two callbacks, one of which it defines. -/
def twoCallbacks : Text :=
  "def f():\n    KSR.tm.t_on_failure('f')\n    KSR.tm.t_on_reply('g')\n".toList

/-- The callback that the script defines is not reported. -/
theorem callbackDiagnostics_twoCallbacks :
    CallbackAnalysis.analyzer.diagnostics
        (run .default [.opened "u:a" twoCallbacks 1 0]).knowledge (.ofText "u:a" twoCallbacks 1) =
      .value [.ofFinding ⟨⟨2, 23⟩, ⟨2, 24⟩⟩ .error "callback-unresolved"
        "No routine named `g` for KSR.tm.t_on_reply"] := by
  have hd : (run .default [.opened "u:a" twoCallbacks 1 0]).store.get? "u:a" =
      some (.ofText "u:a" twoCallbacks 1) :=
    (get?_run_opened_iff (by decide +kernel)).2 ⟨rfl, rfl⟩
  rw [((callbackDiagnostics_run .default _).1 "u:a" _ hd).1]
  decide +kernel

end Session

end RouteScript
