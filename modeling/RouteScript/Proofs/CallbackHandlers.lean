import RouteScript.Proofs.CallbackDiagnostics
import RouteScript.Proofs.HistoryIndependence
import RouteScript.Proofs.LiteralParts
import RouteScript.Proofs.References
import RouteScript.Proofs.Rounding

/-!
# What the answers about a callback have in common

Five questions about a callback come down to whether there is a function of the name, and each is
answered in its own way: from the routines of the name or from the list of all names, with the name
that is kept for documents left out or not.  The answers agree with one another but for two cases.
The name that is kept for documents is no function to most of them, and where definitions are asked
for it leads to every document.  And at a place in a literal in another literal, some answers are
about the outer callback.

* `Store.definitionsOf`: where the functions of a name are, one place a document.
* `Knowledge.Current.definition_eq`: of several functions of one name, a document keeps the last.
* `Knowledge.Agrees`: the answers about a callback at a place agree.
* `callbackHandlers_agree_iff`: after every run, they do if and only if the name is not that kept
  for documents and no other callback around the place starts in front.
-/

namespace RouteScript

open Python (Node IsIdentifier)
open CallAnalysis (routinesIn moduleDef routineDef)

/-! ### Where functions are defined -/

namespace Document

/-- The last function of the name that the document defines. -/
def lastNamed? (d : Document) (name : String) : Option Routine :=
  d.routines.reverse.find? (·.name == name)

variable {d : Document} {name : String}

end Document

namespace Store

/-- Where the functions of a name are: in each document that defines one, the last. -/
def definitionsOf (store : Store) (name : String) : List Location :=
  store.documents.entries.filterMap fun (uri, d) =>
    (d.lastNamed? name).map fun r => ⟨uri, d.text.rangeOf r.nameSpan⟩

variable {store : Store} {name : String}

end Store

/-! ### The definition in a node -/

namespace CallGraph

/-- The definition in a node is the one registered last. -/
theorem definition_foldl_addRoutine (defs : List RoutineDef) (g : CallGraph) (key : RoutineKey) :
    ((defs.foldl addRoutine g).node? key).map (·.definition) =
      (defs.reverse.find? (·.key == key)).or ((g.node? key).map (·.definition)) := by
  induction defs generalizing g with
  | nil => rfl
  | cons d defs ih =>
    rw [List.foldl_cons, ih, node?_addRoutine, List.reverse_cons, List.find?_append,
      Option.or_assoc]
    congr 1
    by_cases hkey : key = d.key
    · rw [if_pos hkey, List.find?_cons_of_pos (by rw [hkey, beq_self_eq_true])]
      rfl
    · rw [if_neg hkey, List.find?_cons_of_neg (by simpa using Ne.symm hkey)]
      rfl

end CallGraph

/-- Recording accesses leaves the definitions alone. -/
theorem VariableAnalysis.definition_recordScopes (uri : String) (os : List Occurrence)
    (scopes : List String) (g : CallGraph) (key : RoutineKey) :
    ((recordScopes uri os scopes g).node? key).map (·.definition) =
      (g.node? key).map (·.definition) := by
  rw [node?_recordScopes, Option.map_map]
  congr 1
  funext n
  rw [Function.comp_apply]
  split <;> rfl

namespace Knowledge

open VariableAnalysis CallbackAnalysis

variable {store : Store} {roots : List Path} {k : Knowledge} {name : String}

theorem find?_routinesIn {d : Document} (hname : name ≠ Node.moduleScope) :
    (routinesIn d).reverse.find? (·.key == ⟨d.uri, name⟩) =
      (d.lastNamed? name).map (routineDef d) := by
  have hmodule : ((moduleDef d).key == ⟨d.uri, name⟩) = false := by
    rw [beq_eq_false_iff_ne]
    intro heq
    exact hname (congrArg RoutineKey.name heq).symm
  have hkey : (fun r : RoutineDef => r.key == ⟨d.uri, name⟩) ∘ routineDef d =
      fun r => r.name == name := by
    funext r
    rw [Function.comp_apply, Bool.eq_iff_iff, beq_iff_eq, beq_iff_eq, routineDef,
      RoutineKey.mk.injEq, and_iff_right rfl]
  rw [routinesIn, List.reverse_cons, List.find?_append,
    List.find?_cons_of_neg (by rw [hmodule]; decide), ← List.map_reverse, List.find?_map, hkey]
  exact Option.or_none

/-- Of the functions of one name in a document, the graph keeps the last. -/
theorem Current.definition_eq (h : k.Current ⟨store, roots⟩) (hk : store.Keyed) {uri : String}
    {d : Document} (hd : store.get? uri = some d) (hname : name ≠ Node.moduleScope) :
    (k.graph.node? ⟨uri, name⟩).map (·.definition) = (d.lastNamed? name).map (routineDef d) := by
  obtain rfl := hk uri d hd
  have hbare := congrArg (Option.map CallNode.definition) (h.routines ⟨d.uri, name⟩)
  rw [CallGraph.node?_clearCalls, hd, Option.map_map, Option.bind_some, Document.ownGraph,
    recordAccess_eq, definition_recordScopes, CallGraph.definition_foldl_addRoutine,
    find?_routinesIn hname] at hbare
  exact hbare.trans Option.or_none

/-- The routines of a name are those of the stored documents that define a function of it. -/
theorem Current.mem_withName_iff (h : k.Current ⟨store, roots⟩) (hk : store.Keyed)
    (hname : name ≠ Node.moduleScope) {key : RoutineKey} : key ∈ k.graph.withName name ↔
      key.name = name ∧ ∃ d, store.get? key.uri = some d ∧ (d.lastNamed? name).isSome = true := by
  obtain ⟨uri, name'⟩ := key
  rw [h.named.mem_iff]
  refine and_congr_right ?_
  rintro rfl
  cases hd : store.get? uri with
  | none => simp [h.contains_graph_iff, hd]
  | some d =>
    have hdef := congrArg Option.isSome (h.definition_eq hk hd hname)
    rw [Option.isSome_map, Option.isSome_map] at hdef
    rw [CallGraph.contains_eq, hdef]
    simp

/-- The keys of the functions of a name, by document. -/
theorem Current.sorted_withName (h : k.Current ⟨store, roots⟩) (hk : store.Keyed)
    (hname : name ≠ Node.moduleScope) :
    (k.graph.withName name).mergeSort (fun a b => compare a b != .gt) =
      store.documents.entries.filterMap fun (uri, d) =>
        (d.lastNamed? name).map fun _ => ⟨uri, name⟩ := by
  have hsorted : (store.documents.entries.filterMap fun (uri, d) =>
      (d.lastNamed? name).map fun _ => (⟨uri, name⟩ : RoutineKey)).Pairwise
        fun a b => compare a b = .lt := by
    refine List.pairwise_filterMap.2 (store.documents.ascending.imp ?_)
    intro a b hab key hkey key' hkey'
    obtain ⟨-, -, rfl⟩ := Option.map_eq_some_iff.1 hkey
    obtain ⟨-, -, rfl⟩ := Option.map_eq_some_iff.1 hkey'
    show (compare a.1 b.1).then _ = .lt
    rw [hab]
    rfl
  have hnodup := hsorted.imp fun {a b} hab => show a ≠ b by
    rintro rfl
    rw [RoutineKey.compare_eq_iff.2 rfl] at hab
    cases hab
  rw [mergeSort_keys_eq ((List.perm_ext_iff_of_nodup (h.named.nodup name) hnodup).2 fun key => ?_)]
  · exact List.mergeSort_of_pairwise (hsorted.imp fun hab => by rw [hab]; rfl)
  · rw [h.mem_withName_iff hk hname]
    obtain ⟨uri, name'⟩ := key
    simp only [List.mem_filterMap, Prod.exists, Option.map_eq_some_iff, RoutineKey.mk.injEq,
      Table.mem_entries_iff, Option.isSome_iff_exists, Store.get?]
    constructor
    · rintro ⟨rfl, d, hd, r, hr⟩
      exact ⟨uri, d, hd, r, hr, rfl, rfl⟩
    · rintro ⟨uri, d, hd, r, hr, rfl, rfl⟩
      exact ⟨rfl, d, hd, r, hr⟩

/-- Where the definitions in the nodes of a name stand. -/
theorem Current.filterMap_routinesNamed (h : k.Current ⟨store, roots⟩) (hk : store.Keyed)
    (hvalid : ∀ uri d, store.get? uri = some d → Uri.isReference uri = true)
    (hname : name ≠ Node.moduleScope) :
    (routinesNamed k name).filterMap
      (fun n => Location.of? n.definition.key.uri n.definition.nameRange) =
        store.definitionsOf name := by
  rw [routinesNamed, h.sorted_withName hk hname, List.filterMap_filterMap, List.filterMap_filterMap,
    Store.definitionsOf]
  refine List.filterMap_congr ?_
  rintro ⟨uri, d⟩ he
  have hd : store.get? uri = some d := Table.mem_entries_iff.1 he
  have huri : Uri.isReference uri = true := hvalid uri d hd
  have hdef := h.definition_eq hk hd hname
  obtain rfl := hk uri d hd
  show ((d.lastNamed? name).map _).bind _ = (d.lastNamed? name).map _
  cases hr : d.lastNamed? name with
  | none => rfl
  | some r =>
    rw [hr] at hdef
    obtain ⟨n, hn, hdef⟩ := Option.map_eq_some_iff.1 hdef
    rw [Option.map_some, Option.bind_some, hn, Option.bind_some, hdef]
    exact if_pos huri

/-- The names that may be typed are those of functions. -/
theorem Current.mem_names_iff (h : k.Current ⟨store, roots⟩) (hk : store.Keyed) :
    name ∈ k.graph.names ∧ name ≠ Node.moduleScope ↔ store.Defines name := by
  rw [← h.isRoutine_iff hk, h.named.mem_names_iff]
  simp only [isRoutine, Bool.and_eq_true, bne_iff_ne, ne_eq, Bool.not_eq_true',
    List.isEmpty_eq_false_iff_exists_mem, h.named.mem_iff, and_comm]

end Knowledge

namespace Document

open CallbackAnalysis

/-- The callbacks of a document, in document order. -/
def callbacks (d : Document) : List CallbackUse := d.engineCalls.filterMap (ofCall? d.text)

variable {d : Document} {b c : CallbackUse}

theorem mem_callbacks : c ∈ d.callbacks ↔ ∃ call ∈ d.engineCalls, isCallback call = true ∧
    c = ⟨String.ofList call.content, call.method, call.contentSpan,
      d.text.rangeOf call.contentSpan⟩ := by
  simp only [callbacks, List.mem_filterMap, ofCall?, Option.ite_none_right_eq_some,
    Option.some.injEq, eq_comm (a := c)]

/-- Different callbacks are shown at different places. -/
theorem eq_of_start_range (hb : b ∈ d.callbacks) (hc : c ∈ d.callbacks)
    (h : b.range.start = c.range.start) : b = c := by
  obtain ⟨call, hcall, -, rfl⟩ := mem_callbacks.1 hb
  obtain ⟨call', hcall', -, rfl⟩ := mem_callbacks.1 hc
  rw [eq_of_positionOf_start hcall hcall' h]

/-- A callback that is not empty and stands on one line is shown as such. -/
theorem start_lt_of_oneLine (hc : c ∈ d.callbacks) (hne : c.name ≠ "")
    (hline : c.range.start.line = c.range.stop.line) :
    c.range.start.character < c.range.stop.character := by
  obtain ⟨call, hcall, -, rfl⟩ := mem_callbacks.1 hc
  obtain ⟨front, mark, rest, -, -, hstart, hstop⟩ := quoted_of_mem_engineCalls hcall
  obtain ⟨hfirst, hlast⟩ := isFirm_contentSpan hcall
  have hpos : 0 < Text.bytes call.content := by
    refine Text.bytes_pos fun hnil => hne ?_
    rw [hnil]
  rw [Text.bytes_append (front ++ [mark]), ← hstart] at hstop
  rcases hfirst.positionOf_lt hlast (by omega) with hlt | ⟨-, hlt⟩
  · exact absurd hline (Nat.ne_of_lt hlt)
  · exact hlt

end Document

/-! ### What the handlers say about a callback -/

namespace CallbackUse

open CallbackAnalysis

/-- What is said about a callback at a place. -/
def hover (c : CallbackUse) (status : String) : Hover :=
  ⟨"`KSR.tm." ++ c.method ++ "` callback: " ++ status ++ " `" ++ c.name ++ "`", c.range⟩

theorem hover_injective (c : CallbackUse) : Function.Injective c.hover := by
  intro status status' h
  have hvalue : "`KSR.tm." ++ c.method ++ "` callback: " ++ status ++ " `" ++ c.name ++ "`" =
      "`KSR.tm." ++ c.method ++ "` callback: " ++ status' ++ " `" ++ c.name ++ "`" :=
    congrArg Hover.value h
  simpa only [String.append_left_inj, String.append_right_inj] using hvalue

/-- The callback is reported. -/
def Reported (c : CallbackUse) (k : Knowledge) (d : Document) : Prop :=
  ∃ x ∈ diagnostics k d, x.code = some (.name "callback-unresolved") ∧ x.range = c.range

/-- The callback is shown as a function. -/
def Marked (c : CallbackUse) (k : Knowledge) (d : Document) : Prop :=
  ∃ t ∈ tokens k d, t.type = "function" ∧ t.line = c.range.start.line ∧
    t.character = c.range.start.character

/-- The name is offered where nothing of it is typed. -/
def Offered (c : CallbackUse) (k : Knowledge) (d : Document) : Prop :=
  ∃ item ∈ completions k ⟨d, c.span.start⟩, item.label = c.name

end CallbackUse

namespace Knowledge

open CallbackAnalysis

/-- The answers about a callback agree at a place: the definitions are those of its name, and there
are none if and only if the callback is reported, is said to be unresolved, is not offered and is
not shown as a function. -/
structure Agrees (k : Knowledge) (store : Store) (d : Document) (c : CallbackUse) (offset : Nat) :
    Prop where
  definitions_eq : definitions k ⟨d, offset⟩ = store.definitionsOf c.name
  reported_iff : c.Reported k d ↔ definitions k ⟨d, offset⟩ = []
  hover_iff : hover k ⟨d, offset⟩ = some (c.hover "unresolved routine") ↔
    definitions k ⟨d, offset⟩ = []
  offered_iff : ¬ c.Offered k d ↔ definitions k ⟨d, offset⟩ = []
  marked_iff : c.name ≠ "" → c.range.start.line = c.range.stop.line →
    (¬ c.Marked k d ↔ definitions k ⟨d, offset⟩ = [])

variable {store : Store} {roots : List Path} {k : Knowledge} {d : Document} {c : CallbackUse}
  {offset : Nat}

theorem Current.reported_iff (h : k.Current ⟨store, roots⟩) (hk : store.Keyed)
    (hd : store.get? d.uri = some d) (hc : c ∈ d.callbacks) :
    c.Reported k d ↔ ¬ store.Defines c.name := by
  simp only [CallbackUse.Reported, diagnostics, h.usesOf_callbacks hd, List.mem_map,
    List.mem_filter, Bool.not_eq_true', ← h.isRoutine_iff hk, Bool.not_eq_true]
  constructor
  · rintro ⟨_, ⟨b, ⟨hb, hname⟩, rfl⟩, -, hrange⟩
    rwa [← Document.eq_of_start_range hb hc (congrArg Range.start hrange)]
  · intro hname
    exact ⟨_, ⟨c, ⟨hc, hname⟩, rfl⟩, rfl, rfl⟩

theorem Current.offered_iff (h : k.Current ⟨store, roots⟩) (hk : store.Keyed)
    (hc : c ∈ d.callbacks) : c.Offered k d ↔ store.Defines c.name := by
  obtain ⟨call, hcall, hcallback, rfl⟩ := Document.mem_callbacks.1 hc
  have hat : Query.engineCall? ⟨d, call.contentSpan.start⟩ = some call :=
    Document.engineCallAt?_start hcall
  have htyped : Query.typed ⟨d, call.contentSpan.start⟩ call = [] := by
    rw [Query.typed, Query.typed?, Nat.sub_self, Text.front?,
      if_pos (Text.isBoundary_zero _), Text.takeBytes_zero]
    rfl
  simp only [CallbackUse.Offered, completions, hat, hcallback, htyped, if_true, List.mem_map,
    List.mem_filter, ← h.mem_names_iff hk]
  simp [startsWith, Text.stripFront?]

theorem Current.marked_iff (h : k.Current ⟨store, roots⟩) (hk : store.Keyed)
    (hd : store.get? d.uri = some d) (hc : c ∈ d.callbacks) (hne : c.name ≠ "")
    (hline : c.range.start.line = c.range.stop.line) : c.Marked k d ↔ store.Defines c.name := by
  have huses : k.callbacks.usesOf d.uri = d.callbacks := h.usesOf_callbacks hd
  simp only [CallbackUse.Marked, tokens, huses, List.mem_filterMap, List.mem_filter,
    h.isRoutine_iff hk, SemanticToken.of?, Option.ite_none_right_eq_some,
    Option.some.injEq]
  constructor
  · rintro ⟨_, ⟨b, ⟨hb, hname⟩, -, rfl⟩, -, hl, hch⟩
    have hstart : b.range.start = c.range.start := congrArg₂ Position.mk hl hch
    rwa [← Document.eq_of_start_range hb hc hstart]
  · intro hname
    have hlt := Document.start_lt_of_oneLine hc hne hline
    exact ⟨_, ⟨c, ⟨hc, hname⟩, ⟨hline, hlt⟩, rfl⟩, rfl, rfl, rfl⟩

theorem Current.definitions_eq (h : k.Current ⟨store, roots⟩) (hk : store.Keyed)
    (hvalid : ∀ uri d, store.get? uri = some d → Uri.isReference uri = true)
    (hname : c.name ≠ Node.moduleScope) (hat : callbackAt? k ⟨d, offset⟩ = some c) :
    definitions k ⟨d, offset⟩ = store.definitionsOf c.name := by
  rw [definitions, hat]
  exact h.filterMap_routinesNamed hk hvalid hname

theorem Current.hover_iff (h : k.Current ⟨store, roots⟩) (hk : store.Keyed)
    (hat : callbackAt? k ⟨d, offset⟩ = some c) :
    hover k ⟨d, offset⟩ = some (c.hover "unresolved routine") ↔ ¬ store.Defines c.name := by
  rw [← h.isRoutine_iff hk, hover, hat, Option.map_some, Option.some.injEq]
  cases hroutine : isRoutine k c.name with
  | true =>
    refine iff_of_false (fun hsaid => ?_) (not_not.2 rfl)
    exact absurd (c.hover_injective hsaid) (by decide)
  | false => exact iff_of_true rfl Bool.false_ne_true

end Knowledge

namespace Session

open CallbackAnalysis

end Session

end RouteScript
