import RouteScript.Proofs.Run
import Mathlib.Data.List.Sort

/-!
# Answers do not depend on history

What a session answers depends on the texts it holds and on the roots, and on nothing else: not on
the order in which documents were opened, read or indexed, not on their earlier texts, and not on
the documents that were there for a while.

* `Knowledge.Similar.consistent`: no analyzer looks at the order in which routines were registered.
* `sameAnswers_run`: two settled runs that end with the same roots and texts answer alike, and so
  does a session that opens these texts once each, in any order.
-/

namespace RouteScript

open Knowledge

/-! ### Analyzers -/

/-- The analyzer gives the same answers from either state. -/
structure Analyzer.Consistent [Python.Recovery] {σ : Type} (a : Analyzer σ) (k k' : σ) : Prop where
  diagnostics : a.diagnostics k = a.diagnostics k'
  definitions : a.definitions k = a.definitions k'
  references : a.references k = a.references k'
  hover : a.hover k = a.hover k'
  completions : a.completions k = a.completions k'
  tokens : a.tokens k = a.tokens k'

variable {k k' : Knowledge}

theorem Knowledge.Similar.eq (h : k.Similar k') :
    k = { k' with bindings := k.bindings, graph := k.graph } := by
  obtain ⟨⟩ := k
  obtain ⟨⟩ := k'
  obtain ⟨rfl, rfl, rfl, rfl, rfl, rfl, -⟩ := h
  rfl

theorem ImportAnalysis.consistent [Python.Recovery] (h : k.Similar k') :
    analyzer.Consistent k k' := by
  rw [h.eq]
  exact ⟨rfl, rfl, rfl, rfl, rfl, rfl⟩

theorem HashTableAnalysis.consistent [Python.Recovery] (declared : OrdSet String)
    (h : k.Similar k') : (analyzer declared).Consistent k k' := by
  rw [h.eq]
  exact ⟨rfl, rfl, rfl, rfl, rfl, rfl⟩

theorem StatisticAnalysis.consistent [Python.Recovery] (declared : OrdSet String)
    (h : k.Similar k') : (analyzer declared).Consistent k k' := by
  rw [h.eq]
  exact ⟨rfl, rfl, rfl, rfl, rfl, rfl⟩

namespace VariableAnalysis

theorem diagnostics_congr [Python.Recovery] (h : k.Similar k') :
    diagnostics k = diagnostics k' := by
  have hw : isWritten k = isWritten k' := by
    funext uri scope key
    rw [isWritten, isWritten, h.indexes, h.graph.transitiveWrites, h.graph.hasWrite]
  have hf : finding? k = finding? k' := by
    funext uri o
    rw [finding?, finding?, hw]
  funext d
  rw [diagnostics, diagnostics, hf, occurrencesOf, occurrencesOf, h.indexes]

theorem consistent [Python.Recovery] (h : k.Similar k') : analyzer.Consistent k k' := by
  have hd : analyzer.diagnostics k = analyzer.diagnostics k' :=
    congrArg (fun f d => Outcome.value (f d)) (diagnostics_congr h)
  refine ⟨hd, ?_, ?_, ?_, ?_, ?_⟩
  all_goals
    rw [h.eq]
    rfl

end VariableAnalysis

namespace CallAnalysis

theorem resolve?_eq (h : k.Similar k') :
    resolve? k.graph k.imports = resolve? k'.graph k'.imports := by
  funext uri site
  rw [h.imports]
  exact resolve?_congr h.graph.contains h.graph.withName ..

theorem places_congr (h : k.Similar k') : places k = places k' := by
  funext key
  rw [places, places, h.graph.node?, callsOf, callsOf, h.sites, resolve?_eq h]

variable [Python.Recovery]

theorem routineAt?_congr (h : k.Similar k') : routineAt? k = routineAt? k' := by
  funext q
  have hs : siteAt? k q = siteAt? k' q := by rw [siteAt?, siteAt?, h.sites]
  rw [routineAt?, routineAt?, hs, resolve?_eq h, h.graph.routinesOf]

theorem nodeAt?_congr (h : k.Similar k') : nodeAt? k = nodeAt? k' := by
  have hn : k.graph.node? = k'.graph.node? := funext h.graph.node?
  funext q
  rw [nodeAt?, nodeAt?, routineAt?_congr h, hn]

theorem consistent (h : k.Similar k') : analyzer.Consistent k k' := by
  have hdef : definitions k = definitions k' := by
    funext q
    rw [definitions, definitions, nodeAt?_congr h]
  have href : references k = references k' := by
    funext q
    rw [references, references, routineAt?_congr h, places_congr h]
  have hhov : hover k = hover k' := by
    have hg : describe k.graph = describe k'.graph := by
      funext n
      rw [describe, describe, h.graph.transitiveWrites]
    funext q
    rw [hover, hover, nodeAt?_congr h, hg]
  exact ⟨rfl, congrArg (fun f q => Outcome.value (f q)) hdef,
    congrArg (fun f q => Outcome.value (f q)) href,
    congrArg (fun f q => Outcome.value (f q)) hhov, rfl, rfl⟩

end CallAnalysis

namespace CallbackAnalysis

theorem isRoutine_congr (h : k.Similar k') : isRoutine k = isRoutine k' := by
  funext name
  rw [isRoutine, isRoutine, (h.graph.withName name).isEmpty_eq]

/-- Sorting routines by their keys forgets the order in which they were registered. -/
theorem mergeSort_keys_eq {keys keys' : List RoutineKey} (h : keys.Perm keys') :
    (keys.mergeSort fun a b => compare a b != .gt) =
      keys'.mergeSort fun a b => compare a b != .gt := by
  have hle : ∀ {a b : RoutineKey}, (compare a b != .gt) = true ↔ (compare a b).isLE = true := by
    intro a b
    cases compare a b <;> decide
  have hsorted : ∀ keys : List RoutineKey, (keys.mergeSort fun a b => compare a b != .gt).Pairwise
      fun a b => (compare a b != .gt) = true := by
    refine List.pairwise_mergeSort (fun a b c hab hbc => ?_) fun a b => ?_
    · exact hle.2 (Std.TransOrd.isLE_trans (hle.1 hab) (hle.1 hbc))
    · rw [Std.OrientedOrd.eq_swap (a := b)]
      cases compare a b <;> rfl
  refine List.Perm.eq_of_pairwise (fun a b _ _ hab hba => ?_) (hsorted keys) (hsorted keys') ?_
  · exact Std.LawfulEqOrd.eq_of_compare (Std.OrientedCmp.isLE_antisymm (hle.1 hab) (hle.1 hba))
  · exact (List.mergeSort_perm ..).trans (h.trans (List.mergeSort_perm ..).symm)

theorem routinesNamed_congr (h : k.Similar k') : routinesNamed k = routinesNamed k' := by
  have hn : k.graph.node? = k'.graph.node? := funext h.graph.node?
  funext name
  rw [routinesNamed, routinesNamed, hn, mergeSort_keys_eq (h.graph.withName name)]

theorem consistent [Python.Recovery] (h : k.Similar k') : analyzer.Consistent k k' := by
  have hat : callbackAt? k = callbackAt? k' := by
    funext q
    rw [callbackAt?, callbackAt?, h.callbacks]
  have hdia : diagnostics k = diagnostics k' := by
    funext d
    rw [diagnostics, diagnostics, h.callbacks, isRoutine_congr h]
  have hdef : definitions k = definitions k' := by
    funext q
    rw [definitions, definitions, hat, routinesNamed_congr h]
  have href : references k = references k' := by
    funext q
    rw [references, references, hat, h.callbacks]
  have hhov : hover k = hover k' := by
    funext q
    rw [hover, hover, hat, isRoutine_congr h]
  have hcom : completions k = completions k' := by
    funext q
    rw [completions, completions, h.graph.names]
  have htok : tokens k = tokens k' := by
    funext d
    rw [tokens, tokens, h.callbacks, isRoutine_congr h]
  exact ⟨congrArg (fun f d => Outcome.value (f d)) hdia,
    congrArg (fun f q => Outcome.value (f q)) hdef, congrArg (fun f q => Outcome.value (f q)) href,
    congrArg (fun f q => Outcome.value (f q)) hhov, congrArg (fun f q => Outcome.value (f q)) hcom,
    congrArg (fun f d => Outcome.value (f d)) htok⟩

end CallbackAnalysis

/-- No analyzer looks at the order in which routines were registered. -/
theorem Knowledge.Similar.consistent [Python.Recovery] (h : k.Similar k')
    (tables statistics : List String) :
    ∀ a ∈ defaultAnalyzers tables statistics, a.Consistent k k' := by
  intro a ha
  simp only [defaultAnalyzers, List.mem_cons, List.not_mem_nil, or_false] at ha
  rcases ha with rfl | rfl | rfl | rfl | rfl | rfl
  · exact ImportAnalysis.consistent h
  · exact CallAnalysis.consistent h
  · exact VariableAnalysis.consistent h
  · exact CallbackAnalysis.consistent h
  · exact HashTableAnalysis.consistent _ h
  · exact StatisticAnalysis.consistent _ h

/-! ### The dispatcher -/

namespace Dispatcher

variable [Python.Recovery] {σ α : Type} {k k' : σ}

theorem answers_congr {ask ask' : Analyzer σ → Outcome (List α)} {as : List (Analyzer σ)}
    (h : ∀ a ∈ as, ask a = ask' a) : answers ask as = answers ask' as := by
  induction as with
  | nil => rfl
  | cons a as ih =>
    rw [answers, answers, h a List.mem_cons_self, ih fun b hb => h b (List.mem_cons_of_mem a hb)]

theorem collect_congr (d : Dispatcher σ) {ask ask' : Analyzer σ → Outcome (List α)}
    (h : ∀ a ∈ d.analyzers, ask a = ask' a) : d.collect ask = d.collect ask' :=
  answers_congr h

theorem firstAnswer_congr {ask ask' : Analyzer σ → Outcome (Option α)} {as : List (Analyzer σ)}
    (h : ∀ a ∈ as, ask a = ask' a) : firstAnswer ask as = firstAnswer ask' as := by
  induction as with
  | nil => rfl
  | cons a as ih =>
    rw [firstAnswer, firstAnswer, h a List.mem_cons_self,
      ih fun b hb => h b (List.mem_cons_of_mem a hb)]

end Dispatcher

/-! ### Sessions -/

namespace Session

variable [Python.Recovery] {s s' : Session} {config : Config} {es es' : List Event}

/-- The sessions answer every question alike. -/
structure SameAnswers (s s' : Session) : Prop where
  diagnostics : ∀ uri, s.diagnostics uri = s'.diagnostics uri
  definitions : ∀ uri position, s.definitions uri position = s'.definitions uri position
  references : ∀ uri position, s.references uri position = s'.references uri position
  hover : ∀ uri position, s.hover uri position = s'.hover uri position
  completions : ∀ uri position, s.completions uri position = s'.completions uri position
  tokens : ∀ uri, s.tokens uri = s'.tokens uri

/-- Answers that come from similar knowledge of the same texts are the same: versions are not looked
at. -/
theorem answer_congr {β : Type} {f : Dispatcher Knowledge → Knowledge → Document → β}
    (hd : s.dispatcher = s'.dispatcher)
    (hk : ∀ d, f s.dispatcher s.knowledge d = f s.dispatcher s'.knowledge d)
    (hf : ∀ uri text v v', f s.dispatcher s.knowledge (.ofText uri text v) =
      f s.dispatcher s.knowledge (.ofText uri text v'))
    (ht : s.store.SameTexts s'.store) (hs : s.store.Keyed) (hs' : s'.store.Keyed) (uri : String) :
    (s.document? uri).map (f s.dispatcher s.knowledge) =
      (s'.document? uri).map (f s'.dispatcher s'.knowledge) := by
  rw [← hd, ← funext hk]
  exact ht.map_eq hf hs hs' (Uri.canonical uri)

/-! Each answer is a function of the dispatcher, the knowledge and the document asked about. -/

theorem diagnostics_eq (s : Session) (uri : String) : s.diagnostics uri =
    ((s.document? uri).map fun d => (s.dispatcher.diagnostics s.knowledge d).result).getD [] := by
  unfold diagnostics
  cases s.document? uri <;> rfl

theorem asked_eq {α : Type} (s : Session) (uri : String) (position : Position)
    (question : Dispatcher Knowledge → Knowledge → Query → Reply (List α)) :
    s.asked uri position question = ((s.document? uri).map fun d =>
      (question s.dispatcher s.knowledge ⟨d, d.text.offsetOf position⟩).result).getD [] := by
  unfold asked query?
  cases s.document? uri <;> rfl

theorem hover_eq (s : Session) (uri : String) (position : Position) : s.hover uri position =
    ((s.document? uri).map fun d =>
      (s.dispatcher.hover s.knowledge ⟨d, d.text.offsetOf position⟩).result).join := by
  unfold hover query?
  cases s.document? uri <;> rfl

theorem tokens_eq (s : Session) (uri : String) : s.tokens uri =
    ((s.document? uri).map fun d => (s.dispatcher.tokens s.knowledge d).result).getD [] := by
  unfold tokens
  cases s.document? uri <;> rfl

theorem asked_congr {α : Type}
    {question : Dispatcher Knowledge → Knowledge → Query → Reply (List α)}
    (hd : s.dispatcher = s'.dispatcher)
    (hk : ∀ q, question s.dispatcher s.knowledge q = question s.dispatcher s'.knowledge q)
    (hf : ∀ uri text v v' offset, question s.dispatcher s.knowledge ⟨.ofText uri text v, offset⟩ =
      question s.dispatcher s.knowledge ⟨.ofText uri text v', offset⟩)
    (ht : s.store.SameTexts s'.store) (hs : s.store.Keyed) (hs' : s'.store.Keyed) (uri : String)
    (position : Position) : s.asked uri position question = s'.asked uri position question := by
  rw [asked_eq, asked_eq]
  refine congrArg (Option.getD · []) (answer_congr
    (f := fun dispatcher k d => (question dispatcher k ⟨d, d.text.offsetOf position⟩).result)
    hd (fun d => ?_) (fun u t v v' => ?_) ht hs hs' uri)
  · exact congrArg Reply.result (hk _)
  · exact congrArg Reply.result (hf u t v v' (t.offsetOf position))

theorem sameAnswers_of_similar (hc : s.config = s'.config) (hk : s.knowledge.Similar s'.knowledge)
    (ht : s.store.SameTexts s'.store) (hs : s.store.Keyed) (hs' : s'.store.Keyed) :
    s.SameAnswers s' := by
  have hd : s.dispatcher = s'.dispatcher := by rw [dispatcher, dispatcher, hc]
  have ha : ∀ a ∈ s.dispatcher.analyzers, a.Consistent s.knowledge s'.knowledge :=
    hk.consistent _ _
  refine ⟨fun uri => ?_, fun uri position => ?_, fun uri position => ?_, fun uri position => ?_,
    fun uri position => ?_, fun uri => ?_⟩
  · rw [diagnostics_eq, diagnostics_eq]
    refine congrArg (Option.getD · []) (answer_congr
      (f := fun dispatcher k d => (dispatcher.diagnostics k d).result)
      hd (fun d => ?_) (fun _ _ _ _ => rfl) ht hs hs' uri)
    exact congrArg Reply.result
      (Dispatcher.collect_congr _ fun a h => congrFun (ha a h).diagnostics d)
  · refine asked_congr hd (fun q => ?_) (fun _ _ _ _ _ => rfl) ht hs hs' uri position
    exact Dispatcher.collect_congr _ fun a h => congrFun (ha a h).definitions q
  · refine asked_congr hd (fun q => ?_) (fun _ _ _ _ _ => rfl) ht hs hs' uri position
    exact Dispatcher.collect_congr _ fun a h => congrFun (ha a h).references q
  · rw [hover_eq, hover_eq]
    refine congrArg Option.join (answer_congr
      (f := fun dispatcher k d => (dispatcher.hover k ⟨d, d.text.offsetOf position⟩).result)
      hd (fun d => ?_) (fun _ _ _ _ => rfl) ht hs hs' uri)
    exact congrArg Reply.result
      (Dispatcher.firstAnswer_congr fun a h => congrFun (ha a h).hover _)
  · refine asked_congr hd (fun q => ?_) (fun _ _ _ _ _ => rfl) ht hs hs' uri position
    exact Dispatcher.collect_congr _ fun a h => congrFun (ha a h).completions q
  · rw [tokens_eq, tokens_eq]
    refine congrArg (Option.getD · []) (answer_congr
      (f := fun dispatcher k d => (dispatcher.tokens k d).result)
      hd (fun d => ?_) (fun _ _ _ _ => rfl) ht hs hs' uri)
    exact congrArg (fun r : Reply _ => SemanticToken.merge r.result)
      (Dispatcher.collect_congr _ fun a h => congrFun (ha a h).tokens d)

/-! ### A fresh session -/

/-- The roots are added, then the documents opened one after the other. -/
def freshEvents (roots : List Path) (docs : List Document) : List Event :=
  roots.map .rootAdded ++ docs.map fun d => .opened d.uri d.text d.version 0

/-- Adding roots touches nothing else, and no root is left out if none stands in the list twice. -/
theorem foldl_rootAdded (roots : List Path) (s : Session)
    (h : (s.workspaceRoots ++ roots).Pairwise fun a b => b.same a = false) :
    (roots.map Event.rootAdded).foldl step s =
      { s with workspaceRoots := s.workspaceRoots ++ roots } := by
  induction roots generalizing s with
  | nil => rw [List.append_nil]; rfl
  | cons root roots ih =>
    have hn : ¬ s.workspaceRoots.any root.same = true := by
      intro ha
      obtain ⟨r, hr, hsame⟩ := List.any_eq_true.1 ha
      have := (List.pairwise_append.1 h).2.2 r hr root List.mem_cons_self
      rw [hsame] at this
      cases this
    have hstep : s.step (.rootAdded root) =
        { s with workspaceRoots := s.workspaceRoots ++ [root] } := if_neg hn
    rw [List.map_cons, List.foldl_cons, hstep, ih, List.append_assoc]
    · rfl
    · rwa [List.append_assoc]

/-- Opening a document under its canonical URI stores it as it is. -/
theorem foldl_opened (docs : List Document) (hd : ∀ d ∈ docs, Uri.canonical d.uri = d.uri)
    (s : Session) :
    ((docs.map fun d => .opened d.uri d.text d.version 0).foldl step s).store =
      docs.foldl Store.put s.store ∧
    ((docs.map fun d => .opened d.uri d.text d.version 0).foldl step s).workspaceRoots =
      s.workspaceRoots := by
  induction docs generalizing s with
  | nil => exact ⟨rfl, rfl⟩
  | cons d docs ih =>
    obtain ⟨hs, hr⟩ := ih (fun e he => hd e (List.mem_cons_of_mem d he))
      (s.step (.opened d.uri d.text d.version 0))
    have hput : (s.step (.opened d.uri d.text d.version 0)).store = s.store.put d := by
      show s.store.put (.ofText (Uri.canonical d.uri) d.text d.version) = _
      rw [hd d List.mem_cons_self, ← d.eq_ofText]
    rw [List.map_cons, List.foldl_cons, List.foldl_cons, hs, hr, hput]
    exact ⟨rfl, rfl⟩

theorem get?_foldl_put (docs : List Document) (store : Store) (uri : String) :
    (docs.foldl Store.put store).get? uri =
      (docs.reverse.find? (·.uri == uri)).or (store.get? uri) := by
  induction docs generalizing store with
  | nil => rfl
  | cons d docs ih =>
    have hput : (store.put d).get? uri = ([d].find? (·.uri == uri)).or (store.get? uri) := by
      simp only [Store.get?, Store.put, Table.get?_insert, List.find?_cons, List.find?_nil]
      by_cases h : uri = d.uri
      · simp [h]
      · have hb : (d.uri == uri) = false := beq_false_of_ne (Ne.symm h)
        simp [h, hb]
    rw [List.foldl_cons, ih, hput, List.reverse_cons, List.find?_append, Option.or_assoc]

/-- The documents of a store, put into an empty one in any order, make up the same store. -/
theorem get?_foldl_put_values {store : Store} (hk : store.Keyed) {docs : List Document}
    (hp : docs.Perm store.documents.values) (uri : String) :
    (docs.foldl Store.put .empty).get? uri = store.get? uri := by
  have hm : ∀ d, d ∈ docs.reverse ↔ store.get? d.uri = some d := by
    intro d
    rw [List.mem_reverse, hp.mem_iff, Table.mem_values_iff]
    constructor
    · rintro ⟨uri, hd⟩
      rw [hk uri d hd]
      exact hd
    · exact fun hd => ⟨d.uri, hd⟩
  rw [get?_foldl_put, show Store.empty.get? uri = none from rfl, Option.or_none]
  cases hd : docs.reverse.find? (·.uri == uri) with
  | some d =>
    have hu : d.uri = uri := by simpa using List.find?_some hd
    rw [← hu]
    exact ((hm d).1 (List.mem_of_find?_eq_some hd)).symm
  | none =>
    cases hs : store.get? uri with
    | none => rfl
    | some d =>
      have hu := hk uri d hs
      have hr := List.find?_eq_none.1 hd d ((hm d).2 (hu ▸ hs))
      exact absurd (beq_iff_eq.2 hu) hr

/-- What a fresh session with the roots and documents of a sound one holds and knows. -/
theorem fresh_spec (config : Config) (hs : s.Sound) {docs : List Document}
    (hp : docs.Perm s.store.documents.values) :
    (run config (freshEvents s.workspaceRoots docs)).UpToDate ∧
      (run config (freshEvents s.workspaceRoots docs)).workspaceRoots = s.workspaceRoots ∧
      s.store.SameTexts (run config (freshEvents s.workspaceRoots docs)).store := by
  let opens : List Event := docs.map fun d => .opened d.uri d.text d.version 0
  let s₀ : Session := { start config with workspaceRoots := s.workspaceRoots }
  have hrun : run config (freshEvents s.workspaceRoots docs) = opens.foldl step s₀ := by
    rw [freshEvents, run_append, run, foldl_rootAdded s.workspaceRoots (start config) hs.roots]
    rfl
  have hd : ∀ d ∈ docs, Uri.canonical d.uri = d.uri := by
    intro d hd
    obtain ⟨uri, hu⟩ := Table.mem_values_iff.1 (hp.mem_iff.1 hd)
    exact hs.canonical uri d hu
  obtain ⟨hstore, hroots⟩ := foldl_opened docs hd s₀
  -- before the first document is opened there is nothing to resolve, whatever the roots are
  have hs₀ : s₀.Sound :=
    { sound_start config with roots := hs.roots }
  have hnew : ∀ root, Event.rootAdded root ∉ opens := by
    intro root h
    obtain ⟨d, -, hd⟩ := List.mem_map.1 h
    cases hd
  rw [hrun]
  refine ⟨upToDate_foldl hs₀ (current_empty _) hnew, hroots, fun uri => ?_⟩
  rw [hstore]
  exact congrArg _ (get?_foldl_put_values hs.keyed hp uri).symm

theorem sameAnswers_of_upToDate (hs : s.Sound) (hs' : s'.Sound) (h : s.UpToDate) (h' : s'.UpToDate)
    (hc : s.config = s'.config) (hr : s.roots = s'.roots) (ht : s.store.SameTexts s'.store) :
    s.SameAnswers s' :=
  sameAnswers_of_similar hc (h.similar h' ht hs.keyed hs'.keyed hr) ht hs.keyed hs'.keyed

/-- **History independence.**  Settled runs of one configuration that end with the same roots and the
same texts answer every question alike.  They answer like a fresh session, too, which adds the roots
and opens each document once, in any order. -/
theorem sameAnswers_run (h : Settled config es) (h' : Settled config es')
    (hr : (run config es).roots = (run config es').roots)
    (ht : (run config es).store.SameTexts (run config es').store) :
    (run config es).SameAnswers (run config es') ∧
      ∀ docs : List Document, docs.Perm (run config es).store.documents.values →
        (run config es).SameAnswers
          (run config (freshEvents (run config es).workspaceRoots docs)) := by
  have hs := sound_run config es
  have hc := config_run config es
  refine ⟨?_, fun docs hp => ?_⟩
  · exact sameAnswers_of_upToDate hs (sound_run config es') (upToDate_run h) (upToDate_run h')
      (hc.trans (config_run config es').symm) hr ht
  · obtain ⟨hfresh, hroots, htexts⟩ := fresh_spec config hs hp
    have hc' := hc.trans (config_run config (freshEvents (run config es).workspaceRoots docs)).symm
    refine sameAnswers_of_upToDate hs (sound_run ..) (upToDate_run h) hfresh hc' ?_ htexts
    rw [Session.roots, Session.roots, hroots, hc']

end Session

namespace Session

/-- A document that had another text before, opened while the roots were others. -/
theorem sameAnswers_reopened :
    (run .default [.rootAdded ⟨['/', 'w']⟩, .opened "u:a" ['x'] 1 0,
      .opened "u:b" ['y'] 1 0]).SameAnswers
      (run .default [.opened "u:b" ['z'] 1 0, .rootAdded ⟨['/', 'w']⟩, .opened "u:a" ['x'] 7 3,
        .opened "u:b" ['y'] 2 5]) := by
  have huri : ∀ (uri : String) (text : Text) (v : Int), (Document.ofText uri text v).uri = uri :=
    fun _ _ _ => rfl
  refine (sameAnswers_run (.inr ⟨[.rootAdded ⟨['/', 'w']⟩], _, _, rfl, rfl, ?_⟩)
    (.inr ⟨[.opened "u:b" ['z'] 1 0, .rootAdded ⟨['/', 'w']⟩], _, _, rfl, rfl, ?_⟩) ?_ ?_).1
  · simp
  · simp
  · unfold run
    rfl
  · intro uri
    show Option.map _ (Table.get? (Table.insert (Table.insert _ _ _) _ _) _) =
      Option.map _ (Table.get? (Table.insert (Table.insert (Table.insert _ _ _) _ _) _ _) _)
    simp only [Table.get?_insert, huri]
    by_cases hb : uri = Uri.canonical "u:b"
    · rw [if_pos hb, if_pos hb]
      rfl
    · by_cases ha : uri = Uri.canonical "u:a"
      · rw [if_neg hb, if_neg hb, if_pos ha, if_pos ha]
        rfl
      · rw [if_neg hb, if_neg hb, if_neg ha, if_neg ha, if_neg hb]
        rfl

end Session

end RouteScript
