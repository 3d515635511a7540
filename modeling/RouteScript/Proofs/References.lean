import Mathlib.Data.String.Basic
import RouteScript.Proofs.CallEdges
import RouteScript.Proofs.CalledNames
import RouteScript.Proofs.OccurrenceRanges

/-!
# References to routines

The graph keeps the calls that were resolved when a document came or went, and a question about a
routine resolves all call sites anew.  Both speak of the same call sites, since where a call leads
depends on the routines and the imports only.  What is shown of them is in order and free of
repetitions, since the names in calls and definitions are apart, in a text that is no module, too.

* `Knowledge.Current.registered`: the definition in a node is one of the stored document.
* `Knowledge.Current.routineAt?_call`, `routineAt?_name`: the routine that a place names.
* `Session.sitesTo`: the call sites that lead to a routine.
* `Session.references_run`: callers, callees and references tell of these call sites.
-/

namespace RouteScript

open Python.Node (moduleScope)
open CallAnalysis VariableAnalysis

/-! ### Registered routines -/

namespace CallGraph

/-- A node has the definition that was registered last, or was there before. -/
theorem node?_foldl_addRoutine_cases {defs : List RoutineDef} {g : CallGraph} {key : RoutineKey}
    {n : CallNode} (h : (defs.foldl addRoutine g).node? key = some n) :
    (n.definition ∈ defs ∧ n.definition.key = key) ∨ g.node? key = some n := by
  induction defs generalizing g with
  | nil => exact .inr h
  | cons d defs ih =>
    rcases ih h with ⟨hm, hkey⟩ | h
    · exact .inl ⟨List.mem_cons_of_mem d hm, hkey⟩
    · rw [node?_addRoutine] at h
      split at h
      · rename_i hkey
        cases h
        exact .inl ⟨List.mem_cons_self, hkey.symm⟩
      · exact .inr h

theorem mem_routinesOf {g : CallGraph} {uri : String} {r : RoutineDef} :
    r ∈ g.routinesOf uri ↔
      ∃ key n, g.node? key = some n ∧ n.definition = r ∧ r.key.uri = uri := by
  simp only [routinesOf, List.mem_mergeSort, List.mem_map, List.mem_filter, Table.mem_values_iff,
    beq_iff_eq]
  constructor
  · rintro ⟨n, ⟨⟨key, hn⟩, huri⟩, rfl⟩
    exact ⟨key, n, hn, rfl, huri⟩
  · rintro ⟨key, n, hn, rfl, huri⟩
    exact ⟨n, ⟨⟨key, hn⟩, huri⟩, rfl⟩

end CallGraph

namespace Knowledge

variable [Python.Recovery] {store : Store} {roots : List Path} {k : Knowledge} {key : RoutineKey}
    {n : CallNode}

/-- The definition in a node is one of the stored document. -/
theorem Current.registered (h : k.Current ⟨store, roots⟩) (hn : k.graph.node? key = some n) :
    n.definition.key = key ∧
      ∃ d, store.get? key.uri = some d ∧ n.definition ∈ routinesIn d := by
  have hbare := h.routines key
  rw [CallGraph.node?_clearCalls, hn] at hbare
  obtain ⟨d, hd, hown⟩ := Option.bind_eq_some_iff.1 hbare.symm
  rw [Document.ownGraph, recordAccess_eq, node?_recordScopes] at hown
  obtain ⟨m, hm, hbare⟩ := Option.map_eq_some_iff.1 hown
  have hdef : m.definition = n.definition := by
    have := congrArg CallNode.definition hbare
    split at this <;> exact this
  obtain ⟨hmem, hkey⟩ := (CallGraph.node?_foldl_addRoutine_cases hm).resolve_right fun h => by
    cases h
  rw [hdef] at hmem hkey
  exact ⟨hkey, d, hd, hmem⟩

/-- The definition in the node of a function. -/
theorem Current.exists_routine (h : k.Current ⟨store, roots⟩) (hn : k.graph.node? key = some n)
    (hname : key.name ≠ moduleScope) : ∃ d r, store.get? key.uri = some d ∧ r ∈ d.routines ∧
      n.definition = routineDef d r := by
  obtain ⟨rfl, d, hd, hm⟩ := h.registered hn
  rcases List.mem_cons.1 hm with hmodule | hm
  · rw [hmodule] at hname
    exact absurd rfl hname
  · obtain ⟨r, hr, hdef⟩ := List.mem_map.1 hm
    exact ⟨d, r, hd, hr, hdef.symm⟩

/-! ### The routine at a place -/

section Place

variable {q : Query}

/-- The call site at a place is the one that touches it. -/
theorem Current.siteAt?_eq_some (h : k.Current ⟨store, roots⟩)
    (hq : store.get? q.document.uri = some q.document) {s : CallSite}
    (hs : s ∈ q.document.callSites) (ht : s.calleeSpan.Touches q.offset) :
    ∃ range, siteAt? k q = some ⟨s, range⟩ := by
  rw [siteAt?, h.usesOf_sites hq, linkSites, List.find?_map]
  cases hf : q.document.callSites.find? _ with
  | none => exact absurd ht (by simpa using List.find?_eq_none.1 hf s hs)
  | some s' =>
    have hs' := List.mem_of_find?_eq_some hf
    have ht' : s'.calleeSpan.Touches q.offset := by simpa using List.find?_some hf
    obtain rfl := Document.eq_of_isAt hs hs' (Text.isAt_of_touches ht) (Text.isAt_of_touches ht')
    exact ⟨_, rfl⟩

/-- No call site is at the name of a definition. -/
theorem Current.siteAt?_eq_none (h : k.Current ⟨store, roots⟩)
    (hq : store.get? q.document.uri = some q.document) {r : Routine}
    (hr : r ∈ q.document.routines) (ht : q.document.text.IsAt r.nameSpan q.offset) :
    siteAt? k q = none := by
  rw [siteAt?, h.usesOf_sites hq, linkSites, List.find?_map, Option.map_eq_none_iff,
    List.find?_eq_none]
  intro s hs hts
  exact Document.not_isAt_calleeSpan hr hs ht (Text.isAt_of_touches (by simpa using hts))

/-- A place in the called name of a call site names what the call leads to. -/
theorem Current.routineAt?_call (h : k.Current ⟨store, roots⟩)
    (hq : store.get? q.document.uri = some q.document) {s : CallSite}
    (hs : s ∈ q.document.callSites) (ht : s.calleeSpan.Touches q.offset) :
    routineAt? k q = resolve? k.graph k.imports q.document.uri s := by
  obtain ⟨range, hsite⟩ := h.siteAt?_eq_some hq hs ht
  rw [routineAt?, hsite]

/-- What is registered at a place, other than the document itself, is a definition whose name is
there. -/
theorem Current.exists_of_isNamedAt (h : k.Current ⟨store, roots⟩)
    (hq : store.get? q.document.uri = some q.document) (hn : k.graph.node? key = some n)
    (huri : key.uri = q.document.uri) (hat : isNamedAt q n.definition = true) :
    ∃ r ∈ q.document.routines, n.definition = routineDef q.document r ∧
      q.document.text.IsAt r.nameSpan q.offset := by
  simp only [isNamedAt, Bool.and_eq_true, bne_iff_ne, ne_eq, decide_eq_true_eq] at hat
  obtain ⟨⟨hname, hstart⟩, hstop⟩ := hat
  rw [(h.registered hn).1] at hname
  obtain ⟨d, r, hd, hr, hdef⟩ := h.exists_routine hn hname
  obtain rfl : q.document = d := by
    rw [huri, hq] at hd
    exact Option.some.inj hd
  rw [hdef] at hstart hstop
  exact ⟨r, hr, hdef, hstart, hstop.trans (Text.offsetOf_positionOf_le ..)⟩

/-- A place in the name of a registered definition names the routine. -/
theorem Current.routineAt?_name (h : k.Current ⟨store, roots⟩)
    (hq : store.get? q.document.uri = some q.document) (hn : k.graph.node? key = some n)
    (huri : key.uri = q.document.uri) (hat : isNamedAt q n.definition = true) :
    routineAt? k q = some key := by
  obtain ⟨r, hr, hdef, ht⟩ := h.exists_of_isNamedAt hq hn huri hat
  have hkey := (h.registered hn).1
  have hmem : n.definition ∈ k.graph.routinesOf q.document.uri := by
    refine CallGraph.mem_routinesOf.2 ⟨key, n, hn, rfl, ?_⟩
    rw [hkey, huri]
  rw [routineAt?, h.siteAt?_eq_none hq hr ht]
  -- any other definition that is found at the place has the same name
  cases hf : (k.graph.routinesOf q.document.uri).find? (isNamedAt q) with
  | none => exact absurd hat (List.find?_eq_none.1 hf _ hmem)
  | some found =>
    obtain ⟨key', n', hn', rfl, huri'⟩ := CallGraph.mem_routinesOf.1 (List.mem_of_find?_eq_some hf)
    have hkey' := (h.registered hn').1
    rw [hkey'] at huri'
    obtain ⟨r', hr', hdef', ht'⟩ := h.exists_of_isNamedAt hq hn' huri' (List.find?_some hf)
    rw [← hkey, hdef, Option.map_some, hdef', routineDef, routineDef,
      Document.name_eq_of_isAt hr hr' ht ht']

end Place

end Knowledge

/-! ### The order of places -/

/-- The first location stands in a document with a smaller URI or starts further up in the same
one. -/
def Location.Before (a b : Location) : Prop :=
  a.uri < b.uri ∨ a.uri = b.uri ∧ (a.range.start.line < b.range.start.line ∨
    a.range.start.line = b.range.start.line ∧ a.range.start.character < b.range.start.character)

theorem Location.Before.asymm {a b : Location} (hab : a.Before b) : ¬ b.Before a := by
  rcases hab with hab | ⟨huri, hab⟩
  · rintro (hba | ⟨huri, -⟩)
    · exact String.lt_irrefl _ (String.lt_trans hab hba)
    · exact String.lt_irrefl _ (huri ▸ hab)
  · rintro (hba | ⟨-, hba⟩)
    · exact String.lt_irrefl _ (huri ▸ hba)
    · omega

namespace CallAnalysis

theorem comesFirst_iff {a b : String × Range} : comesFirst a b = true ↔
    a.1 < b.1 ∨ a.1 = b.1 ∧ (a.2.start.line < b.2.start.line ∨
      a.2.start.line = b.2.start.line ∧ a.2.start.character ≤ b.2.start.character) := by
  simp [comesFirst, Position.le]

theorem comesFirst_trans {a b c : String × Range} (hab : comesFirst a b = true)
    (hbc : comesFirst b c = true) : comesFirst a c = true := by
  rw [comesFirst_iff] at hab hbc ⊢
  rcases hab with hab | ⟨hab, hle⟩ <;> rcases hbc with hbc | ⟨hbc, hle'⟩
  · exact .inl (String.lt_trans hab hbc)
  · exact .inl (hbc ▸ hab)
  · exact .inl (hab ▸ hbc)
  · exact .inr ⟨hab.trans hbc, by omega⟩

theorem comesFirst_total (a b : String × Range) : (comesFirst a b || comesFirst b a) = true := by
  rw [Bool.or_eq_true, comesFirst_iff, comesFirst_iff]
  rcases lt_trichotomy a.1 b.1 with h | h | h
  · exact .inl (.inl h)
  · rcases Nat.lt_trichotomy a.2.start.line b.2.start.line with hl | hl | hl
    · exact .inl (.inr ⟨h, .inl hl⟩)
    · rcases Nat.le_total a.2.start.character b.2.start.character with hc | hc
      · exact .inl (.inr ⟨h, .inr ⟨hl, hc⟩⟩)
      · exact .inr (.inr ⟨h.symm, .inr ⟨hl.symm, hc⟩⟩)
    · exact .inr (.inr ⟨h.symm, .inl hl⟩)
  · exact .inr (.inl h)

/-- The places start at different positions or stand in different documents. -/
def Differ (a b : String × Range) : Prop := a.1 = b.1 → a.2.start ≠ b.2.start

theorem Differ.symm {a b : String × Range} (h : Differ a b) : Differ b a :=
  fun huri hstart => h huri.symm hstart.symm

theorem before_of_comesFirst {a b : String × Range} (h : comesFirst a b = true)
    (hne : Differ a b) : Location.Before ⟨a.1, a.2⟩ ⟨b.1, b.2⟩ := by
  rcases comesFirst_iff.1 h with h | ⟨huri, h | ⟨hl, hc⟩⟩
  · exact .inl h
  · exact .inr ⟨huri, .inl h⟩
  · refine .inr ⟨huri, .inr ⟨hl, Nat.lt_of_le_of_ne hc fun heq => hne huri ?_⟩⟩
    obtain ⟨_, ⟨⟨_, _⟩, _⟩⟩ := a
    obtain ⟨_, ⟨⟨_, _⟩, _⟩⟩ := b
    simp only at hl heq
    rw [hl, heq]

/-- Different places, once they are sorted, stand one behind the other. -/
theorem pairwise_before {places : List (String × Range)} (h : places.Pairwise Differ) :
    ((places.mergeSort comesFirst).map fun p => Location.mk p.1 p.2).Pairwise Location.Before := by
  have hsorted : (places.mergeSort comesFirst).Pairwise fun a b => comesFirst a b = true := by
    refine List.pairwise_mergeSort (fun a b c hab hbc => ?_) (fun a b => ?_) places
    · exact comesFirst_trans hab hbc
    · exact comesFirst_total a b
  have hdiffer : (places.mergeSort comesFirst).Pairwise Differ :=
    ((List.mergeSort_perm ..).pairwise_iff Differ.symm).2 h
  refine List.pairwise_map.2 ((hsorted.and hdiffer).imp ?_)
  rintro a b ⟨hab, hne⟩
  exact before_of_comesFirst hab hne

end CallAnalysis

/-! ### The call sites that lead to a routine -/

/-- Where a call site names the routine that it calls. -/
def Document.calledAt [Python.Recovery] (d : Document) (site : CallSite) : Location :=
  ⟨d.uri, d.text.rangeOf site.calleeSpan⟩

namespace Session

variable [Python.Recovery] {s : Session} {key : RoutineKey}

/-- The call sites that lead to a routine, each with its document. -/
def sitesTo (s : Session) (key : RoutineKey) : List (Document × CallSite) :=
  s.store.documents.entries.flatMap fun (uri, d) =>
    (d.callSites.filter fun site =>
      resolve? s.knowledge.graph s.knowledge.imports uri site == some key).map fun site => (d, site)

theorem Sound.mem_sitesTo (hs : s.Sound) {d : Document} {site : CallSite} :
    (d, site) ∈ s.sitesTo key ↔ s.store.get? d.uri = some d ∧ site ∈ d.callSites ∧
      resolve? s.knowledge.graph s.knowledge.imports d.uri site = some key := by
  simp only [sitesTo, List.mem_flatMap, Prod.exists, List.mem_map, List.mem_filter, beq_iff_eq,
    Table.mem_entries_iff, Prod.mk.injEq]
  constructor
  · rintro ⟨uri, _, hd, _, ⟨hsite, hr⟩, rfl, rfl⟩
    obtain rfl := hs.keyed uri _ hd
    exact ⟨hd, hsite, hr⟩
  · rintro ⟨hd, hsite, hr⟩
    exact ⟨d.uri, d, hd, site, ⟨hsite, hr⟩, rfl, rfl⟩

/-- The calls that are listed for a routine are those call sites. -/
theorem Sound.callsOf_eq (hs : s.Sound) : callsOf s.knowledge key =
    (s.sitesTo key).map fun p => (p.1.uri, p.1.text.rangeOf p.2.calleeSpan) := by
  obtain ⟨roots, hc⟩ := hs.current
  rw [callsOf, hc.sites, sitesTo, List.map_flatMap, Table.mapValues, List.flatMap_map]
  refine List.flatMap_congr fun e he => ?_
  obtain ⟨uri, d⟩ := e
  obtain rfl := hs.keyed uri d (Table.mem_entries_iff.1 he)
  simp [linkSites, List.filter_map, Function.comp_def]

/-- The call sites that lead to a routine are shown at different places. -/
theorem Sound.pairwise_callsOf (hs : s.Sound) : (callsOf s.knowledge key).Pairwise Differ := by
  rw [hs.callsOf_eq, List.pairwise_map, sitesTo, List.pairwise_flatMap]
  constructor
  · rintro ⟨uri, d⟩ -
    refine List.pairwise_map.2 ((d.pairwise_callSites.imp_of_mem ?_).filter _)
    intro a b ha hb hab _
    exact hab.shown_ne (Document.start_le_of_mem_callSites ha)
      (Document.start_le_of_mem_callSites hb)
  · refine s.store.documents.ascending.imp_of_mem ?_
    rintro ⟨uri, d⟩ ⟨uri', d'⟩ hd hd' hlt p hp p' hp' huri
    obtain ⟨_, -, rfl⟩ := List.mem_map.1 hp
    obtain ⟨_, -, rfl⟩ := List.mem_map.1 hp'
    have hu := hs.keyed uri d (Table.mem_entries_iff.1 hd)
    have hu' := hs.keyed uri' d' (Table.mem_entries_iff.1 hd')
    rw [← hu, ← hu', show d.uri = d'.uri from huri] at hlt
    exact Ordering.noConfusion (Std.ReflCmp.compare_self.symm.trans hlt)

/-- The name in the definition of a function is shown at another place than its calls. -/
theorem Sound.pairwise_places (hs : s.Sound) {n : CallNode}
    (hn : s.knowledge.graph.node? key = some n) (hname : key.name ≠ moduleScope) :
    (places s.knowledge key).Pairwise Differ := by
  obtain ⟨roots, hc⟩ := hs.current
  rw [places, hn]
  refine List.pairwise_cons.2 ⟨fun p hp huri hstart => ?_, hs.pairwise_callsOf⟩
  rw [hs.callsOf_eq] at hp
  obtain ⟨⟨d', site⟩, hm, rfl⟩ := List.mem_map.1 hp
  obtain ⟨hd', hsite, -⟩ := hs.mem_sitesTo.1 hm
  obtain ⟨d, r, hd, hr, hdef⟩ := hc.exists_routine hn hname
  simp only [hdef, routineDef] at huri hstart
  obtain rfl : d = d' := by
    rw [← huri, hs.keyed _ d hd, hd] at hd'
    exact Option.some.inj hd'
  exact (Document.apart_nameSpan hr hsite).shown_ne (Document.start_le_of_mem_routines hr)
    (Document.start_le_of_mem_callSites hsite) hstart

/-- The references to a function are the name in its definition and the names in the call sites that
lead to it, one behind the other. -/
theorem Sound.references_eq (hs : s.Sound)
    (hvalid : ∀ uri, s.store.contains uri = true → Uri.isReference uri = true)
    {n : CallNode} (hn : s.knowledge.graph.node? key = some n) (hname : key.name ≠ moduleScope)
    {q : Query} (hq : routineAt? s.knowledge q = some key) :
    (CallAnalysis.references s.knowledge q).Perm
        (⟨key.uri, n.definition.nameRange⟩ ::
          (s.sitesTo key).map fun p => p.1.calledAt p.2) ∧
      (CallAnalysis.references s.knowledge q).Pairwise Location.Before := by
  obtain ⟨roots, hc⟩ := hs.current
  obtain ⟨hkey, d, hd, -⟩ := hc.registered hn
  have hplaces : places s.knowledge key = (key.uri, n.definition.nameRange) ::
      (s.sitesTo key).map fun p => (p.1.uri, p.1.text.rangeOf p.2.calleeSpan) := by
    rw [places, hn, hs.callsOf_eq, ← hkey]
    rfl
  have hlisted : CallAnalysis.references s.knowledge q =
      ((places s.knowledge key).mergeSort comesFirst).map fun p => ⟨p.1, p.2⟩ := by
    rw [CallAnalysis.references, hq]
    refine List.filterMap_eq_map_iff_forall_eq_some.2 fun p hp => ?_
    refine if_pos (hvalid p.1 ?_)
    rw [List.mem_mergeSort, hplaces] at hp
    rcases List.mem_cons.1 hp with rfl | hp
    · exact Option.isSome_of_eq_some hd
    · obtain ⟨⟨d', site⟩, hm, rfl⟩ := List.mem_map.1 hp
      exact Option.isSome_of_eq_some (hs.mem_sitesTo.1 hm).1
  rw [hlisted]
  refine ⟨?_, pairwise_before (hs.pairwise_places hn hname)⟩
  refine ((List.mergeSort_perm ..).map _).trans ?_
  rw [hplaces, List.map_cons, List.map_map]
  rfl

end Session

/-! ### What the other analyzers say -/

theorem Span.Encloses.touches {outer inner : Span} {offset : Nat} (h : outer.Encloses inner)
    (ht : inner.Touches offset) : outer.Touches offset :=
  ⟨Nat.le_trans h.1 ht.1, Nat.le_trans ht.2 h.2⟩

theorem Document.exists_of_mem_occurrences [Python.Recovery] {d : Document} {o : Occurrence}
    (h : o ∈ d.occurrences) : ∃ call ∈ d.engineCalls, call.contentSpan.Encloses o.span := by
  obtain ⟨call, hcall, ho⟩ := List.mem_flatMap.1 h
  obtain ⟨hstart, -, hstop⟩ := span_of_mem_ofCall hcall ho
  exact ⟨call, hcall, hstart, hstop⟩

theorem CallbackAnalysis.exists_of_mem [Python.Recovery] {d : Document} {c : CallbackUse}
    (h : c ∈ d.engineCalls.filterMap (ofCall? d.text)) :
    ∃ call ∈ d.engineCalls, call.contentSpan.Encloses c.span := by
  obtain ⟨call, hcall, hc⟩ := List.mem_filterMap.1 h
  unfold ofCall? at hc
  split at hc
  · cases hc
    exact ⟨call, hcall, Nat.le_refl _, Nat.le_refl _⟩
  · cases hc

theorem HashTableAnalysis.exists_of_mem_uses [Python.Recovery] {d : Document} {u : TableUse}
    (h : u ∈ uses d) : ∃ call ∈ d.engineCalls, call.contentSpan.Encloses u.span := by
  rw [uses, List.mem_mergeSort] at h
  rcases List.mem_append.1 h with h | h
  · obtain ⟨call, hcall, hu⟩ := List.mem_filterMap.1 h
    obtain ⟨access, -, rfl⟩ := Option.map_eq_some_iff.1 hu
    exact ⟨call, hcall, Nat.le_refl _, Nat.le_refl _⟩
  · obtain ⟨o, ho, hu⟩ := List.mem_filterMap.1 h
    obtain ⟨access, -, hu⟩ := Option.bind_eq_some_iff.1 hu
    obtain ⟨table, -, hu⟩ := Option.bind_eq_some_iff.1 hu
    cases hu
    exact Document.exists_of_mem_occurrences ho

theorem StatisticAnalysis.exists_of_mem_uses [Python.Recovery] {d : Document} {u : StatisticUse}
    (h : u ∈ uses d) : ∃ call ∈ d.engineCalls, call.contentSpan.Encloses u.span := by
  rw [uses, List.mem_mergeSort] at h
  rcases List.mem_append.1 h with h | h
  · obtain ⟨call, hcall, hu⟩ := List.mem_filterMap.1 h
    unfold ofCall? at hu
    split at hu
    · cases hu
      exact ⟨call, hcall, Nat.le_refl _, Nat.le_refl _⟩
    · cases hu
  · obtain ⟨o, ho, hu⟩ := List.mem_filterMap.1 h
    unfold ofOccurrence? at hu
    split at hu
    · obtain ⟨name, -, rfl⟩ := Option.map_eq_some_iff.1 hu
      exact Document.exists_of_mem_occurrences ho
    · cases hu

/-- The place touches no literal of a call of the routing engine. -/
def Query.OutOfLiterals [Python.Recovery] (q : Query) : Prop :=
  ∀ call ∈ q.document.engineCalls, ¬ call.contentSpan.Touches q.offset

/-- Outside the literals, nothing is found that stands in them. -/
theorem Query.OutOfLiterals.find?_usesOf [Python.Recovery] {q : Query} (hout : q.OutOfLiterals)
    {υ : Type} {t : Table String (List υ)} {f : Document → List υ} {span : υ → Span} {store : Store}
    (ht : t = store.documents.mapValues fun _ d => f d)
    (hf : ∀ u ∈ f q.document, ∃ call ∈ q.document.engineCalls, call.contentSpan.Encloses (span u))
    (hq : store.get? q.document.uri = some q.document) :
    (t.usesOf q.document.uri).find? (fun u => (span u).Touches q.offset) = none := by
  rw [ht, Store.usesOf_mapValues f hq, List.find?_eq_none]
  intro u hu hut
  obtain ⟨call, hcall, hin⟩ := hf u hu
  exact hout call hcall (hin.touches (of_decide_eq_true hut))

namespace Session

variable [Python.Recovery] {s : Session} {key : RoutineKey}

theorem Sound.get?_of_query? (hs : s.Sound) {uri : String} {position : Position} {q : Query}
    (hq : s.query? uri position = some q) : s.store.get? q.document.uri = some q.document := by
  obtain ⟨d, hd, rfl⟩ := Option.map_eq_some_iff.1 hq
  rw [hs.keyed _ d hd]
  exact hd

/-- References to routines come first, and outside the literals there are no others. -/
theorem Sound.references_eq_append (hs : s.Sound) {uri : String} {position : Position}
    {q : Query} (hq : s.query? uri position = some q) :
    ∃ others, s.references uri position = CallAnalysis.references s.knowledge q ++ others ∧
      (q.OutOfLiterals → others = []) := by
  obtain ⟨roots, hc⟩ := hs.current
  have hstored := hs.get?_of_query? hq
  refine ⟨VariableAnalysis.references s.knowledge q ++
    (CallbackAnalysis.references s.knowledge q ++ (HashTableAnalysis.references s.knowledge q ++
      (StatisticAnalysis.references s.knowledge q ++ []))), ?_, fun hout => ?_⟩
  · rw [Session.references, asked, hq]
    rfl
  have hvariables : VariableAnalysis.references s.knowledge q = [] := by
    unfold VariableAnalysis.references
    cases ho : occurrenceAt? s.knowledge q with
    | none => rfl
    | some o =>
      obtain ⟨hm, hstart, hstop⟩ := hc.mem_of_occurrenceAt? hstored ho
      obtain ⟨call, hcall, hin⟩ := Document.exists_of_mem_occurrences hm
      exact absurd (hin.touches ⟨hstart, Nat.le_of_lt hstop⟩) (hout call hcall)
  have hcallbacks : CallbackAnalysis.references s.knowledge q = [] := by
    unfold CallbackAnalysis.references CallbackAnalysis.callbackAt?
    rw [hout.find?_usesOf hc.callbacks (fun _ => CallbackAnalysis.exists_of_mem) hstored]
  have htables : HashTableAnalysis.references s.knowledge q = [] := by
    unfold HashTableAnalysis.references HashTableAnalysis.useAt?
    rw [hout.find?_usesOf hc.tables (fun _ => HashTableAnalysis.exists_of_mem_uses) hstored]
  have hstatistics : StatisticAnalysis.references s.knowledge q = [] := by
    unfold StatisticAnalysis.references
    rw [hout.find?_usesOf hc.statistics (fun _ => StatisticAnalysis.exists_of_mem_uses) hstored]
  rw [hvariables, hcallbacks, htables, hstatistics]
  rfl

/-! ### Agreement -/

/-- The place in a stored document is in the name of the registered definition of a routine, or in
the called name of a call site that leads to the routine. -/
def Names (s : Session) (q : Query) (key : RoutineKey) : Prop :=
  s.store.get? q.document.uri = some q.document ∧
    ((∃ n, s.knowledge.graph.node? key = some n ∧ q.document.uri = key.uri ∧
        q.document.text.offsetOf n.definition.nameRange.start ≤ q.offset ∧
        q.offset ≤ q.document.text.offsetOf n.definition.nameRange.stop) ∨
      ∃ site ∈ q.document.callSites, site.calleeSpan.Touches q.offset ∧
        resolve? s.knowledge.graph s.knowledge.imports q.document.uri site = some key)

theorem Sound.routineAt?_of_names (hs : s.Sound) {q : Query} (h : s.Names q key)
    (hname : key.name ≠ moduleScope) : routineAt? s.knowledge q = some key := by
  obtain ⟨roots, hc⟩ := hs.current
  obtain ⟨hq, ⟨n, hn, huri, hstart, hstop⟩ | ⟨site, hsite, ht, hr⟩⟩ := h
  · refine hc.routineAt?_name hq hn huri.symm ?_
    simp only [isNamedAt, (hc.registered hn).1, Bool.and_eq_true, bne_iff_ne, decide_eq_true_eq]
    exact ⟨⟨hname, hstart⟩, hstop⟩
  · exact (hc.routineAt?_call hq hsite ht).trans hr

/-- **Callers, callees and references agree.**  After every run, a routine is called by those whose
call sites lead to it, and calls those that it is a caller of.  Every call site that leads somewhere
adds a call to the graph, since both ends of the call have nodes.  If all URIs can be shown, the
references to a function, asked for at the name in its definition or at any call that leads to it,
are this name and the names in the call sites that lead to it, in order and each of them once.  The
session answers with them, and with nothing else outside the literals of calls of the routing
engine. -/
theorem references_run (config : Config) (es : List Event) :
    (∀ key caller,
      (caller ∈ (run config es).knowledge.graph.callers key ↔
        ∃ p ∈ (run config es).sitesTo key, caller = ⟨p.1.uri, p.2.scope⟩) ∧
      (key ∈ (run config es).knowledge.graph.callees caller ↔
        caller ∈ (run config es).knowledge.graph.callers key)) ∧
    (∀ uri d, (run config es).store.get? uri = some d → ∀ site ∈ d.callSites, ∀ key,
      resolve? (run config es).knowledge.graph (run config es).knowledge.imports uri site =
          some key →
        (run config es).knowledge.graph.contains ⟨uri, site.scope⟩ = true ∧
        (run config es).knowledge.graph.contains key = true ∧
        key ∈ (run config es).knowledge.graph.callees ⟨uri, site.scope⟩) ∧
    ((∀ uri, (run config es).store.contains uri = true → Uri.isReference uri = true) →
      ∀ key n, (run config es).knowledge.graph.node? key = some n → key.name ≠ moduleScope →
        ∀ q, (run config es).Names q key →
          (CallAnalysis.references (run config es).knowledge q).Perm
            (⟨key.uri, n.definition.nameRange⟩ ::
              ((run config es).sitesTo key).map fun p => p.1.calledAt p.2) ∧
          (CallAnalysis.references (run config es).knowledge q).Pairwise Location.Before ∧
          ∀ uri position, (run config es).query? uri position = some q →
            ∃ others, (run config es).references uri position =
                CallAnalysis.references (run config es).knowledge q ++ others ∧
              (q.OutOfLiterals → others = [])) := by
  have hs := sound_run config es
  obtain ⟨roots, hc⟩ := hs.current
  refine ⟨fun key caller => ⟨?_, hc.mem_callers_iff.symm⟩, ?_, ?_⟩
  · rw [hc.mem_callers_iff, hc.mem_callees_iff hs.keyed]
    constructor
    · rintro ⟨d, hd, site, hsite, hscope, hr⟩
      have huri := hs.keyed _ d hd
      rw [← huri] at hd hr
      refine ⟨(d, site), hs.mem_sitesTo.2 ⟨hd, hsite, hr⟩, ?_⟩
      rw [huri, hscope]
    · rintro ⟨⟨d, site⟩, hp, rfl⟩
      obtain ⟨hd, hsite, hr⟩ := hs.mem_sitesTo.1 hp
      exact ⟨d, hd, site, hsite, rfl, hr⟩
  · intro uri d hd site hsite key hr
    refine ⟨hc.contains_caller hs.keyed hd hsite, contains_of_resolve? hc.named hr, ?_⟩
    exact (hc.mem_callees_iff hs.keyed).2 ⟨d, hd, site, hsite, rfl, hr⟩
  · intro hvalid key n hn hname q hnames
    obtain ⟨hperm, hsorted⟩ :=
      hs.references_eq hvalid hn hname (hs.routineAt?_of_names hnames hname)
    exact ⟨hperm, hsorted, fun uri position hq => hs.references_eq_append hq⟩

end Session

namespace Session

/-- A function that the document itself calls. -/
def calledOnce : Text := "def f():\n    pass\n\nf()\n".toList

/-- Asked for at the definition or at the call, the references are both of them. -/
theorem references_calledOnce :
    ⟨"u:a", moduleScope⟩ ∈
      (run .default [.opened "u:a" calledOnce 1 0]).knowledge.graph.callers ⟨"u:a", "f"⟩ ∧
    ∀ position ∈ [⟨0, 4⟩, ⟨3, 0⟩],
      (run .default [.opened "u:a" calledOnce 1 0]).references "u:a" position =
        [⟨"u:a", ⟨0, 4⟩, ⟨0, 5⟩⟩, ⟨"u:a", ⟨3, 0⟩, ⟨3, 1⟩⟩] := by
  obtain ⟨d, hd⟩ : ∃ d, d = Document.ofText "u:a" calledOnce 1 := ⟨_, rfl⟩
  let r : Routine := ⟨"f", ⟨0, 17⟩, ⟨4, 5⟩, []⟩
  let site : CallSite := ⟨"f", none, moduleScope, ⟨19, 22⟩, ⟨19, 20⟩⟩
  have huri : d.uri = "u:a" := by rw [hd]; rfl
  have hroutines : d.routines = [r] := by rw [hd]; decide +kernel
  have hsites : d.callSites = [site] := by rw [hd]; decide +kernel
  have hcalls : d.engineCalls = [] := by rw [hd]; decide +kernel
  have hranges : d.text.rangeOf ⟨4, 5⟩ = ⟨⟨0, 4⟩, ⟨0, 5⟩⟩ ∧
      d.text.rangeOf ⟨19, 20⟩ = ⟨⟨3, 0⟩, ⟨3, 1⟩⟩ ∧ d.text.offsetOf ⟨0, 4⟩ = 4 ∧
      d.text.offsetOf ⟨0, 5⟩ = 5 ∧ d.text.offsetOf ⟨3, 0⟩ = 19 := by
    rw [hd]
    decide +kernel
  have hcanonical : Uri.canonical "u:a" = "u:a" := by decide +kernel
  have hstore : (run .default [.opened "u:a" calledOnce 1 0]).store = Store.empty.put d := by
    show Store.empty.put (.ofText (Uri.canonical "u:a") calledOnce 1) = _
    rw [hcanonical, hd]
  have hs := sound_run .default [.opened "u:a" calledOnce 1 0]
  have href := references_run .default [.opened "u:a" calledOnce 1 0]
  generalize run .default [.opened "u:a" calledOnce 1 0] = s at hstore hs href ⊢
  clear hd
  obtain ⟨hedges, -, href⟩ := href
  obtain ⟨roots, hc⟩ := hs.current
  have hentries : s.store.documents.entries = [("u:a", d)] := by
    rw [hstore, ← huri]
    rfl
  have hget : s.store.get? "u:a" = some d := by
    rw [hstore, ← huri]
    exact Table.get?_insert_self ..
  have hcontains : s.knowledge.graph.contains ⟨"u:a", "f"⟩ = true := by
    refine hc.contains_graph_iff.2 ⟨d, hget, routineDef d r, ?_, by rw [routineDef, huri]⟩
    rw [routinesIn, hroutines]
    exact List.mem_cons_of_mem _ List.mem_cons_self
  have hresolve : resolve? s.knowledge.graph s.knowledge.imports "u:a" site =
      some ⟨"u:a", "f"⟩ := by
    simp only [resolve?, resolvePlain?, known?, site, hcontains, if_true]
    rfl
  have hto : s.sitesTo ⟨"u:a", "f"⟩ = [(d, site)] := by
    simp [sitesTo, hentries, hsites, hresolve]
  obtain ⟨n, hn⟩ := Option.isSome_iff_exists.1 hcontains
  have hdefinition : n.definition.nameRange = ⟨⟨0, 4⟩, ⟨0, 5⟩⟩ := by
    obtain ⟨d', r', hd', hr', hdef⟩ := hc.exists_routine hn (by decide)
    obtain rfl : d = d' := Option.some.inj (hget.symm.trans hd')
    rw [hroutines] at hr'
    rw [hdef, List.mem_singleton.1 hr']
    exact hranges.1
  have hvalid : ∀ uri, s.store.contains uri = true → Uri.isReference uri = true := by
    intro uri h
    obtain ⟨e, he⟩ := Option.isSome_iff_exists.1 h
    have hm := Table.mem_entries_iff.2 he
    rw [hentries] at hm
    cases List.mem_singleton.1 hm
    decide +kernel
  have answer : ∀ position, s.Names ⟨d, d.text.offsetOf position⟩ ⟨"u:a", "f"⟩ →
      s.references "u:a" position = [⟨"u:a", ⟨0, 4⟩, ⟨0, 5⟩⟩, ⟨"u:a", ⟨3, 0⟩, ⟨3, 1⟩⟩] := by
    intro position hnames
    have hq : s.query? "u:a" position = some ⟨d, d.text.offsetOf position⟩ := by
      rw [query?, document?, hcanonical, hget]
      rfl
    obtain ⟨hperm, hsorted, hanswer⟩ := href hvalid _ n hn (by decide) _ hnames
    obtain ⟨others, heq, hothers⟩ := hanswer "u:a" position hq
    have hout : Query.OutOfLiterals ⟨d, d.text.offsetOf position⟩ := by
      intro call hcall
      rw [hcalls] at hcall
      cases hcall
    rw [heq, hothers hout, List.append_nil]
    rw [hto, hdefinition, List.map_singleton, Document.calledAt, huri, hranges.2.1] at hperm
    exact hperm.eq_of_pairwise (fun a b _ _ hab hba => absurd hba hab.asymm) hsorted
      (by simp [Location.Before])
  obtain ⟨-, -, hname, hbehind, hcall⟩ := hranges
  refine ⟨(hedges _ _).1.2 ⟨(d, site), by rw [hto]; exact List.mem_cons_self, by rw [huri]⟩, ?_⟩
  intro position hposition
  rcases List.mem_cons.1 hposition with rfl | hposition
  · refine answer _ ⟨by rw [huri]; exact hget, .inl ⟨n, hn, huri, ?_⟩⟩
    rw [hdefinition, hname, hbehind]
    exact ⟨Nat.le_refl 4, Nat.le_succ 4⟩
  · cases List.mem_singleton.1 hposition
    refine answer _ ⟨by rw [huri]; exact hget, .inr ⟨site, ?_, ?_, by rw [huri]; exact hresolve⟩⟩
    · rw [hsites]
      exact List.mem_cons_self
    · rw [hcall]
      exact ⟨Nat.le_refl 19, Nat.le_succ 19⟩

end Session

end RouteScript
