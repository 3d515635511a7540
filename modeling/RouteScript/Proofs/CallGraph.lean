import RouteScript.Proofs.Table
import RouteScript.Workspace.CallGraph

/-!
# Routines, calls and names in the call graph

The graph keeps its routines twice: as nodes, and by name in the order of their registration.  Each
operation is described by what it does to the nodes (`node?_addRoutine`, `node?_setAccess`, …) and
to the lists by name (`withName_addRoutine`, …).

* `Named`: the lists by name hold exactly the keys of the nodes, each once.  Every operation keeps
  it.
* `clearCalls` forgets the calls.  It commutes with what concerns routines and accesses, and undoes
  what concerns calls: `clearCalls_addCall`, `clearCalls_setAccess`, `clearCalls_addRoutine`,
  `node?_clearCalls_removeDocument`.
* `Similar`: two graphs that differ in the order of registration only.
-/

namespace RouteScript

theorem RoutineKey.compare_eq_iff {a b : RoutineKey} : compare a b = .eq ↔ a = b := by
  obtain ⟨u, m⟩ := a
  obtain ⟨v, n⟩ := b
  show (compare u v).then (compare m n) = .eq ↔ _
  rw [Ordering.then_eq_eq, RoutineKey.mk.injEq]
  exact and_congr Std.LawfulEqCmp.compare_eq_iff_eq Std.LawfulEqCmp.compare_eq_iff_eq

instance : Std.LawfulEqOrd RoutineKey where
  compare_self {_} := RoutineKey.compare_eq_iff.2 rfl
  eq_of_compare {_ _} := RoutineKey.compare_eq_iff.1

/-- The node without its calls. -/
def CallNode.bare (n : CallNode) : CallNode := { n with callees := .empty, callers := .empty }

/-- The node of a routine that is registered for the first time. -/
def CallNode.ofDef (d : RoutineDef) : CallNode := ⟨d, .empty, .empty, .empty, .empty⟩

@[simp] theorem CallNode.bare_bare (n : CallNode) : n.bare.bare = n.bare := rfl

namespace CallGraph

variable (g : CallGraph)

/-! ### Nodes -/

@[simp] theorem node?_empty (k : RoutineKey) : empty.node? k = none := rfl

theorem contains_eq (k : RoutineKey) : g.contains k = (g.node? k).isSome := rfl

theorem node?_addRoutine (d : RoutineDef) (k : RoutineKey) :
    (g.addRoutine d).node? k =
      if k = d.key then some { (g.node? d.key).getD (.ofDef d) with definition := d }
      else g.node? k := by
  unfold addRoutine
  split
  · rename_i n hn
    simp only [node?, Table.get?_insert] at hn ⊢
    rw [hn]
    rfl
  · rename_i hn
    simp only [node?, Table.get?_insert] at hn ⊢
    rw [hn]
    rfl

theorem node?_setAccess (k k' : RoutineKey) (reads writes : OrdSet String) :
    (g.setAccess k reads writes).node? k' =
      (g.node? k').map fun n => if k = k' then { n with reads, writes } else n :=
  Table.get?_modify ..

/-- A call is noted at both of its ends, if both are there. -/
theorem node?_addCall (a b k : RoutineKey) :
    (g.addCall a b).node? k = (g.node? k).map fun n =>
      if g.contains a && g.contains b then
        { n with
          callees := if a = k then OrdSet.add n.callees b else n.callees
          callers := if b = k then OrdSet.add n.callers a else n.callers }
      else n := by
  unfold addCall
  split
  · simp only [node?, Table.get?_modify, Option.map_map]
    congr 1
    funext n
    by_cases h₁ : a = k <;> by_cases h₂ : b = k <;> simp [h₁, h₂]
  · simp

theorem node?_clearCalls (k : RoutineKey) : g.clearCalls.node? k = (g.node? k).map (·.bare) :=
  Table.get?_mapValues ..

@[simp] theorem contains_addRoutine (d : RoutineDef) (k : RoutineKey) :
    (g.addRoutine d).contains k = (decide (k = d.key) || g.contains k) := by
  simp only [contains_eq, node?_addRoutine]
  split <;> simp [*]

@[simp] theorem contains_setAccess (k k' : RoutineKey) (reads writes : OrdSet String) :
    (g.setAccess k reads writes).contains k' = g.contains k' := Table.contains_modify ..

@[simp] theorem contains_clearCalls (k : RoutineKey) : g.clearCalls.contains k = g.contains k :=
  Table.contains_mapValues ..

@[simp] theorem contains_addCall (a b k : RoutineKey) :
    (g.addCall a b).contains k = g.contains k := by
  unfold addCall
  split
  · exact (Table.contains_modify ..).trans (Table.contains_modify ..)
  · rfl

/-! ### The lists by name -/

@[simp] theorem byName_setAccess (k : RoutineKey) (reads writes : OrdSet String) :
    (g.setAccess k reads writes).byName = g.byName := rfl

@[simp] theorem byName_clearCalls : g.clearCalls.byName = g.byName := rfl

@[simp] theorem byName_addCall (a b : RoutineKey) : (g.addCall a b).byName = g.byName := by
  unfold addCall
  split <;> rfl

theorem get?_byName_addRoutine (d : RoutineDef) (name : String) :
    (g.addRoutine d).byName.get? name =
      if g.contains d.key = false ∧ name = d.key.name then some (g.withName name ++ [d.key])
      else g.byName.get? name := by
  unfold addRoutine
  rw [contains_eq]
  split
  · rename_i n hn
    simp [hn]
  · rename_i hn
    simp only [hn, Table.get?_insert, Option.isSome_none, true_and]
    split
    · rename_i h
      rw [h]
    · rfl

/-- A routine that is new comes behind the others of its name. -/
theorem withName_addRoutine (d : RoutineDef) (name : String) :
    (g.addRoutine d).withName name =
      if g.contains d.key = false ∧ name = d.key.name then g.withName name ++ [d.key]
      else g.withName name := by
  rw [withName, get?_byName_addRoutine]
  split <;> rfl

/-! ### Removing the routines of a document -/

/-- Forgetting a neighbor does not matter to a node whose calls are forgotten. -/
theorem bare_forget (k : RoutineKey) (n : CallNode) : (CallNode.forget k n).bare = n.bare := rfl

theorem get?_foldl_forget (k k' : RoutineKey) (l : List RoutineKey)
    (nodes : Table RoutineKey CallNode) :
    ((l.foldl (fun nodes n => nodes.modify n (CallNode.forget k)) nodes).get? k').map (·.bare) =
      (nodes.get? k').map (·.bare) := by
  induction l generalizing nodes with
  | nil => rfl
  | cons n l ih =>
    rw [List.foldl_cons, ih, Table.get?_modify, Option.map_map]
    congr 1
    funext v
    by_cases h : n = k' <;> simp [h, bare_forget]

theorem get?_removeRoutine (nodes : Table RoutineKey CallNode) (k k' : RoutineKey) :
    ((removeRoutine nodes k).get? k').map (·.bare) =
      if k' = k then none else (nodes.get? k').map (·.bare) := by
  unfold removeRoutine
  split
  · rename_i h
    split
    · rename_i hk
      rw [hk, h]
      rfl
    · rfl
  · rw [get?_foldl_forget, Table.get?_erase]
    split <;> rfl

theorem get?_foldl_removeRoutine (l : List RoutineKey) (nodes : Table RoutineKey CallNode)
    (k : RoutineKey) :
    ((l.foldl removeRoutine nodes).get? k).map (·.bare) =
      if k ∈ l then none else (nodes.get? k).map (·.bare) := by
  induction l generalizing nodes with
  | nil => rfl
  | cons k' l ih =>
    rw [List.foldl_cons, ih, get?_removeRoutine]
    by_cases h₁ : k ∈ l <;> by_cases h₂ : k = k' <;> simp [h₁, h₂]

/-- Up to calls, the nodes of the other documents stay as they are. -/
theorem node?_clearCalls_removeDocument (uri : String) (k : RoutineKey) :
    (g.removeDocument uri).clearCalls.node? k =
      if k.uri = uri then none else g.clearCalls.node? k := by
  rw [node?_clearCalls, node?_clearCalls]
  refine (get?_foldl_removeRoutine _ _ k).trans ?_
  by_cases h : k.uri = uri
  · rw [if_pos h]
    split
    · rfl
    · rename_i hk
      cases hn : g.nodes.get? k with
      | none => rfl
      | some n =>
        refine absurd (List.mem_filter.2 ⟨Table.mem_keys_iff.2 ?_, by simpa using h⟩) hk
        rw [Table.contains_eq_isSome, hn]
        rfl
  · rw [if_neg h, if_neg fun hk => h (by simpa using (List.mem_filter.1 hk).2)]
    rfl

@[simp] theorem contains_removeDocument (uri : String) (k : RoutineKey) :
    (g.removeDocument uri).contains k = (decide (k.uri ≠ uri) && g.contains k) := by
  rw [← contains_clearCalls, contains_eq, node?_clearCalls_removeDocument]
  by_cases h : k.uri = uri <;> simp [h, ← contains_eq]

theorem get?_byName_removeDocument (uri name : String) :
    (g.removeDocument uri).byName.get? name =
      ((g.byName.get? name).map fun keys => keys.filter (·.uri != uri)).filter (!·.isEmpty) := by
  simp only [removeDocument, Table.get?_filter, Table.get?_mapValues]

theorem withName_removeDocument (uri name : String) :
    (g.removeDocument uri).withName name = (g.withName name).filter (·.uri != uri) := by
  rw [withName, get?_byName_removeDocument, withName]
  cases g.byName.get? name with
  | none => rfl
  | some keys =>
    rw [Option.map_some, Option.getD_some]
    cases h : keys.filter (·.uri != uri) with
    | nil => rfl
    | cons => rfl

/-! ### Graphs without calls -/

variable {g} in
theorem ext_node? {h : CallGraph} (hn : ∀ k, g.node? k = h.node? k) (hb : g.byName = h.byName) :
    g = h := by
  obtain ⟨nodes, byName⟩ := g
  obtain ⟨nodes', byName'⟩ := h
  obtain rfl : nodes = nodes' := Table.ext_get? hn
  obtain rfl : byName = byName' := hb
  rfl

@[simp] theorem clearCalls_clearCalls : g.clearCalls.clearCalls = g.clearCalls :=
  ext_node? (fun k => by simp [node?_clearCalls, Option.map_map, Function.comp_def]) rfl

@[simp] theorem clearCalls_addCall (a b : RoutineKey) :
    (g.addCall a b).clearCalls = g.clearCalls := by
  refine ext_node? (fun k => ?_) (g.byName_addCall a b)
  simp only [node?_clearCalls, node?_addCall, Option.map_map]
  congr 1
  funext n
  by_cases h : (g.contains a && g.contains b) = true <;> simp [h, CallNode.bare]

theorem clearCalls_setAccess (k : RoutineKey) (reads writes : OrdSet String) :
    (g.setAccess k reads writes).clearCalls = g.clearCalls.setAccess k reads writes := by
  refine ext_node? (fun k' => ?_) rfl
  simp only [node?_clearCalls, node?_setAccess, Option.map_map]
  congr 1
  funext n
  by_cases h : k = k' <;> simp [h, CallNode.bare]

theorem clearCalls_addRoutine (d : RoutineDef) :
    (g.addRoutine d).clearCalls = g.clearCalls.addRoutine d := by
  refine ext_node? (fun k => ?_) (Table.ext_get? fun name => ?_)
  · simp only [node?_clearCalls, node?_addRoutine]
    split
    · cases g.node? d.key <;> rfl
    · rfl
  · rw [byName_clearCalls, get?_byName_addRoutine, get?_byName_addRoutine, contains_clearCalls]
    rfl

/-- What a routine accesses does not concern the calls. -/
theorem setAccess_addCall (a b k : RoutineKey) (reads writes : OrdSet String) :
    (g.addCall a b).setAccess k reads writes = (g.setAccess k reads writes).addCall a b := by
  refine ext_node? (fun k' => ?_) (by simp)
  simp only [node?_setAccess, node?_addCall, contains_setAccess, Option.map_map]
  congr 1
  funext n
  by_cases h₁ : (g.contains a && g.contains b) = true <;> by_cases h₂ : k = k' <;> simp [h₁, h₂]

/-! ### The lists by name and the nodes -/

/-- The lists by name hold exactly the keys of the nodes, each once. -/
structure Named : Prop where
  nodup : ∀ name, (g.withName name).Nodup
  mem_iff : ∀ name k, k ∈ g.withName name ↔ k.name = name ∧ g.contains k = true
  ne_nil : ∀ name, g.byName.get? name ≠ some []

theorem named_empty : empty.Named :=
  ⟨fun _ => .nil, fun _ _ => by simp [withName, empty, contains_eq, node?], fun _ h => by cases h⟩

variable {g}

/-- Only routines that come and go concern the lists by name. -/
theorem Named.congr {h : CallGraph} (hg : g.Named) (hb : h.byName = g.byName)
    (hc : ∀ k, h.contains k = g.contains k) : h.Named := by
  have hw : ∀ name, h.withName name = g.withName name := fun name => by rw [withName, withName, hb]
  refine ⟨fun name => hw name ▸ hg.nodup name, fun name k => ?_, fun name => hb ▸ hg.ne_nil name⟩
  rw [hw, hc, hg.mem_iff]

theorem Named.setAccess (hg : g.Named) (k : RoutineKey) (reads writes : OrdSet String) :
    (g.setAccess k reads writes).Named := hg.congr rfl fun _ => g.contains_setAccess ..

theorem Named.clearCalls (hg : g.Named) : g.clearCalls.Named :=
  hg.congr rfl g.contains_clearCalls

theorem Named.addCall (hg : g.Named) (a b : RoutineKey) : (g.addCall a b).Named :=
  hg.congr (g.byName_addCall a b) (g.contains_addCall a b)

theorem Named.addRoutine (hg : g.Named) (d : RoutineDef) : (g.addRoutine d).Named := by
  refine ⟨fun name => ?_, fun name k => ?_, fun name => ?_⟩
  · rw [withName_addRoutine]
    split
    · rename_i h
      refine List.nodup_append.2 ⟨hg.nodup name, by simp, fun a ha b hb hab => ?_⟩
      rw [List.mem_singleton] at hb
      have := ((hg.mem_iff name a).1 ha).2
      rw [hab, hb, h.1] at this
      cases this
    · exact hg.nodup name
  · rw [withName_addRoutine, contains_addRoutine]
    by_cases hk : k = d.key
    · subst hk
      cases hc : g.contains d.key <;> by_cases hn : name = d.key.name <;>
        simp [hg.mem_iff, hc, hn, eq_comm]
    · split <;> simp [hg.mem_iff, hk]
  · rw [get?_byName_addRoutine]
    split
    · simp
    · exact hg.ne_nil name

theorem Named.removeDocument (hg : g.Named) (uri : String) : (g.removeDocument uri).Named := by
  refine ⟨fun name => ?_, fun name k => ?_, fun name h => ?_⟩
  · rw [withName_removeDocument]
    exact (hg.nodup name).filter _
  · rw [withName_removeDocument, contains_removeDocument, List.mem_filter, hg.mem_iff]
    simp only [bne_iff_ne, Bool.and_eq_true, decide_eq_true_iff]
    tauto
  · rw [get?_byName_removeDocument, Option.filter_eq_some_iff] at h
    simp at h

theorem Named.mem_names_iff (hg : g.Named) {name : String} :
    name ∈ g.names ↔ ∃ k, g.contains k = true ∧ k.name = name := by
  rw [names, Table.mem_keys_iff, Table.contains_eq_isSome]
  constructor
  · intro h
    obtain ⟨keys, hk⟩ := Option.isSome_iff_exists.1 h
    cases keys with
    | nil => exact absurd hk (hg.ne_nil name)
    | cons k keys =>
      obtain ⟨hn, hc⟩ := (hg.mem_iff name k).1 (by simp [withName, hk])
      exact ⟨k, hc, hn⟩
  · rintro ⟨k, hc, hn⟩
    have := (hg.mem_iff name k).2 ⟨hn, hc⟩
    rw [withName] at this
    cases h : g.byName.get? name with
    | none => simp [h] at this
    | some keys => rfl

/-! ### Graphs that differ in the order of registration -/

variable (g) in
/-- The graphs have the same nodes, and the same routines of each name in some order. -/
structure Similar (h : CallGraph) : Prop where
  nodes : g.nodes = h.nodes
  withName : ∀ name, (g.withName name).Perm (h.withName name)
  names : g.names = h.names

variable {h : CallGraph}

theorem Named.similar (hg : g.Named) (hh : h.Named) (hn : g.nodes = h.nodes) : g.Similar h := by
  have hc : ∀ k, g.contains k = h.contains k := fun k => by rw [contains, contains, hn]
  refine ⟨hn, fun name => ?_, ?_⟩
  · refine (List.perm_ext_iff_of_nodup (hg.nodup name) (hh.nodup name)).2 fun k => ?_
    rw [hg.mem_iff, hh.mem_iff, hc]
  · -- the names are sorted, so it is enough to compare them as sets
    have hm : ∀ name, g.byName.contains name = h.byName.contains name := fun name => by
      rw [Bool.eq_iff_iff, ← Table.mem_keys_iff, ← Table.mem_keys_iff]
      refine hg.mem_names_iff.trans (Iff.trans ?_ hh.mem_names_iff.symm)
      simp only [hc]
    have hu : (g.byName.mapValues fun _ _ => ()) = h.byName.mapValues fun _ _ => () := by
      refine Table.ext_get? fun name => ?_
      have := hm name
      rw [Table.contains_eq_isSome, Table.contains_eq_isSome] at this
      rw [Table.get?_mapValues, Table.get?_mapValues]
      cases h₁ : g.byName.get? name <;> cases h₂ : h.byName.get? name <;> simp_all
    have hk := congrArg Table.keys hu
    simp only [Table.keys, Table.mapValues, List.map_map, Function.comp_def] at hk
    exact hk

theorem Similar.node? (hs : g.Similar h) (k : RoutineKey) : g.node? k = h.node? k := by
  rw [CallGraph.node?, CallGraph.node?, hs.nodes]

theorem Similar.contains (hs : g.Similar h) (k : RoutineKey) : g.contains k = h.contains k := by
  rw [CallGraph.contains, CallGraph.contains, hs.nodes]

theorem Similar.search (hs : g.Similar h) (fuel : Nat) (queue seen : List RoutineKey) :
    g.search fuel queue seen = h.search fuel queue seen := by
  have hc : g.callees = h.callees := funext fun k => by rw [callees, callees, hs.node?]
  induction fuel generalizing queue seen with
  | zero => rfl
  | succ fuel ih =>
    cases queue with
    | nil => rfl
    | cons k queue => simp only [CallGraph.search, hc, ih]

/-- What a routine writes by way of others does not depend on the order of registration. -/
theorem Similar.transitiveWrites (hs : g.Similar h) (k : RoutineKey) :
    g.transitiveWrites k = h.transitiveWrites k := by
  have hr : g.reachable k = h.reachable k := by
    rw [reachable, reachable, hs.contains, hs.search, searchBound, searchBound, hs.nodes]
  have hn : g.node? = h.node? := funext hs.node?
  rw [CallGraph.transitiveWrites, CallGraph.transitiveWrites, transitive, transitive, hr, hn]

theorem Similar.hasWrite (hs : g.Similar h) (key : String) : g.hasWrite key = h.hasWrite key := by
  rw [CallGraph.hasWrite, CallGraph.hasWrite, hs.nodes]

theorem Similar.routinesOf (hs : g.Similar h) (uri : String) :
    g.routinesOf uri = h.routinesOf uri := by
  rw [CallGraph.routinesOf, CallGraph.routinesOf, hs.nodes]

end CallGraph

end RouteScript
