import RouteScript.Proofs.CallGraph

/-!
# Restricted call graphs

Each call is noted at both of its ends.  If the two ends agree on it (`Linked`), it is enough for the
removal of a routine to look at the neighbors that the routine knows of: what is left of a graph is
its restriction to the other routines.

* `removeRoutine_eq`, `foldl_removeRoutine_eq`, `removeDocument_eq`: removal is restriction, in
  whatever order the routines are removed.
* `restrict_addRoutine`, `restrict_addCall`, `restrict_setAccess`, `restrict_clearCalls`,
  `restrict_restrict`: a restricted graph has not seen what was done for the routines left out.
-/

namespace RouteScript

/-- The node with those of its neighbors that pass a test. -/
def CallNode.restrict (keep : RoutineKey → Bool) (n : CallNode) : CallNode :=
  { n with
    callees := n.callees.filter fun k _ => keep k
    callers := n.callers.filter fun k _ => keep k }

namespace CallGraph

/-! ### The two ends of a call -/

/-- The node of `a` notes a call of `b`. -/
def calls (nodes : Table RoutineKey CallNode) (a b : RoutineKey) : Bool :=
  (nodes.get? a).any (·.callees.contains b)

/-- The node of `b` notes that `a` calls it. -/
def calledBy (nodes : Table RoutineKey CallNode) (b a : RoutineKey) : Bool :=
  (nodes.get? b).any (·.callers.contains a)

/-- The two ends of each call agree on it. -/
def Linked (nodes : Table RoutineKey CallNode) : Prop := ∀ a b, calls nodes a b = calledBy nodes b a

variable {nodes : Table RoutineKey CallNode} {g : CallGraph}

theorem contains_of_any {k : RoutineKey} {p : CallNode → Bool} (h : (nodes.get? k).any p = true) :
    nodes.contains k = true := by
  obtain ⟨n, hn, -⟩ := (Option.any_eq_true ..).1 h
  rw [Table.contains_eq_isSome, hn]
  rfl

theorem contains_of_calls {a b : RoutineKey} (h : calls nodes a b = true) :
    nodes.contains a = true := contains_of_any h

theorem contains_of_calledBy {a b : RoutineKey} (h : calledBy nodes b a = true) :
    nodes.contains b = true := contains_of_any h

/-- The neighbors of a node have nodes. -/
theorem Linked.contains_neighbor (h : Linked nodes) {a b : RoutineKey} {n : CallNode}
    (hn : nodes.get? a = some n) (hb : n.callees.contains b = true ∨ n.callers.contains b = true) :
    nodes.contains b = true := by
  rcases hb with hb | hb
  · refine contains_of_calledBy (a := a) ?_
    rw [← h, calls, hn]
    exact hb
  · refine contains_of_calls (b := a) ?_
    rw [h, calledBy, hn]
    exact hb

/-! ### Restriction -/

/-- The nodes of the routines that pass a test, without calls of others. -/
def restrictNodes (keep : RoutineKey → Bool) (nodes : Table RoutineKey CallNode) :
    Table RoutineKey CallNode :=
  (nodes.filter fun k _ => keep k).mapValues fun _ n => n.restrict keep

theorem get?_restrictNodes (keep : RoutineKey → Bool) (nodes : Table RoutineKey CallNode)
    (k : RoutineKey) : (restrictNodes keep nodes).get? k =
      if keep k = true then (nodes.get? k).map (·.restrict keep) else none := by
  rw [restrictNodes, Table.get?_mapValues, Table.get?_filter_keys]
  split <;> rfl

theorem calls_restrictNodes (keep : RoutineKey → Bool) (nodes : Table RoutineKey CallNode)
    (a b : RoutineKey) : calls (restrictNodes keep nodes) a b =
      (keep a && keep b && calls nodes a b) := by
  rw [calls, get?_restrictNodes, calls]
  cases nodes.get? a <;> cases keep a <;> simp [CallNode.restrict]

theorem calledBy_restrictNodes (keep : RoutineKey → Bool) (nodes : Table RoutineKey CallNode)
    (b a : RoutineKey) : calledBy (restrictNodes keep nodes) b a =
      (keep a && keep b && calledBy nodes b a) := by
  rw [calledBy, get?_restrictNodes, calledBy]
  cases nodes.get? b <;> cases keep b <;> simp [CallNode.restrict]

theorem Linked.restrictNodes (h : Linked nodes) (keep : RoutineKey → Bool) :
    Linked (restrictNodes keep nodes) := by
  intro a b
  rw [calls_restrictNodes, calledBy_restrictNodes, h]

theorem restrictNodes_restrictNodes (keep keep' : RoutineKey → Bool)
    (nodes : Table RoutineKey CallNode) : restrictNodes keep' (restrictNodes keep nodes) =
      restrictNodes (fun k => keep' k && keep k) nodes := by
  refine Table.ext_get? fun k => ?_
  simp only [get?_restrictNodes]
  cases keep k <;> cases keep' k <;> cases nodes.get? k <;>
    simp [CallNode.restrict, Table.filter_keys_filter_keys]

/-- Tests that agree on the routines of a graph restrict it in the same way. -/
theorem Linked.restrictNodes_congr (h : Linked nodes) {keep keep' : RoutineKey → Bool}
    (hk : ∀ k, nodes.contains k = true → keep k = keep' k) :
    CallGraph.restrictNodes keep nodes = CallGraph.restrictNodes keep' nodes := by
  refine Table.ext_get? fun k => ?_
  rw [get?_restrictNodes, get?_restrictNodes]
  cases hn : nodes.get? k with
  | none => simp
  | some n =>
    have hc : nodes.contains k = true := by
      rw [Table.contains_eq_isSome, hn]
      rfl
    have hcallees := Table.filter_keys_congr (t := n.callees) fun b hb =>
      hk b (h.contains_neighbor hn (.inl hb))
    have hcallers := Table.filter_keys_congr (t := n.callers) fun b hb =>
      hk b (h.contains_neighbor hn (.inr hb))
    rw [hk k hc, Option.map_some, Option.map_some, CallNode.restrict, CallNode.restrict, hcallees,
      hcallers]

theorem Linked.restrictNodes_eq_self (h : Linked nodes) {keep : RoutineKey → Bool}
    (hk : ∀ k, nodes.contains k = true → keep k = true) :
    CallGraph.restrictNodes keep nodes = nodes := by
  rw [h.restrictNodes_congr hk]
  refine Table.ext_get? fun k => ?_
  rw [get?_restrictNodes]
  cases nodes.get? k with
  | none => rfl
  | some n => simp [CallNode.restrict, Table.filter_keys_eq_self]

/-! ### Removal is restriction -/

theorem forget_eq (k : RoutineKey) (n : CallNode) :
    CallNode.forget k n = n.restrict fun k' => decide (k' ≠ k) := by
  rw [CallNode.forget, CallNode.restrict, Table.erase_eq_filter_keys, Table.erase_eq_filter_keys]

theorem forget_forget (k : RoutineKey) (n : CallNode) :
    CallNode.forget k (CallNode.forget k n) = CallNode.forget k n := by
  simp [forget_eq, CallNode.restrict, Table.filter_keys_filter_keys]

/-- The nodes in a list forget a neighbor. -/
theorem get?_foldl_modify_forget (k k' : RoutineKey) (l : List RoutineKey)
    (nodes : Table RoutineKey CallNode) :
    (l.foldl (fun nodes n => nodes.modify n (CallNode.forget k)) nodes).get? k' =
      (nodes.get? k').map fun n => if k' ∈ l then CallNode.forget k n else n := by
  induction l generalizing nodes with
  | nil => simp
  | cons a l ih =>
    rw [List.foldl_cons, ih, Table.get?_modify, Option.map_map]
    congr 1
    funext n
    simp only [List.mem_cons, eq_comm (a := k')]
    by_cases h₁ : a = k' <;> by_cases h₂ : k' ∈ l <;> simp [h₁, h₂, forget_forget]

/-- The neighbors that a routine knows of are all that know of it, so nothing of it is left. -/
theorem removeRoutine_eq (h : Linked nodes) (k : RoutineKey) :
    removeRoutine nodes k = restrictNodes (fun k' => decide (k' ≠ k)) nodes := by
  unfold removeRoutine
  cases hk : nodes.get? k with
  | none =>
    refine (h.restrictNodes_eq_self fun k' hc => ?_).symm
    rw [decide_eq_true_iff]
    rintro rfl
    rw [Table.contains_eq_isSome, hk] at hc
    cases hc
  | some node =>
    refine Table.ext_get? fun k' => ?_
    simp only [get?_foldl_modify_forget, Table.get?_erase, get?_restrictNodes, ← forget_eq]
    by_cases he : k' = k
    · simp [he]
    rw [if_neg he, if_pos (decide_eq_true he)]
    cases hn : nodes.get? k' with
    | none => rfl
    | some n =>
      simp only [Option.map_some, List.mem_append, Table.mem_keys_iff]
      split
      · rfl
      · rename_i hno
        -- a node that the routine does not know of does not know of the routine
        have hcallers : n.callers.contains k = node.callees.contains k' := by
          simpa [calls, calledBy, hk, hn] using (h k k').symm
        have hcallees : n.callees.contains k = node.callers.contains k' := by
          simpa [calls, calledBy, hk, hn] using h k' k
        rw [not_or, Bool.not_eq_true, Bool.not_eq_true, ← hcallers, ← hcallees] at hno
        have hself : ∀ s : OrdSet RoutineKey, s.contains k = false →
            (s.filter fun k' _ => decide (k' ≠ k)) = s := by
          intro s hs
          refine Table.filter_keys_eq_self fun b hb => decide_eq_true ?_
          rintro rfl
          rw [hs] at hb
          cases hb
        rw [forget_eq, CallNode.restrict, hself _ hno.1, hself _ hno.2]

/-- The order in which routines are removed does not matter. -/
theorem foldl_removeRoutine_eq (h : Linked nodes) (l : List RoutineKey) :
    l.foldl removeRoutine nodes = restrictNodes (fun k => decide (k ∉ l)) nodes := by
  induction l generalizing nodes with
  | nil => exact (h.restrictNodes_eq_self fun k _ => by simp).symm
  | cons k l ih =>
    rw [List.foldl_cons, removeRoutine_eq h, ih (h.restrictNodes _), restrictNodes_restrictNodes]
    congr 1
    funext k'
    by_cases h₁ : k' = k <;> by_cases h₂ : k' ∈ l <;> simp [h₁, h₂]

variable (g) in
/-- The graph of the routines that pass a test. -/
def restrict (keep : RoutineKey → Bool) : CallGraph :=
  ⟨restrictNodes keep g.nodes,
    (g.byName.mapValues fun _ keys => keys.filter keep).filter fun _ keys => !keys.isEmpty⟩

/-- Without a document, a graph is the one of the routines of the others. -/
theorem removeDocument_eq (h : Linked g.nodes) (uri : String) :
    g.removeDocument uri = g.restrict (·.uri != uri) := by
  have hn : (g.nodes.keys.filter (·.uri == uri)).foldl removeRoutine g.nodes =
      restrictNodes (·.uri != uri) g.nodes := by
    rw [foldl_removeRoutine_eq h]
    refine h.restrictNodes_congr fun k hk => ?_
    rw [← Table.mem_keys_iff] at hk
    by_cases hu : k.uri = uri <;> simp [hk, hu]
  rw [removeDocument, restrict, hn]

/-! ### What a restricted graph has seen -/

theorem node?_restrict (g : CallGraph) (keep : RoutineKey → Bool) (k : RoutineKey) :
    (g.restrict keep).node? k =
      if keep k = true then (g.node? k).map (·.restrict keep) else none :=
  get?_restrictNodes keep g.nodes k

@[simp] theorem contains_restrict (g : CallGraph) (keep : RoutineKey → Bool) (k : RoutineKey) :
    (g.restrict keep).contains k = (keep k && g.contains k) := by
  rw [contains_eq, node?_restrict, contains_eq]
  cases keep k <;> simp

theorem get?_byName_restrict (g : CallGraph) (keep : RoutineKey → Bool) (name : String) :
    (g.restrict keep).byName.get? name =
      ((g.byName.get? name).map fun keys => keys.filter keep).filter (!·.isEmpty) := by
  simp only [restrict, Table.get?_filter, Table.get?_mapValues]

theorem withName_restrict (g : CallGraph) (keep : RoutineKey → Bool) (name : String) :
    (g.restrict keep).withName name = (g.withName name).filter keep := by
  rw [withName, get?_byName_restrict, withName]
  cases g.byName.get? name with
  | none => rfl
  | some keys =>
    rw [Option.map_some, Option.getD_some]
    cases h : keys.filter keep <;> rfl

theorem restrict_addRoutine (keep : RoutineKey → Bool) (d : RoutineDef) :
    (g.addRoutine d).restrict keep =
      if keep d.key = true then (g.restrict keep).addRoutine d else g.restrict keep := by
  split
  · rename_i hd
    refine ext_node? (fun k => ?_) (Table.ext_get? fun name => ?_)
    · rw [node?_restrict, node?_addRoutine, node?_addRoutine, node?_restrict, node?_restrict]
      by_cases hk : k = d.key
      · subst hk
        rw [if_pos hd, if_pos rfl, if_pos rfl, if_pos hd]
        cases g.node? d.key <;> rfl
      · simp only [if_neg hk]
    · rw [get?_byName_restrict, get?_byName_addRoutine, get?_byName_addRoutine, contains_restrict, hd,
        Bool.true_and, withName_restrict, get?_byName_restrict]
      split
      · simp [hd]
      · rfl
  · rename_i hd
    rw [Bool.not_eq_true] at hd
    refine ext_node? (fun k => ?_) (Table.ext_get? fun name => ?_)
    · rw [node?_restrict, node?_addRoutine, node?_restrict]
      by_cases hk : k = d.key
      · simp [hk, hd]
      · rw [if_neg hk]
    · rw [get?_byName_restrict, get?_byName_addRoutine, get?_byName_restrict]
      split
      · rw [withName]
        cases g.byName.get? name <;> simp [hd]
      · rfl

/-- Of a neighbor that is noted at `k`, a restriction that keeps `k` sees what it keeps. -/
theorem filter_noted {keep : RoutineKey → Bool} {k : RoutineKey} (hk : keep k = true)
    (s : OrdSet RoutineKey) (a b : RoutineKey) :
    ((if a = k then OrdSet.add s b else s).filter fun k' _ => keep k') =
      if (keep a && keep b) = true then
        if a = k then OrdSet.add (s.filter fun k' _ => keep k') b else s.filter fun k' _ => keep k'
      else s.filter fun k' _ => keep k' := by
  by_cases h : a = k
  · subst h
    rw [if_pos rfl, if_pos rfl, hk, Bool.true_and]
    exact Table.filter_keys_insert s keep b ()
  · simp [h]

/-- A call to or from a routine that is left out is not seen. -/
theorem restrict_addCall (keep : RoutineKey → Bool) (a b : RoutineKey) :
    (g.addCall a b).restrict keep =
      if (keep a && keep b) = true then (g.restrict keep).addCall a b else g.restrict keep := by
  have hname : ((g.addCall a b).restrict keep).byName = (g.restrict keep).byName := by
    rw [restrict, byName_addCall]
    rfl
  have hnode : ∀ k, ((g.addCall a b).restrict keep).node? k =
      ((g.restrict keep).node? k).map fun n =>
        if (keep a && keep b && (g.contains a && g.contains b)) = true then
          { n with
            callees := if a = k then OrdSet.add n.callees b else n.callees
            callers := if b = k then OrdSet.add n.callers a else n.callers }
        else n := by
    intro k
    rw [node?_restrict, node?_addCall, node?_restrict]
    cases hk : keep k with
    | false => rfl
    | true =>
      rw [if_pos rfl, if_pos rfl, Option.map_map, Option.map_map]
      congr 1
      funext n
      have hcallees := filter_noted hk n.callees a b
      have hcallers := filter_noted hk n.callers b a
      cases g.contains a && g.contains b with
      | false => simp
      | true =>
        simp only [Function.comp_apply, if_true, Bool.and_true, CallNode.restrict, hcallees, hcallers,
          Bool.and_comm (keep b)]
        split <;> rfl
  split
  · rename_i hab
    refine ext_node? (fun k => ?_) (hname.trans (byName_addCall ..).symm)
    obtain ⟨ha, hb⟩ := Bool.and_eq_true_iff.1 hab
    rw [hnode, node?_addCall, contains_restrict, contains_restrict, ha, hb]
    rfl
  · rename_i hab
    refine ext_node? (fun k => ?_) hname
    rw [hnode, Bool.eq_false_of_not_eq_true hab]
    simp

theorem restrict_setAccess (keep : RoutineKey → Bool) (k : RoutineKey)
    (reads writes : OrdSet String) : (g.setAccess k reads writes).restrict keep =
      if keep k = true then (g.restrict keep).setAccess k reads writes else g.restrict keep := by
  split
  · refine ext_node? (fun k' => ?_) rfl
    rw [node?_restrict, node?_setAccess, node?_setAccess, node?_restrict]
    cases g.node? k' <;> cases keep k' <;> by_cases h : k = k' <;> simp [h, CallNode.restrict]
  · rename_i hk
    refine ext_node? (fun k' => ?_) rfl
    rw [node?_restrict, node?_setAccess, node?_restrict]
    by_cases h : k = k'
    · rw [if_neg (h ▸ hk), if_neg (h ▸ hk)]
    · simp [h]

theorem restrict_clearCalls (keep : RoutineKey → Bool) :
    g.clearCalls.restrict keep = (g.restrict keep).clearCalls := by
  refine ext_node? (fun k => ?_) rfl
  rw [node?_restrict, node?_clearCalls, node?_clearCalls, node?_restrict]
  cases g.node? k <;> cases keep k <;> rfl

theorem restrict_restrict (keep keep' : RoutineKey → Bool) :
    (g.restrict keep).restrict keep' = g.restrict fun k => keep' k && keep k := by
  refine ext_node? (fun k => ?_) (Table.ext_get? fun name => ?_)
  · exact congrArg (Table.get? · k) (restrictNodes_restrictNodes keep keep' g.nodes)
  · rw [get?_byName_restrict, get?_byName_restrict, get?_byName_restrict]
    cases g.byName.get? name with
    | none => rfl
    | some keys =>
      have hf : keys.filter (fun k => keep' k && keep k) = (keys.filter keep).filter keep' :=
        List.filter_filter.symm
      rw [Option.map_some, Option.map_some, hf]
      cases keys.filter keep <;> rfl

end CallGraph

end RouteScript
