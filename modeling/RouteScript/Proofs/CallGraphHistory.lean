import RouteScript.Proofs.CallGraphRestriction

/-!
# Histories of the call graph

A graph is built by a sequence of operations.

* `wellFormed_apply`, `wellFormed_run`: what every operation keeps, and with it every sequence.
* `consistent_run`: the nodes, the calls and the lists by name of a graph agree.
* `removeDocument_apply`, `removeDocument_run`: removing a document undoes what was done for it, and
  no more.
-/

namespace RouteScript.CallGraph

variable {g : CallGraph}

/-! ### Operations -/

/-- Something that is done to a graph. -/
inductive Operation where
  | addRoutine (d : RoutineDef)
  | addCall (caller callee : RoutineKey)
  | setAccess (k : RoutineKey) (reads writes : OrdSet String)
  | removeDocument (uri : String)
  | clearCalls

/-- The graph after an operation. -/
def apply (g : CallGraph) : Operation → CallGraph
  | .addRoutine d => g.addRoutine d
  | .addCall caller callee => g.addCall caller callee
  | .setAccess k reads writes => g.setAccess k reads writes
  | .removeDocument uri => g.removeDocument uri
  | .clearCalls => g.clearCalls

/-- The graph after a sequence of operations. -/
def run (ops : List Operation) : CallGraph := ops.foldl apply empty

/-! ### What every operation keeps -/

/-- Registering a routine leaves alone what the nodes note of calls. -/
theorem any_addRoutine (select : CallNode → OrdSet RoutineKey)
    (hs : ∀ n d, select { n with definition := d } = select n)
    (hnew : ∀ d, select (.ofDef d) = .empty) (d : RoutineDef) (a b : RoutineKey) :
    ((g.addRoutine d).node? a).any (fun n => (select n).contains b) =
      (g.node? a).any fun n => (select n).contains b := by
  rw [node?_addRoutine]
  split
  · rename_i ha
    rw [ha]
    cases g.node? d.key with
    | none =>
      simp only [Option.getD_none, Option.any_some, Option.any_none, hs, hnew]
      rfl
    | some n => simp only [Option.getD_some, Option.any_some, hs]
  · rfl

/-- So does setting what a routine accesses. -/
theorem any_setAccess (select : CallNode → OrdSet RoutineKey) (k : RoutineKey)
    (reads writes : OrdSet String) (hs : ∀ n, select { n with reads, writes } = select n)
    (a b : RoutineKey) :
    ((g.setAccess k reads writes).node? a).any (fun n => (select n).contains b) =
      (g.node? a).any fun n => (select n).contains b := by
  rw [node?_setAccess]
  cases g.node? a with
  | none => rfl
  | some n => by_cases hk : k = a <;> simp [hk, hs]

/-- A call that is added is noted at each of its ends, if both are there: at `x`, of `y`. -/
theorem any_addCall (select : CallNode → OrdSet RoutineKey) (caller callee : RoutineKey)
    {x y : RoutineKey} (hx : x = caller ∨ x = callee)
    (hs : ∀ k n, select { n with
        callees := if caller = k then OrdSet.add n.callees callee else n.callees
        callers := if callee = k then OrdSet.add n.callers caller else n.callers } =
      if x = k then OrdSet.add (select n) y else select n) (a b : RoutineKey) :
    ((g.addCall caller callee).node? a).any (fun n => (select n).contains b) =
      ((g.node? a).any (fun n => (select n).contains b) ||
        (g.contains caller && g.contains callee && decide (x = a ∧ y = b))) := by
  rw [node?_addCall]
  cases hn : g.node? a with
  | none =>
    have ha : x = a → (g.contains caller && g.contains callee) = false := by
      rintro rfl
      rcases hx with rfl | rfl <;> simp [contains_eq, hn]
    by_cases hxa : x = a
    · simp [ha hxa]
    · simp [hxa]
  | some n =>
    cases g.contains caller && g.contains callee with
    | false => simp
    | true => by_cases hxa : x = a <;> simp [hs, hxa, Bool.or_comm, eq_comm]

theorem calls_addCall (caller callee a b : RoutineKey) :
    calls (g.addCall caller callee).nodes a b =
      (calls g.nodes a b ||
        (g.contains caller && g.contains callee && decide (caller = a ∧ callee = b))) :=
  any_addCall (·.callees) caller callee (.inl rfl) (fun _ _ => rfl) a b

theorem calledBy_addCall (caller callee b a : RoutineKey) :
    calledBy (g.addCall caller callee).nodes b a =
      (calledBy g.nodes b a ||
        (g.contains caller && g.contains callee && decide (callee = b ∧ caller = a))) :=
  any_addCall (·.callers) caller callee (.inr rfl) (fun _ _ => rfl) b a

theorem linked_addRoutine (h : Linked g.nodes) (d : RoutineDef) : Linked (g.addRoutine d).nodes := by
  intro a b
  have hcallees := any_addRoutine (g := g) (·.callees) (fun _ _ => rfl) (fun _ => rfl) d a b
  have hcallers := any_addRoutine (g := g) (·.callers) (fun _ _ => rfl) (fun _ => rfl) d b a
  exact hcallees.trans ((h a b).trans hcallers.symm)

theorem linked_addCall (h : Linked g.nodes) (caller callee : RoutineKey) :
    Linked (g.addCall caller callee).nodes := by
  intro a b
  simp only [calls_addCall, calledBy_addCall, h a b, and_comm (a := caller = a)]

theorem linked_setAccess (h : Linked g.nodes) (k : RoutineKey) (reads writes : OrdSet String) :
    Linked (g.setAccess k reads writes).nodes := by
  intro a b
  have hcallees := any_setAccess (g := g) (·.callees) k reads writes (fun _ => rfl) a b
  have hcallers := any_setAccess (g := g) (·.callers) k reads writes (fun _ => rfl) b a
  exact hcallees.trans ((h a b).trans hcallers.symm)

theorem linked_removeDocument (h : Linked g.nodes) (uri : String) :
    Linked (g.removeDocument uri).nodes := by
  rw [removeDocument_eq h]
  exact h.restrictNodes _

/-- No call is noted anywhere in a graph without calls. -/
theorem linked_clearCalls (g : CallGraph) : Linked g.clearCalls.nodes := by
  intro a b
  show (g.clearCalls.node? a).any _ = (g.clearCalls.node? b).any _
  rw [node?_clearCalls, node?_clearCalls]
  cases g.node? a <;> cases g.node? b <;> rfl

theorem linked_apply (h : Linked g.nodes) (op : Operation) : Linked (g.apply op).nodes := by
  cases op with
  | addRoutine d => exact linked_addRoutine h d
  | addCall caller callee => exact linked_addCall h caller callee
  | setAccess k reads writes => exact linked_setAccess h k reads writes
  | removeDocument uri => exact linked_removeDocument h uri
  | clearCalls => exact linked_clearCalls g

variable (g) in
/-- Each node is that of the routine it defines, the two ends of each call agree on it, and the
lists by name hold the keys of the nodes. -/
structure WellFormed : Prop where
  keyed : ∀ k n, g.node? k = some n → n.definition.key = k
  linked : Linked g.nodes
  named : g.Named

theorem wellFormed_empty : empty.WellFormed where
  keyed _ _ h := by cases h
  linked _ _ := rfl
  named := named_empty

/-- An operation that leaves the definitions alone leaves each node that of its routine. -/
theorem WellFormed.keyed_of_map (hg : g.WellFormed) {h : CallGraph} {k : RoutineKey}
    {f : CallNode → CallNode} (hn : h.node? k = (g.node? k).map f)
    (hf : ∀ n, (f n).definition = n.definition) {n : CallNode} (hk : h.node? k = some n) :
    n.definition.key = k := by
  rw [hn] at hk
  obtain ⟨m, hm, rfl⟩ := Option.map_eq_some_iff.1 hk
  rw [hf]
  exact hg.keyed k m hm

theorem wellFormed_apply (hg : g.WellFormed) (op : Operation) : (g.apply op).WellFormed := by
  cases op with
  | addRoutine d =>
    refine ⟨fun k n hk => ?_, linked_apply hg.linked _, hg.named.addRoutine d⟩
    have hk' : (g.addRoutine d).node? k = some n := hk
    rw [node?_addRoutine] at hk'
    split at hk'
    · rename_i he
      cases hk'
      exact he.symm
    · exact hg.keyed k n hk'
  | addCall caller callee =>
    refine ⟨fun k n hk => ?_, linked_apply hg.linked _, hg.named.addCall caller callee⟩
    refine hg.keyed_of_map (g.node?_addCall caller callee k) (fun n => ?_) hk
    split <;> rfl
  | setAccess k reads writes =>
    refine ⟨fun k' n hk => ?_, linked_apply hg.linked _, hg.named.setAccess k reads writes⟩
    refine hg.keyed_of_map (g.node?_setAccess k k' reads writes) (fun n => ?_) hk
    split <;> rfl
  | removeDocument uri =>
    refine ⟨fun k n hk => ?_, linked_apply hg.linked _, hg.named.removeDocument uri⟩
    have hk' : (g.removeDocument uri).node? k = some n := hk
    rw [removeDocument_eq hg.linked, node?_restrict] at hk'
    split at hk'
    · obtain ⟨m, hm, rfl⟩ := Option.map_eq_some_iff.1 hk'
      exact hg.keyed k m hm
    · cases hk'
  | clearCalls =>
    refine ⟨fun k n hk => ?_, linked_apply hg.linked _, hg.named.clearCalls⟩
    exact hg.keyed_of_map (g.node?_clearCalls k) (fun _ => rfl) hk

theorem wellFormed_foldl (hg : g.WellFormed) (ops : List Operation) :
    (ops.foldl apply g).WellFormed := by
  induction ops generalizing g with
  | nil => exact hg
  | cons op ops ih => exact ih (wellFormed_apply hg op)

theorem wellFormed_run (ops : List Operation) : (run ops).WellFormed :=
  wellFormed_foldl wellFormed_empty ops

/-! ### The views of a graph agree -/

theorem mem_callees_iff {a b : RoutineKey} : b ∈ g.callees a ↔ calls g.nodes a b = true := by
  show b ∈ ((g.node? a).map _).getD [] ↔ (g.node? a).any _ = true
  cases g.node? a with
  | none => simp
  | some n => simp [Table.mem_keys_iff]

theorem mem_callers_iff {a b : RoutineKey} : a ∈ g.callers b ↔ calledBy g.nodes b a = true := by
  show a ∈ ((g.node? b).map _).getD [] ↔ (g.node? b).any _ = true
  cases g.node? b with
  | none => simp
  | some n => simp [Table.mem_keys_iff]

variable (g) in
/-- The nodes, the calls of each, the callers of each and the lists by name agree with one another. -/
structure Consistent : Prop where
  /-- Each node is stored under the key of the routine it defines. -/
  definition_key : ∀ k n, g.node? k = some n → n.definition.key = k
  /-- A routine calls those that have it for a caller. -/
  callees_iff_callers : ∀ a b, b ∈ g.callees a ↔ a ∈ g.callers b
  /-- The routines that are called have nodes. -/
  contains_callee : ∀ a b, b ∈ g.callees a → g.contains b = true
  /-- The routines that call have nodes. -/
  contains_caller : ∀ a b, a ∈ g.callers b → g.contains a = true
  /-- The routines of a name are those among the nodes. -/
  mem_withName_iff : ∀ name k, k ∈ g.withName name ↔ k.name = name ∧ g.contains k = true
  /-- None of them is listed twice. -/
  nodup_withName : ∀ name, (g.withName name).Nodup
  /-- The names are those of the nodes. -/
  mem_names_iff : ∀ name, name ∈ g.names ↔ ∃ k, g.contains k = true ∧ k.name = name
  /-- None of them is listed twice. -/
  nodup_names : g.names.Nodup

/-- **Consistency.**  After every sequence of operations the views of the graph agree. -/
theorem consistent_run (ops : List Operation) : (run ops).Consistent := by
  have hg := wellFormed_run ops
  have hlink : ∀ a b, b ∈ (run ops).callees a ↔ a ∈ (run ops).callers b := fun a b => by
    rw [mem_callees_iff, mem_callers_iff, hg.linked]
  refine ⟨hg.keyed, hlink, fun a b h => ?_, fun a b h => ?_, hg.named.mem_iff, hg.named.nodup,
    fun name => hg.named.mem_names_iff, ?_⟩
  · exact contains_of_calledBy (mem_callers_iff.1 ((hlink a b).1 h))
  · exact contains_of_calls (mem_callees_iff.1 ((hlink a b).2 h))
  · exact Table.nodup_keys _

/-! ### Undoing what was done for a document -/

/-- The operation is on a routine of the document or on a call to or from one, or removes it. -/
def Operation.mentions (uri : String) : Operation → Bool
  | addRoutine d => d.key.uri == uri
  | addCall caller callee => caller.uri == uri || callee.uri == uri
  | setAccess k .. => k.uri == uri
  | removeDocument uri' => uri' == uri
  | clearCalls => false

/-- Without a document, a graph has not seen the operations that mention it. -/
theorem removeDocument_apply (h : Linked g.nodes) (op : Operation) (uri : String) :
    (g.apply op).removeDocument uri =
      if op.mentions uri = true then g.removeDocument uri else (g.removeDocument uri).apply op := by
  rw [removeDocument_eq (linked_apply h op), removeDocument_eq h]
  cases op with
  | addRoutine d =>
    refine (restrict_addRoutine _ d).trans ?_
    by_cases hu : d.key.uri = uri <;> simp [hu, Operation.mentions, apply]
  | addCall caller callee =>
    refine (restrict_addCall _ caller callee).trans ?_
    by_cases h₁ : caller.uri = uri <;> by_cases h₂ : callee.uri = uri <;>
      simp [h₁, h₂, Operation.mentions, apply]
  | setAccess k reads writes =>
    refine (restrict_setAccess _ k reads writes).trans ?_
    by_cases hu : k.uri = uri <;> simp [hu, Operation.mentions, apply]
  | removeDocument uri' =>
    show (g.removeDocument uri').restrict _ = _
    rw [removeDocument_eq h, restrict_restrict]
    by_cases hu : uri' = uri
    · simp [hu, Operation.mentions]
    · have hc : (fun k : RoutineKey => k.uri != uri && k.uri != uri') =
          fun k => k.uri != uri' && k.uri != uri := funext fun k => Bool.and_comm ..
      rw [hc, ← restrict_restrict, ← removeDocument_eq (h.restrictNodes _)]
      simp [hu, Operation.mentions, apply]
  | clearCalls => exact restrict_clearCalls _

theorem removeDocument_foldl (h : Linked g.nodes) (ops : List Operation) (uri : String) :
    (ops.foldl apply g).removeDocument uri =
      (ops.filter fun op => !op.mentions uri).foldl apply (g.removeDocument uri) := by
  induction ops generalizing g with
  | nil => rfl
  | cons op ops ih =>
    rw [List.foldl_cons, ih (linked_apply h op), removeDocument_apply h]
    cases hm : op.mentions uri <;> simp [hm]

/-- **Removal undoes.**  After any sequence of operations, a graph without a document is the one the
operations make up that do not mention the document. -/
theorem removeDocument_run (ops : List Operation) (uri : String) :
    (run ops).removeDocument uri = run (ops.filter fun op => !op.mentions uri) :=
  removeDocument_foldl wellFormed_empty.linked ops uri

end RouteScript.CallGraph
