import Mathlib.Order.Lattice.Nat
import RouteScript.Proofs.CallGraphHistory

/-!
# The routines that a routine leads to

A routine leads to another by a chain of calls, and the shortest such chain is the distance between
the two.  The search takes the routines level by level: all that are `n` calls away come before those
that are one call further (`Level`).

* `Level.list`, `Level.next`: what a round of the search keeps, within a level and from one to the
  next.
* `Level.lists_search`: what the search lists from there on.  It ends before its bound is used up
  (`Level.search_succ`).
* `contains_transitive`: what a routine has of something by way of others.
* `reachable_run`: the routines that a routine leads to in a graph that operations have built, and
  what these write and read.
-/

namespace RouteScript.CallGraph

variable (g : CallGraph)

/-- The first routine leads to the second by a chain of so many calls. -/
inductive CallChain (a : RoutineKey) : Nat → RoutineKey → Prop
  | here : CallChain a 0 a
  | call {n : Nat} {b c : RoutineKey} : CallChain a n b → c ∈ g.callees b → CallChain a (n + 1) c

/-- The first routine leads to the second. -/
def LeadsTo (a b : RoutineKey) : Prop := ∃ n, g.CallChain a n b

/-- The number of calls in a shortest chain from the first routine to the second. -/
noncomputable def distance (a b : RoutineKey) : Nat := sInf {n | g.CallChain a n b}

/-- The list has each routine that `a` leads to once, the nearer ones first. -/
structure Lists (a : RoutineKey) (l : List RoutineKey) : Prop where
  nodup : l.Nodup
  mem_iff : ∀ b, b ∈ l ↔ g.LeadsTo a b
  nearest : l.Pairwise fun b c => g.distance a b ≤ g.distance a c

/-- How far a search from `a` has come.  Of the routines it has seen but not listed yet, `near` are
`n` calls away and `far` one more. -/
structure Level (a : RoutineKey) (n : Nat) (listed near far : List RoutineKey) : Prop where
  nodup : (listed ++ (near ++ far)).Nodup
  leadsTo : ∀ b ∈ listed ++ (near ++ far), g.LeadsTo a b
  nearest : listed.Pairwise fun b c => g.distance a b ≤ g.distance a c
  listed_le : ∀ b ∈ listed, g.distance a b ≤ n
  near_eq : ∀ b ∈ near, g.distance a b = n
  far_eq : ∀ b ∈ far, g.distance a b = n + 1
  /-- All that is no further than `n` calls away has been seen. -/
  complete : ∀ m ≤ n, ∀ b, g.CallChain a m b → b ∈ listed ++ (near ++ far)
  /-- What a listed routine calls has been seen. -/
  closed : ∀ b ∈ listed, ∀ c ∈ g.callees b, c ∈ listed ++ (near ++ far)

variable {g} {a b c k : RoutineKey} {n : Nat} {listed near far : List RoutineKey}

/-! ### Chains of calls -/

theorem distance_le (h : g.CallChain a n b) : g.distance a b ≤ n := Nat.sInf_le h

theorem callChain_distance (h : g.LeadsTo a b) : g.CallChain a (g.distance a b) b := Nat.sInf_mem h

theorem leadsTo_self (a : RoutineKey) : g.LeadsTo a a := ⟨0, .here⟩

theorem LeadsTo.call (h : g.LeadsTo a b) (hc : c ∈ g.callees b) : g.LeadsTo a c := by
  obtain ⟨n, h⟩ := h
  exact ⟨n + 1, h.call hc⟩

theorem contains_of_mem_callees (h : b ∈ g.callees a) : g.contains a = true :=
  contains_of_calls (mem_callees_iff.1 h)

/-- A routine that is not there leads to itself only. -/
theorem LeadsTo.eq_or_contains (h : g.LeadsTo a b) : b = a ∨ g.contains a = true := by
  obtain ⟨n, h⟩ := h
  induction h with
  | here => exact .inl rfl
  | call _ hc ih =>
    rcases ih with rfl | ha
    · exact .inr (contains_of_mem_callees hc)
    · exact .inr ha

/-- A routine leads to routines of the graph, if all that is called is there. -/
theorem LeadsTo.contains (hg : ∀ a b, b ∈ g.callees a → g.contains b = true)
    (ha : g.contains a = true) (h : g.LeadsTo a b) : g.contains b = true := by
  obtain ⟨n, h⟩ := h
  cases h with
  | here => exact ha
  | call _ hc => exact hg _ _ hc

/-- Every routine that another leads to is the start or the end of a call. -/
theorem LeadsTo.mem_ends (h : g.LeadsTo a b) :
    b ∈ a :: g.nodes.values.flatMap fun n => n.callees.keys := by
  obtain ⟨n, h⟩ := h
  cases h with
  | here => exact List.mem_cons_self
  | @call n c _ _ hb =>
    refine List.mem_cons_of_mem _ (List.mem_flatMap.2 ?_)
    unfold callees at hb
    cases hn : g.node? c with
    | none => simp [hn] at hb
    | some node => exact ⟨node, Table.mem_values_iff.2 ⟨c, hn⟩, by simpa [hn] using hb⟩

theorem nodup_callees (g : CallGraph) (a : RoutineKey) : (g.callees a).Nodup := by
  unfold callees
  cases g.node? a with
  | none => exact .nil
  | some n => exact Table.nodup_keys n.callees

/-! ### One round of the search -/

theorem level_start (g : CallGraph) (a : RoutineKey) : g.Level a 0 [] [a] [] where
  nodup := List.nodup_singleton a
  leadsTo b hb := by
    rw [List.mem_singleton.1 hb]
    exact leadsTo_self a
  nearest := .nil
  listed_le b hb := by cases hb
  near_eq b hb := by
    rw [List.mem_singleton.1 hb]
    exact Nat.le_zero.1 (distance_le .here)
  far_eq b hb := by cases hb
  complete m hm b hb := by
    obtain rfl : m = 0 := Nat.le_zero.1 hm
    cases hb
    exact List.mem_singleton_self a
  closed b hb := by cases hb

/-- When a level has been listed, the search goes on to the next one. -/
theorem Level.next (h : g.Level a n listed [] far) : g.Level a (n + 1) listed far [] := by
  have happ : listed ++ (far ++ []) = listed ++ ([] ++ far) := by
    rw [List.append_nil, List.nil_append]
  refine ⟨happ ▸ h.nodup, happ ▸ h.leadsTo, h.nearest, fun b hb => ?_, h.far_eq, fun b hb => ?_,
    fun m hm b hb => ?_, happ ▸ h.closed⟩
  · exact (h.listed_le b hb).trans (Nat.le_succ n)
  · cases hb
  · rw [happ]
    rcases Nat.le_succ_iff.1 hm with hm | rfl
    · exact h.complete m hm b hb
    · cases hb with
      | @call _ c _ hc hb =>
        -- the routine before it is `n` calls away, so it has been listed
        rcases List.mem_append.1 (h.complete n (Nat.le_refl n) c hc) with hl | hf
        · exact h.closed c hl b hb
        · have hd := h.far_eq c hf
          have := distance_le hc
          omega

/-- A round lists the first routine that waits, and what this one calls is seen. -/
theorem Level.list (h : g.Level a n listed (b :: near) far) :
    g.Level a n (listed ++ [b]) near (far ++ (g.callees b).filter fun c =>
      !(listed ++ (b :: near ++ far)).contains c) := by
  generalize hnew : (g.callees b).filter (fun c => !(listed ++ (b :: near ++ far)).contains c) = new
  have hmem : ∀ c, c ∈ new ↔ c ∈ g.callees b ∧ c ∉ listed ++ (b :: near ++ far) := fun c => by
    rw [← hnew, List.mem_filter, Bool.not_eq_true', ← Bool.not_eq_true, List.contains_iff_mem]
  have happ : listed ++ [b] ++ (near ++ (far ++ new)) = listed ++ (b :: near ++ far) ++ new := by
    simp
  have hseen : ∀ c ∈ listed ++ (b :: near ++ far), c ∈ listed ++ [b] ++ (near ++ (far ++ new)) :=
    fun c hc => happ ▸ List.mem_append_left new hc
  have hb : b ∈ listed ++ (b :: near ++ far) := by simp
  have hdist : g.distance a b = n := h.near_eq b List.mem_cons_self
  have hchain : g.CallChain a n b := hdist ▸ callChain_distance (h.leadsTo b hb)
  refine ⟨?_, fun c hc => ?_, ?_, fun c hc => ?_, fun c hc => ?_, fun c hc => ?_,
    fun m hm c hc => ?_, fun x hx c hc => ?_⟩
  · rw [happ]
    refine List.nodup_append.2 ⟨h.nodup, hnew ▸ (nodup_callees g b).filter _, ?_⟩
    rintro x hx y hy rfl
    exact ((hmem x).1 hy).2 hx
  · rw [happ] at hc
    rcases List.mem_append.1 hc with hc | hc
    · exact h.leadsTo c hc
    · exact (h.leadsTo b hb).call ((hmem c).1 hc).1
  · refine List.pairwise_append.2 ⟨h.nearest, List.pairwise_singleton .., fun x hx y hy => ?_⟩
    rw [List.mem_singleton.1 hy, hdist]
    exact h.listed_le x hx
  · rcases List.mem_append.1 hc with hc | hc
    · exact h.listed_le c hc
    · rw [List.mem_singleton.1 hc, hdist]
  · exact h.near_eq c (List.mem_cons_of_mem b hc)
  · rcases List.mem_append.1 hc with hc | hc
    · exact h.far_eq c hc
    · -- it is one call further, and no nearer since it would have been seen before
      obtain ⟨hcall, hnot⟩ := (hmem c).1 hc
      have hle : g.distance a c ≤ n + 1 := distance_le (hchain.call hcall)
      have hgt : ¬ g.distance a c ≤ n := fun hn =>
        hnot (h.complete _ hn c (callChain_distance ⟨n + 1, hchain.call hcall⟩))
      omega
  · exact hseen c (h.complete m hm c hc)
  · rcases List.mem_append.1 hx with hx | hx
    · exact hseen c (h.closed x hx c hc)
    · by_cases hs : c ∈ listed ++ (b :: near ++ far)
      · exact hseen c hs
      · rw [happ]
        refine List.mem_append_right _ ((hmem c).2 ⟨?_, hs⟩)
        rwa [List.mem_singleton.1 hx] at hc

/-- As long as something waits, the first of it belongs to the level that is being listed, or opens
the next one. -/
theorem Level.exists_cons {queue : List RoutineKey} (h : g.Level a n listed near far)
    (hq : near ++ far = b :: queue) :
    ∃ n' near' far', g.Level a n' listed (b :: near') far' ∧ queue = near' ++ far' := by
  cases near with
  | nil =>
    obtain rfl : far = b :: queue := hq
    exact ⟨n + 1, queue, [], h.next, (List.append_nil queue).symm⟩
  | cons b' near =>
    obtain ⟨rfl, rfl⟩ := List.cons_eq_cons.1 hq
    exact ⟨n, near, far, h, rfl⟩

/-! ### The whole search -/

/-- What has been seen is never more than the bound. -/
theorem Level.length_le (h : g.Level a n listed near far) :
    (listed ++ (near ++ far)).length ≤ g.searchBound := by
  have hsub : listed ++ (near ++ far) ⊆ a :: g.nodes.values.flatMap fun n => n.callees.keys :=
    fun b hb => (h.leadsTo b hb).mem_ends
  have := (List.subperm_of_subset h.nodup hsub).length_le
  rw [List.length_cons] at this
  rw [searchBound]
  omega

/-- When nothing waits any more, everything has been listed. -/
theorem Level.lists (h : g.Level a n listed [] []) : g.Lists a listed := by
  have happ : listed ++ ([] ++ []) = listed := List.append_nil listed
  obtain ⟨hnodup, hleads, hnearest, -, -, -, hcomplete, hclosed⟩ := h
  rw [happ] at hnodup hleads
  refine ⟨hnodup, fun b => ⟨hleads b, ?_⟩, hnearest⟩
  rintro ⟨m, hb⟩
  induction hb with
  | here => exact happ ▸ hcomplete 0 (Nat.zero_le n) a .here
  | call _ hc ih => exact happ ▸ hclosed _ ih _ hc

theorem search_nil (g : CallGraph) (fuel : Nat) (seen : List RoutineKey) :
    g.search fuel [] seen = [] := by
  cases fuel <;> rfl

/-- A search that has listed as much as its bound allows has nothing left to list. -/
theorem Level.eq_nil (h : g.Level a n listed near far) (hf : g.searchBound ≤ listed.length) :
    near = [] ∧ far = [] := by
  have := h.length_le
  rw [List.length_append, List.length_append] at this
  exact ⟨List.length_eq_zero_iff.1 (by omega), List.length_eq_zero_iff.1 (by omega)⟩

/-- From any level on, the search lists what is left, unless it is cut short. -/
theorem Level.lists_search {fuel : Nat} (h : g.Level a n listed near far)
    (hf : g.searchBound ≤ fuel + listed.length) :
    g.Lists a (listed ++ g.search fuel (near ++ far) (listed ++ (near ++ far))) := by
  induction fuel generalizing n listed near far with
  | zero =>
    obtain ⟨rfl, rfl⟩ := h.eq_nil (by omega)
    simpa [search] using h.lists
  | succ fuel ih =>
    cases hq : near ++ far with
    | nil =>
      obtain ⟨rfl, rfl⟩ := List.append_eq_nil_iff.1 hq
      simpa [search] using h.lists
    | cons b queue =>
      obtain ⟨n', near', far', h', rfl⟩ := h.exists_cons hq
      have := ih h'.list (by rw [List.length_append, List.length_singleton]; omega)
      simpa [search] using this

/-- Nothing is listed in a round beyond the bound. -/
theorem Level.search_succ {fuel : Nat} (h : g.Level a n listed near far)
    (hf : g.searchBound ≤ fuel + listed.length) :
    g.search (fuel + 1) (near ++ far) (listed ++ (near ++ far)) =
      g.search fuel (near ++ far) (listed ++ (near ++ far)) := by
  induction fuel generalizing n listed near far with
  | zero =>
    obtain ⟨rfl, rfl⟩ := h.eq_nil (by omega)
    rw [List.append_nil, search_nil, search_nil]
  | succ fuel ih =>
    cases hq : near ++ far with
    | nil => rw [search_nil, search_nil]
    | cons b queue =>
      obtain ⟨n', near', far', h', rfl⟩ := h.exists_cons hq
      have := ih h'.list (by rw [List.length_append, List.length_singleton]; omega)
      rw [search, search]
      simpa using this

theorem lists_reachable (h : g.contains k = true) : g.Lists k (g.reachable k) := by
  rw [reachable, if_pos h]
  exact (level_start g k).lists_search (Nat.le_refl g.searchBound)

/-- The search for what a routine leads to ends by itself. -/
theorem search_eq_reachable (h : g.contains k = true) {fuel : Nat} (hf : g.searchBound ≤ fuel) :
    g.search fuel [k] [k] = g.reachable k := by
  rw [reachable, if_pos h]
  induction fuel, hf using Nat.le_induction with
  | base => rfl
  | succ fuel hf ih => exact ((level_start g k).search_succ hf).trans ih

theorem head?_reachable (h : g.contains k = true) : (g.reachable k).head? = some k := by
  rw [reachable, if_pos h, searchBound, Nat.add_comm]
  rfl

theorem mem_reachable_iff : b ∈ g.reachable k ↔ g.contains k = true ∧ g.LeadsTo k b := by
  cases h : g.contains k with
  | false => simp [reachable, h]
  | true => rw [(lists_reachable h).mem_iff, eq_self, true_and]

/-- A routine has by way of others what any of the routines has that it leads to. -/
theorem contains_transitive (select : CallNode → OrdSet String) (k : RoutineKey) (key : String) :
    (g.transitive select k).contains key = true ↔
      ∃ b n, g.LeadsTo k b ∧ g.node? b = some n ∧ (select n).contains key = true := by
  rw [transitive, OrdSet.contains_ofList, decide_eq_true_iff, List.mem_flatMap]
  constructor
  · rintro ⟨n, hn, hkey⟩
    obtain ⟨b, hb, hnode⟩ := List.mem_filterMap.1 hn
    exact ⟨b, n, (mem_reachable_iff.1 hb).2, hnode, Table.mem_keys_iff.1 hkey⟩
  · rintro ⟨b, n, hb, hnode, hkey⟩
    have hk : g.contains k = true := by
      rcases hb.eq_or_contains with rfl | hk
      · rw [contains_eq, hnode]
        rfl
      · exact hk
    exact ⟨n, List.mem_filterMap.2 ⟨b, mem_reachable_iff.2 ⟨hk, hb⟩, hnode⟩,
      Table.mem_keys_iff.2 hkey⟩

/-- **Reachability.**  In a graph that operations have built, the search from a routine starts with
it and lists each routine that it leads to once, the nearer ones first.  All of these are routines of
the graph, and the search ends by itself.  From a routine that is not there it lists nothing.  What a
routine writes and reads by way of others is what the routines write and read that it leads to. -/
theorem reachable_run (ops : List Operation) (k : RoutineKey) :
    ((run ops).contains k = true →
      ((run ops).reachable k).head? = some k ∧ (run ops).Lists k ((run ops).reachable k) ∧
      (∀ b ∈ (run ops).reachable k, (run ops).contains b = true) ∧
      ∀ fuel, (run ops).searchBound ≤ fuel →
        (run ops).search fuel [k] [k] = (run ops).reachable k) ∧
    ((run ops).contains k = false → (run ops).reachable k = []) ∧
    (∀ key, ((run ops).transitiveWrites k).contains key = true ↔
      ∃ b n, (run ops).LeadsTo k b ∧ (run ops).node? b = some n ∧ n.writes.contains key = true) ∧
    ∀ key, ((run ops).transitiveReads k).contains key = true ↔
      ∃ b n, (run ops).LeadsTo k b ∧ (run ops).node? b = some n ∧ n.reads.contains key = true := by
  refine ⟨fun h => ⟨head?_reachable h, lists_reachable h, fun b hb => ?_, fun fuel hf => ?_⟩,
    fun h => ?_, fun key => ?_, fun key => ?_⟩
  · refine ((lists_reachable h).mem_iff b).1 hb |>.contains (fun a b hab => ?_) h
    have hcallers := mem_callees_iff.1 hab
    rw [(wellFormed_run ops).linked] at hcallers
    exact contains_of_calledBy hcallers
  · exact search_eq_reachable h hf
  · rw [reachable, h]
    rfl
  · exact contains_transitive (·.writes) k key
  · exact contains_transitive (·.reads) k key

/-- Two routines of two documents that call each other, the first one also itself; the second writes
a variable. -/
def mutualCalls : List Operation :=
  let f : RoutineKey := ⟨"file:///a.py", "f"⟩
  let g : RoutineKey := ⟨"file:///b.py", "g"⟩
  [.addRoutine ⟨f, ⟨0, 0⟩, .origin, .origin, []⟩, .addRoutine ⟨g, ⟨0, 0⟩, .origin, .origin, []⟩,
    .addCall f f, .addCall f g, .addCall g f, .setAccess g .empty (OrdSet.ofList ["var:x"])]

/-- Recursion does not keep the search from ending, and what the one routine writes, the other writes
by way of it. -/
theorem reachable_mutualCalls :
    ∃ l, (run mutualCalls).reachable ⟨"file:///a.py", "f"⟩ = l ∧ l.length = 2 ∧
      (run mutualCalls).Lists ⟨"file:///a.py", "f"⟩ l ∧
      ∃ b n, (run mutualCalls).LeadsTo ⟨"file:///a.py", "f"⟩ b ∧
        (run mutualCalls).node? b = some n ∧ n.writes.contains "var:x" = true := by
  obtain ⟨hthere, -, hwrites, -⟩ := reachable_run mutualCalls ⟨"file:///a.py", "f"⟩
  obtain ⟨-, hlists, -⟩ := hthere (by decide +kernel)
  exact ⟨_, rfl, by decide +kernel, hlists, (hwrites "var:x").1 (by decide +kernel)⟩

end RouteScript.CallGraph
