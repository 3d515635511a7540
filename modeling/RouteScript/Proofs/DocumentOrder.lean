import Mathlib.Data.List.Basic
import RouteScript.Script.Scope

/-!
# Document order

In a tree whose spans are well placed, each node lies inside the nodes above it and in front of the
nodes that come after it in the list of all nodes, unless those are below it.

* `placed_of_mem_descendants`: what is below a node is well placed inside it.
* `pairwise_descendants`: what comes after a node is below it or behind it.
* `map_withScopes`: the nodes with their scopes are the same list.
-/

namespace RouteScript.Python.Node

theorem descendants_eq (n : Node) : n.descendants = n :: descendantsOf n.children := by
  obtain ⟨kind, field, span, children⟩ := n
  rw [descendants, Node.children]

theorem descendantsOf_append (ns ms : List Node) :
    descendantsOf (ns ++ ms) = descendantsOf ns ++ descendantsOf ms := by
  induction ns with
  | nil => rfl
  | cons n ns ih => rw [List.cons_append, descendantsOf, ih, descendantsOf, List.append_assoc]

theorem mem_descendants_self (n : Node) : n ∈ n.descendants := by
  rw [descendants_eq]
  exact List.mem_cons_self

theorem mem_descendantsOf {ns : List Node} {m : Node} :
    m ∈ descendantsOf ns ↔ ∃ n ∈ ns, m ∈ n.descendants := by
  induction ns with
  | nil => simp [descendantsOf]
  | cons n ns ih => simp [descendantsOf, ih]

theorem mem_descendants_of_mem_children {n m : Node} (h : m ∈ n.children) : m ∈ n.descendants := by
  rw [descendants_eq]
  exact List.mem_cons_of_mem n (mem_descendantsOf.2 ⟨m, h, m.mem_descendants_self⟩)

mutual

theorem descendants_trans {n m k : Node} (hm : m ∈ n.descendants) (hk : k ∈ m.descendants) :
    k ∈ n.descendants := by
  match n with
  | .mk kind field span children =>
    rw [descendants] at hm ⊢
    rcases List.mem_cons.1 hm with rfl | hm
    · rw [descendants] at hk
      exact hk
    · exact List.mem_cons_of_mem _ (descendantsOf_trans hm hk)

theorem descendantsOf_trans {ns : List Node} {m k : Node} (hm : m ∈ descendantsOf ns)
    (hk : k ∈ m.descendants) : k ∈ descendantsOf ns := by
  match ns with
  | [] => cases hm
  | n :: ns =>
    rw [descendantsOf] at hm ⊢
    rcases List.mem_append.1 hm with hm | hm
    · exact List.mem_append_left _ (descendants_trans hm hk)
    · exact List.mem_append_right _ (descendantsOf_trans hm hk)

end

/-! ### Well placed spans -/

theorem isPlaced_iff {t : Text} {n : Node} : n.isPlaced t = true ↔
    t.isBoundary n.span.start = true ∧ t.isBoundary n.span.stop = true ∧
      inOrder t n.span.start n.span.stop n.children = true := by
  obtain ⟨kind, field, span, children⟩ := n
  simp only [isPlaced, Bool.and_eq_true, and_assoc, Node.span, Node.children]

theorem inOrder_cons {t : Text} {low high : Nat} {n : Node} {ns : List Node} :
    inOrder t low high (n :: ns) = true ↔
      low ≤ n.span.start ∧ n.isPlaced t = true ∧ inOrder t n.span.stop high ns = true := by
  simp only [inOrder, Bool.and_eq_true, decide_eq_true_eq, and_assoc]

mutual

theorem le_of_isPlaced {t : Text} {n : Node} (h : n.isPlaced t = true) :
    n.span.start ≤ n.span.stop := by
  match n with
  | .mk _ _ _ _ => exact le_of_inOrder (isPlaced_iff.1 h).2.2

theorem le_of_inOrder {t : Text} {low high : Nat} {ns : List Node}
    (h : inOrder t low high ns = true) : low ≤ high := by
  match ns with
  | [] => exact of_decide_eq_true h
  | n :: ns =>
    obtain ⟨hlow, hn, hns⟩ := inOrder_cons.1 h
    exact Nat.le_trans hlow (Nat.le_trans (le_of_isPlaced hn) (le_of_inOrder hns))

end

mutual

/-- What is below a node is well placed inside it. -/
theorem placed_of_mem_descendants {t : Text} {n m : Node} (h : n.isPlaced t = true)
    (hm : m ∈ n.descendants) : m.isPlaced t = true ∧ n.span.Encloses m.span := by
  match n with
  | .mk kind field span children =>
    rw [descendants] at hm
    rcases List.mem_cons.1 hm with rfl | hm
    · exact ⟨h, Nat.le_refl _, Nat.le_refl _⟩
    · exact placed_of_mem_descendantsOf (isPlaced_iff.1 h).2.2 hm

/-- What is below trees between two offsets is well placed between them. -/
theorem placed_of_mem_descendantsOf {t : Text} {low high : Nat} {ns : List Node} {m : Node}
    (h : inOrder t low high ns = true) (hm : m ∈ descendantsOf ns) :
    m.isPlaced t = true ∧ Span.Encloses ⟨low, high⟩ m.span := by
  match ns with
  | [] => cases hm
  | n :: ns =>
    obtain ⟨hlow, hn, hns⟩ := inOrder_cons.1 h
    have hle := le_of_isPlaced hn
    have hhigh := le_of_inOrder hns
    rw [descendantsOf] at hm
    rcases List.mem_append.1 hm with hm | hm
    · obtain ⟨hp, hlo, hhi⟩ := placed_of_mem_descendants hn hm
      exact ⟨hp, Nat.le_trans hlow hlo, Nat.le_trans hhi hhigh⟩
    · obtain ⟨hp, hlo, hhi⟩ := placed_of_mem_descendantsOf hns hm
      exact ⟨hp, Nat.le_trans hlow (Nat.le_trans hle hlo), hhi⟩

end

/-- The nodes in front of one of several trees, and those behind it. -/
theorem inOrder_append {t : Text} {low high : Nat} {ns ms : List Node} {n : Node}
    (h : inOrder t low high (ns ++ n :: ms) = true) :
    inOrder t low n.span.start ns = true ∧ n.isPlaced t = true ∧
      inOrder t n.span.stop high ms = true := by
  induction ns generalizing low with
  | nil =>
    obtain ⟨hlow, hn, hms⟩ := inOrder_cons.1 h
    exact ⟨decide_eq_true hlow, hn, hms⟩
  | cons m ns ih =>
    obtain ⟨hlow, hm, hrest⟩ := inOrder_cons.1 h
    obtain ⟨hns, hn, hms⟩ := ih hrest
    exact ⟨inOrder_cons.2 ⟨hlow, hm, hns⟩, hn, hms⟩

/-! ### The list of all nodes -/

/-- The second node is below the first, or behind it. -/
def Precedes (n m : Node) : Prop := m ∈ descendantsOf n.children ∨ n.span.stop ≤ m.span.start

mutual

/-- After a node come the nodes below it and those behind it. -/
theorem pairwise_descendants {t : Text} {n : Node} (h : n.isPlaced t = true) :
    n.descendants.Pairwise Precedes := by
  match n with
  | .mk kind field span children =>
    rw [descendants]
    refine .cons (fun m hm => .inl hm) ?_
    exact pairwise_descendantsOf (isPlaced_iff.1 h).2.2

theorem pairwise_descendantsOf {t : Text} {low high : Nat} {ns : List Node}
    (h : inOrder t low high ns = true) : (descendantsOf ns).Pairwise Precedes := by
  match ns with
  | [] => exact .nil
  | n :: ns =>
    obtain ⟨-, hn, hns⟩ := inOrder_cons.1 h
    rw [descendantsOf]
    refine List.pairwise_append.2 ⟨pairwise_descendants hn, pairwise_descendantsOf hns, ?_⟩
    intro a ha b hb
    have hin := (placed_of_mem_descendants hn ha).2.2
    have hout := (placed_of_mem_descendantsOf hns hb).2.1
    exact .inr (Nat.le_trans hin hout)

end

/-- Of two nodes of a tree, one comes after the other. -/
theorem precedes_of_mem {t : Text} {root n m : Node} (h : root.isPlaced t = true)
    (hn : n ∈ root.descendants) (hm : m ∈ root.descendants) :
    n = m ∨ Precedes n m ∨ Precedes m n := by
  obtain ⟨front, back, hsplit⟩ := List.append_of_mem hn
  have hpairwise := pairwise_descendants h
  rw [hsplit, List.pairwise_append, List.pairwise_cons] at hpairwise
  obtain ⟨-, ⟨hback, -⟩, hfront⟩ := hpairwise
  rw [hsplit] at hm
  rcases List.mem_append.1 hm with hm | hm
  · exact .inr (.inr (hfront m hm n List.mem_cons_self))
  · rcases List.mem_cons.1 hm with rfl | hm
    · exact .inl rfl
    · exact .inr (.inl (hback m hm))

mutual

theorem map_withScopes (t : Text) (scope : String) (n : Node) :
    (n.withScopes t scope).map (·.2) = n.descendants := by
  match n with
  | .mk kind field span children => rw [withScopes, List.map_cons, map_withScopesAll, descendants]

theorem map_withScopesAll (t : Text) (scope : String) (ns : List Node) :
    (withScopesAll t scope ns).map (·.2) = descendantsOf ns := by
  match ns with
  | [] => rfl
  | n :: ns =>
    rw [withScopesAll, List.map_append, map_withScopes, map_withScopesAll, descendantsOf]

end

theorem mem_descendants_of_mem_withScopes {t : Text} {outer scope : String} {root n : Node}
    (h : (scope, n) ∈ root.withScopes t outer) : n ∈ root.descendants := by
  rw [← map_withScopes t outer]
  exact List.mem_map_of_mem h

end RouteScript.Python.Node
