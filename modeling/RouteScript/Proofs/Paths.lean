import RouteScript.Proofs.DocumentOrder

/-!
# Paths to a span

The path from a tree down to a span goes from a node to the first of its children that reaches to
the end of the span.  The children follow one another, so at most one of them can hold the span,
and the path leads into all nodes around it, unless an empty node stands where the span starts.

* `Lineage`, `exists_lineage`: the nodes above a node, and its scope as these have it.
* `Path`, `path_pathTo`: a path goes down from child to child, around the span.
* `Path.exists_cut`: a node of a path with all that is below it, cut out of the list of all nodes.
* `Lineage.mem_of_contains`: nodes that share a byte are above one another.
* `Path.cases_of_contains`: how a node that holds a byte of the span lies to the path.
* `mem_pathTo_of_holds`: the path leads into the nodes that hold the span.
-/

namespace RouteScript.Python.Node

/-- A node and all nodes above it, the innermost first. -/
inductive Lineage (root : Node) : List Node → Prop where
  | root : Lineage root [root]
  | child {n m : Node} {outer : List Node} (h : Lineage root (n :: outer)) (hm : m ∈ n.children) :
      Lineage root (m :: n :: outer)

section Lineage

variable {root : Node} {line : List Node}

theorem Lineage.mem_descendants (h : Lineage root line) : ∀ k ∈ line, k ∈ root.descendants := by
  induction h with
  | root => exact fun k hk => List.mem_singleton.1 hk ▸ root.mem_descendants_self
  | child h hm ih =>
    intro k hk
    rcases List.mem_cons.1 hk with rfl | hk
    · exact descendants_trans (ih _ List.mem_cons_self) (mem_descendants_of_mem_children hm)
    · exact ih k hk

/-- What stands further in is below what stands further out. -/
theorem Lineage.pairwise (h : Lineage root line) :
    line.Pairwise fun inner outer => inner ∈ outer.descendants := by
  induction h with
  | root => exact List.pairwise_singleton ..
  | child h hm ih =>
    refine .cons (fun k hk => ?_) ih
    have hchild := mem_descendants_of_mem_children hm
    rcases List.mem_cons.1 hk with rfl | hk
    · exact hchild
    · exact descendants_trans ((List.pairwise_cons.1 ih).1 k hk) hchild

end Lineage

/-- The nodes lead from the root down, the innermost first, each from its parent around the span. -/
inductive Path (s : Span) (root : Node) : List Node → Prop where
  | root : Path s root [root]
  | child {n m : Node} {outer : List Node} (h : Path s root (n :: outer)) (hm : m ∈ n.children)
      (hs : m.span.start ≤ s.start) (hr : reaches s m = true) : Path s root (m :: n :: outer)

section Path

variable {s : Span} {root : Node}

mutual

theorem path_pathTo {n : Node} {outer : List Node} (h : Path s root (n :: outer)) :
    Path s root (n.pathTo s outer) := by
  match n with
  | .mk kind field span children =>
    rw [pathTo]
    exact path_pathBelow h (List.Subset.refl children)

theorem path_pathBelow {n : Node} {outer ns : List Node} (h : Path s root (n :: outer))
    (hns : ns ⊆ n.children) : Path s root (pathBelow s (n :: outer) ns) := by
  match ns with
  | [] => exact h
  | m :: ns =>
    rw [pathBelow]
    split
    · rename_i hr
      split
      · exact h
      · rename_i hs
        exact path_pathTo (h.child (hns List.mem_cons_self) (Nat.le_of_not_lt hs) hr)
    · exact path_pathBelow h (List.Subset.trans (List.subset_cons_self ..) hns)

end

theorem path_root (s : Span) (root : Node) : Path s root (root.pathTo s []) := path_pathTo .root

variable {path : List Node}

theorem Path.lineage (h : Path s root path) : Lineage root path := by
  induction h with
  | root => exact .root
  | child _ hm _ _ ih => exact ih.child hm

theorem Path.mem_descendants (h : Path s root path) : ∀ k ∈ path, k ∈ root.descendants :=
  h.lineage.mem_descendants

/-- What stands further in on a path is below what stands further out. -/
theorem Path.pairwise (h : Path s root path) :
    path.Pairwise fun inner outer => inner ∈ outer.descendants :=
  h.lineage.pairwise

theorem Path.ne_nil (h : Path s root path) : path ≠ [] := by
  cases h <;> exact List.cons_ne_nil _ _

theorem Path.getLast? (h : Path s root path) : path.getLast? = some root := by
  induction h with
  | root => rfl
  | child _ _ _ _ ih => rw [List.getLast?_cons_cons, ih]

/-- The outer part of a path is a path. -/
theorem Path.of_append {inner outer : List Node} {n : Node}
    (h : Path s root (inner ++ n :: outer)) : Path s root (n :: outer) := by
  induction inner with
  | nil => exact h
  | cons m inner ih =>
    cases inner with
    | nil =>
      cases h with
      | child h => exact h
    | cons k inner =>
      cases h with
      | child h => exact ih h

/-- A node of a path is the root, or it lies around the span. -/
theorem Path.around {n : Node} {outer : List Node} (h : Path s root (n :: outer)) :
    n = root ∧ outer = [] ∨ n.span.start ≤ s.start ∧ reaches s n = true := by
  cases h with
  | root => exact .inl ⟨rfl, rfl⟩
  | child _ _ hs hr => exact .inr ⟨hs, hr⟩

end Path

/-! ### Scopes -/

theorem withScopes_eq (t : Text) (scope : String) (n : Node) :
    n.withScopes t scope = (scope, n) :: withScopesAll t (n.scopeBelow t scope) n.children := by
  obtain ⟨kind, field, span, children⟩ := n
  rw [withScopes, Node.children]

theorem withScopesAll_append (t : Text) (scope : String) (ns ms : List Node) :
    withScopesAll t scope (ns ++ ms) = withScopesAll t scope ns ++ withScopesAll t scope ms := by
  induction ns with
  | nil => rfl
  | cons n ns ih => rw [List.cons_append, withScopesAll, ih, withScopesAll, List.append_assoc]

theorem mem_descendantsOf_of_mem_withScopesAll {t : Text} {scope : String} {ns : List Node}
    {x : String × Node} (h : x ∈ withScopesAll t scope ns) : x.2 ∈ descendantsOf ns := by
  rw [← map_withScopesAll t scope]
  exact List.mem_map_of_mem h

theorem scopeIn_cons (t : Text) (n : Node) (outer : List Node) :
    scopeIn t (n :: outer) = n.scopeBelow t (scopeIn t outer) := by
  rw [scopeIn, scopeBelow, List.findSome?_cons]
  cases n.functionName? t <;> rfl

theorem scopeIn_cases (t : Text) (outer : List Node) :
    scopeIn t outer = moduleScope ∨ ∃ f ∈ outer, f.functionName? t = some (scopeIn t outer) := by
  rw [scopeIn]
  cases h : outer.findSome? (·.functionName? t) with
  | none => exact .inl rfl
  | some name => exact .inr (List.exists_of_findSome?_eq_some h)

section Lineage

variable {t : Text} {root m : Node} {scope : String}

mutual

/-- The scope found on the way down to a node is the one found by looking at the nodes above it. -/
theorem exists_lineage {n : Node} {outer : List Node}
    (h : (scope, m) ∈ n.withScopes t (scopeIn t outer)) (hn : Lineage root (n :: outer)) :
    ∃ above, Lineage root (m :: above) ∧ scope = scopeIn t above := by
  match n with
  | .mk kind field span children =>
    rw [withScopes, ← scopeIn_cons] at h
    rcases List.mem_cons.1 h with h | h
    · cases h
      exact ⟨outer, hn, rfl⟩
    · exact exists_lineageAll h fun c hc => hn.child hc

theorem exists_lineageAll {ns outer : List Node}
    (h : (scope, m) ∈ withScopesAll t (scopeIn t outer) ns)
    (hns : ∀ n ∈ ns, Lineage root (n :: outer)) :
    ∃ above, Lineage root (m :: above) ∧ scope = scopeIn t above := by
  match ns with
  | [] => cases h
  | n :: ns =>
    obtain ⟨hn, hns⟩ := List.forall_mem_cons.1 hns
    rw [withScopesAll] at h
    rcases List.mem_append.1 h with h | h
    · exact exists_lineage h hn
    · exact exists_lineageAll h hns

end

end Lineage

/-! ### Cutting a node out -/

/-- A node of a path and what is below it stand together in the list of all nodes, with their
scopes.  What comes before ends in front of the node or is around it, and what comes after is behind
it. -/
theorem Path.exists_cut {s : Span} {t : Text} {root n : Node} {outer : List Node}
    (h : Path s root (n :: outer)) (hp : root.isPlaced t = true) : ∃ front back,
      root.withScopes t moduleScope = front ++ (n.withScopes t (scopeIn t outer) ++ back) ∧
      (∀ x ∈ front, x.2.span.stop ≤ n.span.start ∨ n ∈ descendantsOf x.2.children) ∧
      ∀ x ∈ back, n.span.stop ≤ x.2.span.start := by
  generalize hpath : n :: outer = path at h
  induction h generalizing n outer with
  | root =>
    cases hpath
    exact ⟨[], [], (List.append_nil _).symm, fun x hx => absurd hx List.not_mem_nil,
      fun x hx => absurd hx List.not_mem_nil⟩
  | @child p m above h hm _ _ ih =>
    cases hpath
    obtain ⟨front, back, hcut, hfront, hback⟩ := ih rfl
    have hpp := (placed_of_mem_descendants hp (h.mem_descendants p List.mem_cons_self)).1
    obtain ⟨before, after, hchildren⟩ := List.append_of_mem hm
    have horder := (isPlaced_iff.1 hpp).2.2
    rw [hchildren] at horder
    obtain ⟨hbefore, hn, hafter⟩ := inOrder_append horder
    have hlow := le_of_inOrder hbefore
    have hhigh := le_of_inOrder hafter
    refine ⟨front ++ (scopeIn t above, p) :: withScopesAll t (scopeIn t (p :: above)) before,
      withScopesAll t (scopeIn t (p :: above)) after ++ back, ?_, fun x hx => ?_, fun x hx => ?_⟩
    · rw [hcut, withScopes_eq, hchildren, withScopesAll_append, withScopesAll, ← scopeIn_cons]
      simp only [List.append_assoc, List.cons_append]
    · rcases List.mem_append.1 hx with hx | hx
      · rcases hfront x hx with hstop | hbelow
        · exact .inl (Nat.le_trans hstop hlow)
        · exact .inr (descendantsOf_trans hbelow (mem_descendants_of_mem_children hm))
      · rcases List.mem_cons.1 hx with rfl | hx
        · exact .inr (mem_descendantsOf.2 ⟨_, hm, mem_descendants_self _⟩)
        · have hx := mem_descendantsOf_of_mem_withScopesAll hx
          exact .inl (placed_of_mem_descendantsOf hbefore hx).2.2
    · rcases List.mem_append.1 hx with hx | hx
      · have hx := mem_descendantsOf_of_mem_withScopesAll hx
        exact (placed_of_mem_descendantsOf hafter hx).2.1
      · exact Nat.le_trans hhigh (hback x hx)

/-! ### Nodes around the span -/

/-- Of two siblings, one stands in front of the other. -/
theorem apart_of_inOrder {t : Text} {low high : Nat} {ns : List Node} {n m : Node}
    (h : inOrder t low high ns = true) (hn : n ∈ ns) (hm : m ∈ ns) :
    n = m ∨ n.span.stop ≤ m.span.start ∨ m.span.stop ≤ n.span.start := by
  induction ns generalizing low with
  | nil => cases hn
  | cons k ns ih =>
    obtain ⟨-, -, hns⟩ := inOrder_cons.1 h
    have behind : ∀ {x}, x ∈ ns → k.span.stop ≤ x.span.start := fun hx =>
      (placed_of_mem_descendantsOf hns (mem_descendantsOf.2 ⟨_, hx, mem_descendants_self _⟩)).2.1
    rcases List.mem_cons.1 hn with rfl | hn'
    · rcases List.mem_cons.1 hm with rfl | hm'
      · exact .inl rfl
      · exact .inr (.inl (behind hm'))
    · rcases List.mem_cons.1 hm with rfl | hm'
      · exact .inr (.inr (behind hn'))
      · exact ih hns hn' hm'

theorem contains_of_mem_descendants {t : Text} {n m : Node} {b : Nat} (h : n.isPlaced t = true)
    (hm : m ∈ n.descendants) (hb : m.span.Contains b) : n.span.Contains b := by
  obtain ⟨-, hlow, hhigh⟩ := placed_of_mem_descendants h hm
  exact ⟨Nat.le_trans hlow hb.1, Nat.lt_of_lt_of_le hb.2 hhigh⟩

/-- Of two nodes that share a byte, one is above the other. -/
theorem Lineage.mem_of_contains {t : Text} {root m n : Node} {outer : List Node} {b : Nat}
    (h : Lineage root (n :: outer)) (hp : root.isPlaced t = true) (hm : m ∈ root.descendants)
    (hmb : m.span.Contains b) (hnb : n.span.Contains b) : m ∈ outer ∨ m ∈ n.descendants := by
  generalize hline : n :: outer = line at h
  induction h generalizing n outer with
  | root =>
    cases hline
    exact .inr hm
  | @child p c above h hc ih =>
    cases hline
    have hpp := (placed_of_mem_descendants hp (h.mem_descendants p List.mem_cons_self)).1
    have hpb := contains_of_mem_descendants hpp (mem_descendants_of_mem_children hc) hnb
    rcases ih hpb rfl with hout | hbelow
    · exact .inl (List.mem_cons_of_mem p hout)
    rw [descendants_eq] at hbelow
    rcases List.mem_cons.1 hbelow with rfl | hbelow
    · exact .inl List.mem_cons_self
    -- of the children, only the one on the line has the byte
    obtain ⟨q, hq, hmq⟩ := mem_descendantsOf.1 hbelow
    have hqp := (placed_of_mem_descendants hpp (mem_descendants_of_mem_children hq)).1
    have hqb := contains_of_mem_descendants hqp hmq hmb
    rcases apart_of_inOrder (isPlaced_iff.1 hpp).2.2 hc hq with rfl | hapart
    · exact .inr hmq
    · simp only [Span.Contains] at hnb hqb
      omega

theorem reaches_iff {s : Span} {n : Node} : reaches s n = true ↔
    s.stop ≤ n.span.stop ∧ (s.start < n.span.stop ∨ s.start = n.span.stop ∧ n.span.size = 0) := by
  simp [reaches]

/-- A node that holds a byte of the span, or the byte at its start, is below the nodes of the path,
unless these are below it or empty. -/
theorem Path.cases_of_contains {s : Span} {t : Text} {root m : Node} {path : List Node} {b : Nat}
    (h : Path s root path) (hp : root.isPlaced t = true) (hm : m ∈ root.descendants)
    (hb : b = s.start ∨ s.Contains b) (hmb : m.span.Contains b) : ∀ k ∈ path,
      m ∈ k.descendants ∨ k ∈ descendantsOf m.children ∨ k.span.start = k.span.stop := by
  induction h with
  | root =>
    intro k hk
    obtain rfl := List.mem_singleton.1 hk
    exact .inl hm
  | @child p c outer h hc hs hr ih =>
    intro k hk
    rcases List.mem_cons.1 hk with rfl | hk
    swap
    · exact ih k hk
    have hpp := (placed_of_mem_descendants hp (h.mem_descendants p List.mem_cons_self)).1
    have hck := placed_of_mem_descendants hpp (mem_descendants_of_mem_children hc)
    have hle := le_of_isPlaced hck.1
    rcases ih p List.mem_cons_self with hin | hbelow | hempty
    · rw [descendants_eq] at hin
      rcases List.mem_cons.1 hin with rfl | hin
      · exact .inr (.inl (mem_descendantsOf.2 ⟨k, hc, k.mem_descendants_self⟩))
      · obtain ⟨q, hq, hmq⟩ := mem_descendantsOf.1 hin
        have horder := (isPlaced_iff.1 hpp).2.2
        have hqp := (placed_of_mem_descendants hpp (mem_descendants_of_mem_children hq)).1
        have hqm := (placed_of_mem_descendants hqp hmq).2
        -- the byte is one of the sibling, so it is none of the node of the path
        rcases apart_of_inOrder horder hc hq with rfl | hapart
        · exact .inl hmq
        · right; right
          obtain ⟨hstop, hreach⟩ := reaches_iff.1 hr
          simp only [Span.Contains, Span.Encloses, Span.size] at *
          omega
    · exact .inr (.inl (descendantsOf_trans hbelow (mem_descendants_of_mem_children hc)))
    · right; right
      have := hck.2
      simp only [Span.Encloses] at this
      omega

/-- The node holds the span, and the byte at its start. -/
def Holds (n : Node) (s : Span) : Prop := n.span.Contains s.start ∧ s.stop ≤ n.span.stop

instance (n : Node) (s : Span) : Decidable (n.Holds s) := inferInstanceAs (Decidable (_ ∧ _))

section Holds

variable {s : Span} {t : Text} {m : Node}

mutual

theorem subset_pathTo (n : Node) (outer : List Node) : n :: outer ⊆ n.pathTo s outer := by
  match n with
  | .mk kind field span children =>
    rw [pathTo]
    exact subset_pathBelow ..

theorem subset_pathBelow (path ns : List Node) : path ⊆ pathBelow s path ns := by
  match ns with
  | [] => exact List.Subset.refl path
  | n :: ns =>
    rw [pathBelow]
    split
    · split
      · exact List.Subset.refl path
      · exact List.Subset.trans (List.subset_cons_self ..) (subset_pathTo n path)
    · exact subset_pathBelow path ns

end

mutual

/-- A path leads into the nodes that hold the span, unless they begin with it and an empty node
stands there. -/
theorem mem_pathTo_of_holds {n : Node} {outer : List Node} (hp : n.isPlaced t = true)
    (hm : m ∈ n.descendants) (hs : m.Holds s) : m ∈ n.pathTo s outer ∨
      s.stop ≤ s.start ∧ m.span.start = s.start ∧
        ∃ e ∈ n.pathTo s outer, e.span.start = s.start ∧ e.span.stop = s.start := by
  match n with
  | .mk kind field span children =>
    rw [descendants] at hm
    rcases List.mem_cons.1 hm with rfl | hm
    · exact .inl (subset_pathTo _ outer List.mem_cons_self)
    · exact mem_pathBelow_of_holds (isPlaced_iff.1 hp).2.2 hm hs

theorem mem_pathBelow_of_holds {ns path : List Node} {low high : Nat}
    (h : inOrder t low high ns = true) (hm : m ∈ descendantsOf ns) (hs : m.Holds s) :
    m ∈ pathBelow s path ns ∨
      s.stop ≤ s.start ∧ m.span.start = s.start ∧
        ∃ e ∈ pathBelow s path ns, e.span.start = s.start ∧ e.span.stop = s.start := by
  match ns with
  | [] => cases hm
  | n :: ns =>
    obtain ⟨-, hn, hns⟩ := inOrder_cons.1 h
    obtain ⟨⟨hstart, hbyte⟩, hstop⟩ := hs
    have hle := le_of_isPlaced hn
    rw [pathBelow]
    rw [descendantsOf] at hm
    rcases List.mem_append.1 hm with hm | hm
    · -- the node is in the first tree, which reaches far enough then
      obtain ⟨-, hlow, hhigh⟩ := placed_of_mem_descendants hn hm
      rw [if_pos (reaches_iff.2 ⟨by omega, by omega⟩), if_neg (by omega)]
      exact mem_pathTo_of_holds hn hm ⟨⟨hstart, hbyte⟩, hstop⟩
    · -- the node is behind the first tree, which reaches far enough only if it is empty
      have hbehind := (placed_of_mem_descendantsOf hns hm).2.1
      simp only at hbehind
      split
      · rename_i hr
        obtain ⟨hend, hreach⟩ := reaches_iff.1 hr
        rw [Span.size] at hreach
        rw [if_neg (by omega)]
        exact .inr ⟨by omega, by omega, n, subset_pathTo n path List.mem_cons_self, by omega, by omega⟩
      · exact mem_pathBelow_of_holds hns hm ⟨⟨hstart, hbyte⟩, hstop⟩

end

end Holds

end RouteScript.Python.Node
