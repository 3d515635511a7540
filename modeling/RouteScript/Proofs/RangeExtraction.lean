import Mathlib.Data.List.Flatten
import Mathlib.Data.List.Sort
import RouteScript.Proofs.Occurrences
import RouteScript.Proofs.Paths
import RouteScript.Proofs.Statements

/-!
# Calls in the statements around spans

The calls in the statements around given spans are the calls of the document that lie in one of
these statements.  They come in the order of the document and none of them twice, however the spans
overlap: the statements are nested or apart, and those inside another one are left out.

* `Document.nearest`, `Document.IsNearest`: the statement around a span, and what makes it one.
* `outermost_spec`: the statements that are kept are apart, and the others lie in them.
* `Document.engineCallsIn_spec`: the calls and the occurrences in the statements around spans.
-/

namespace RouteScript

open Python (Node)
open Python.Node (Precedes)

/-- Some byte of the first span, or the byte at its start, is one of the second. -/
def Span.Meets (s r : Span) : Prop := ∃ b, (b = s.start ∨ s.Contains b) ∧ r.Contains b

/-! ### The statement around a span -/

namespace EngineCall

theorem innermostStatement?_cases {path outer : List Node} {n : Node}
    (h : innermostStatement? path = some (n, outer)) : ∃ inner, path = inner ++ n :: outer ∧
      (∀ k ∈ inner, k.kind.isStatement = false) ∧ (n.kind.isStatement = true ∨ outer = []) := by
  fun_induction innermostStatement? path with
  | case1 => cases h
  | case2 m =>
    cases h
    exact ⟨[], rfl, fun k hk => absurd hk List.not_mem_nil, .inr rfl⟩
  | case3 m outer _ hm =>
    cases h
    exact ⟨[], rfl, fun k hk => absurd hk List.not_mem_nil, .inl hm⟩
  | case4 m rest _ hm ih =>
    obtain ⟨inner, rfl, hinner, hn⟩ := ih h
    refine ⟨m :: inner, rfl, fun k hk => ?_, hn⟩
    rcases List.mem_cons.1 hk with rfl | hk
    · exact Bool.eq_false_iff.2 hm
    · exact hinner k hk

theorem exists_innermostStatement? {path : List Node} (h : path ≠ []) :
    ∃ found, innermostStatement? path = some found := by
  fun_induction innermostStatement? path with
  | case1 => exact absurd rfl h
  | case2 m => exact ⟨_, rfl⟩
  | case3 m outer _ hm => exact ⟨_, rfl⟩
  | case4 m rest hrest hm ih => exact ih fun hnil => hrest hnil

end EngineCall

namespace Document

open EngineCall

/-- The nearest statement around a span, with the nodes around it. -/
def nearest (d : Document) (s : Span) : Node × List Node :=
  (innermostStatement? (d.root.pathTo ⟨s.start, max s.start s.stop⟩ [])).getD (d.root, [])

/-- The nearest statement is the first one on the path to the span. -/
theorem nearest_spec (d : Document) (s : Span) :
    innermostStatement? (d.root.pathTo ⟨s.start, max s.start s.stop⟩ []) = some (d.nearest s) ∧
    ∃ inner, d.root.pathTo ⟨s.start, max s.start s.stop⟩ [] =
        inner ++ (d.nearest s).1 :: (d.nearest s).2 ∧
      (∀ k ∈ inner, k.kind.isStatement = false) ∧
      (d.nearest s).1.kind.isStatement = true ∧
      Node.Path ⟨s.start, max s.start s.stop⟩ d.root ((d.nearest s).1 :: (d.nearest s).2) := by
  have hpath := d.root.path_root ⟨s.start, max s.start s.stop⟩
  obtain ⟨found, hfound⟩ := exists_innermostStatement? hpath.ne_nil
  have hn : d.nearest s = found := by
    rw [nearest, hfound]
    rfl
  rw [hn]
  obtain ⟨inner, hsplit, hinner, hstatement⟩ := innermostStatement?_cases hfound
  rw [hsplit] at hpath
  refine ⟨hfound, inner, hsplit, hinner, ?_, hpath.of_append⟩
  rcases hstatement with hstatement | houter
  · exact hstatement
  · -- the last node of a path is the root, which is the module
    have hlast := hpath.getLast?
    rw [houter, List.getLast?_concat] at hlast
    rw [Option.some.inj hlast, d.kind_root]
    rfl

/-- What makes a statement the nearest one around a span: it holds the span, unless it is the
module, and lies in every statement that holds the span.  A place where an empty node stands belongs
to the statement of that node. -/
structure IsNearest (d : Document) (s : Span) (n : Node) : Prop where
  mem : n ∈ d.root.descendants
  statement : n.kind.isStatement = true
  holds : n = d.root ∨ n.Holds s
  least : ∀ m ∈ d.root.descendants, m.kind.isStatement = true → m.Holds s → n ∈ m.descendants ∨
    s.stop ≤ s.start ∧ ∃ e ∈ n.descendants, e.span.start = s.start ∧ e.span.stop = s.start

theorem isNearest_nearest (d : Document) (s : Span) : d.IsNearest s (d.nearest s).1 := by
  obtain ⟨-, inner, hsplit, hinner, hstatement, hpath⟩ := d.nearest_spec s
  have hmem := hpath.mem_descendants _ List.mem_cons_self
  refine ⟨hmem, hstatement, ?_, fun m hm hk hs => ?_⟩
  · rcases hpath.around with ⟨hroot, -⟩ | ⟨hstart, hr⟩
    · exact .inl hroot
    · rw [Node.descendants_eq] at hmem
      rcases List.mem_cons.1 hmem with hroot | hbelow
      · exact .inl hroot
      · have hwide := d.wide_of_mem_children _ hbelow hstatement
        obtain ⟨hstop, hreach⟩ := Node.reaches_iff.1 hr
        refine .inr ⟨⟨hstart, ?_⟩, Nat.le_trans (Nat.le_max_right ..) hstop⟩
        simp only [Span.size] at hreach
        omega
  · have hpairwise := (d.root.path_root ⟨s.start, max s.start s.stop⟩).pairwise
    rw [hsplit, List.pairwise_append] at hpairwise
    obtain ⟨-, houter, hinside⟩ := hpairwise
    have hs' : m.Holds ⟨s.start, max s.start s.stop⟩ :=
      ⟨hs.1, Nat.max_le.2 ⟨Nat.le_of_lt hs.1.2, hs.2⟩⟩
    rcases Node.mem_pathTo_of_holds d.isPlaced_root hm hs' with
      hin | ⟨hempty, -, e, he, hstart, hstop⟩
    · left
      rw [hsplit] at hin
      rcases List.mem_append.1 hin with hin | hin
      · rw [hinner m hin] at hk
        cases hk
      · rcases List.mem_cons.1 hin with rfl | hin
        · exact Node.mem_descendants_self _
        · exact (List.pairwise_cons.1 houter).1 m hin
    · right
      refine ⟨Nat.le_trans (Nat.le_max_right ..) hempty, ?_⟩
      rw [hsplit] at he
      rcases List.mem_append.1 he with he | he
      · exact ⟨e, hinside e he _ List.mem_cons_self, hstart, hstop⟩
      · rcases List.mem_cons.1 he with rfl | he
        · exact ⟨_, Node.mem_descendants_self _, hstart, hstop⟩
        · -- what is below an empty node is empty, too
          have hin := (List.pairwise_cons.1 houter).1 e he
          have hpe := (Node.placed_of_mem_descendants d.isPlaced_root
            (hpath.mem_descendants e (List.mem_cons_of_mem _ he))).1
          obtain ⟨hpn, hlow, hhigh⟩ := Node.placed_of_mem_descendants hpe hin
          have hle := Node.le_of_isPlaced hpn
          simp only at hstart hstop
          refine ⟨_, Node.mem_descendants_self _, ?_, ?_⟩ <;> omega

/-! ### Statements nested or apart -/

/-- Of two nodes, one lies in the other or in front of it. -/
theorem nested_or_apart (d : Document) {n m : Node} (hn : n ∈ d.root.descendants)
    (hm : m ∈ d.root.descendants) : n.span.Encloses m.span ∨ m.span.Encloses n.span ∨
      n.span.stop ≤ m.span.start ∨ m.span.stop ≤ n.span.start := by
  have hplaced : ∀ {k}, k ∈ d.root.descendants → k.isPlaced d.text = true := fun hk =>
    (Node.placed_of_mem_descendants d.isPlaced_root hk).1
  have hin : ∀ {a b : Node}, a ∈ d.root.descendants → Precedes a b →
      a.span.Encloses b.span ∨ a.span.stop ≤ b.span.start := by
    rintro a b ha (hbelow | hbehind)
    · exact .inl (Node.placed_of_mem_descendantsOf (Node.isPlaced_iff.1 (hplaced ha)).2.2 hbelow).2
    · exact .inr hbehind
  rcases Node.precedes_of_mem d.isPlaced_root hn hm with rfl | h | h
  · exact .inl ⟨Nat.le_refl _, Nat.le_refl _⟩
  · rcases hin hn h with h | h
    · exact .inl h
    · exact .inr (.inr (.inl h))
  · rcases hin hm h with h | h
    · exact .inr (.inl h)
    · exact .inr (.inr (.inr h))

end Document

namespace EngineCall

theorem startsFirst_iff {a b : Node × List Node} : startsFirst a b = true ↔
    a.1.span.start < b.1.span.start ∨
      a.1.span.start = b.1.span.start ∧ b.1.span.stop ≤ a.1.span.stop := by
  simp [startsFirst]

theorem outermost_sublist (last : Option Node) (ns : List (Node × List Node)) :
    (outermost last ns).Sublist ns := by
  fun_induction outermost last ns with
  | case1 => exact List.Sublist.refl _
  | case2 last n ns _ ih => exact ih.cons n
  | case3 last n ns _ ih => exact ih.cons_cons n

/-- Each statement lies in one that is kept, or in the last one kept before. -/
theorem exists_outermost {last : Option Node} {ns : List (Node × List Node)} :
    ∀ n ∈ ns, (∃ k ∈ outermost last ns, k.1.span.Encloses n.1.span) ∨
      ∃ l ∈ last, l.span.Encloses n.1.span := by
  fun_induction outermost last ns with
  | case1 => exact fun n hn => absurd hn List.not_mem_nil
  | case2 last n ns hl ih =>
    intro m hm
    rcases List.mem_cons.1 hm with rfl | hm
    · obtain ⟨l, hlast, hl⟩ := (Option.any_eq_true ..).1 hl
      exact .inr ⟨l, hlast, of_decide_eq_true hl⟩
    · exact ih m hm
  | case3 last n ns hl ih =>
    intro m hm
    rcases List.mem_cons.1 hm with rfl | hm
    · exact .inl ⟨m, List.mem_cons_self, Nat.le_refl _, Nat.le_refl _⟩
    · rcases ih m hm with ⟨k, hk, he⟩ | ⟨l, hlast, he⟩
      · exact .inl ⟨k, List.mem_cons_of_mem _ hk, he⟩
      · cases hlast
        exact .inl ⟨n, List.mem_cons_self, he⟩

end EngineCall

namespace Document

open EngineCall

/-- The statements that are kept follow one another, behind the last one kept before. -/
theorem pairwise_outermost (d : Document) {last : Option Node} {ns : List (Node × List Node)}
    (hsorted : ns.Pairwise fun a b => startsFirst a b = true)
    (hlast : ∀ l ∈ last, ∀ n ∈ ns, startsFirst (l, []) n = true)
    (hl : ∀ l ∈ last, l ∈ d.root.descendants) (hn : ∀ n ∈ ns, n.1 ∈ d.root.descendants) :
    (outermost last ns).Pairwise (fun a b => a.1.span.stop ≤ b.1.span.start) ∧
      ∀ l ∈ last, ∀ k ∈ outermost last ns, l.span.stop ≤ k.1.span.start := by
  have hle : ∀ {k}, k ∈ d.root.descendants → k.span.start ≤ k.span.stop := fun hk =>
    Node.le_of_isPlaced (Node.placed_of_mem_descendants d.isPlaced_root hk).1
  fun_induction outermost last ns with
  | case1 => exact ⟨.nil, fun l _ k hk => absurd hk List.not_mem_nil⟩
  | case2 last n ns _ ih =>
    exact ih (List.pairwise_cons.1 hsorted).2
      (fun l hm k hk => hlast l hm k (List.mem_cons_of_mem n hk)) hl
      (fun k hk => hn k (List.mem_cons_of_mem n hk))
  | case3 last n ns hout ih =>
    obtain ⟨hfirst, hrest⟩ := List.pairwise_cons.1 hsorted
    have hmem := hn n List.mem_cons_self
    obtain ⟨htail, hbehind⟩ := ih hrest (fun l hm => by cases hm; exact hfirst)
      (fun l hm => by cases hm; exact hmem) (fun k hk => hn k (List.mem_cons_of_mem n hk))
    refine ⟨.cons (hbehind n.1 rfl) htail, fun l hm k hk => ?_⟩
    -- the last one neither holds this one nor comes behind it
    have hstop : l.span.stop ≤ n.1.span.start := by
      have hnot : ¬ l.span.Encloses n.1.span := fun he =>
        hout ((Option.any_eq_true ..).2 ⟨l, hm, decide_eq_true he⟩)
      have horder := startsFirst_iff.1 (hlast l hm n List.mem_cons_self)
      have hplace := d.nested_or_apart (hl l hm) hmem
      have := hle (hl l hm)
      have := hle hmem
      simp only [Span.Encloses] at hnot hplace horder
      omega
    rcases List.mem_cons.1 hk with rfl | hk
    · exact hstop
    · exact Nat.le_trans hstop (Nat.le_trans (hle hmem) (hbehind n.1 rfl k hk))

theorem statementsAround_eq (d : Document) (spans : List Span) :
    d.statementsAround spans = outermost none ((spans.map d.nearest).mergeSort startsFirst) := by
  have haround : (spans.filterMap fun s =>
      innermostStatement? (d.root.pathTo ⟨s.start, max s.start s.stop⟩ [])) =
      spans.map d.nearest := by
    rw [← List.filterMap_eq_map]
    exact List.filterMap_congr fun s _ => (d.nearest_spec s).1
  rw [statementsAround, haround]

/-- The statements that are kept are nearest ones. -/
theorem exists_of_mem_statementsAround {d : Document} {spans : List Span} {n : Node × List Node}
    (h : n ∈ d.statementsAround spans) : ∃ s ∈ spans, d.nearest s = n := by
  rw [statementsAround_eq] at h
  exact List.mem_map.1 (List.mem_mergeSort.1 ((outermost_sublist ..).subset h))

/-- Each nearest statement lies in one that is kept. -/
theorem exists_mem_statementsAround (d : Document) {spans : List Span} {s : Span}
    (h : s ∈ spans) :
    ∃ k ∈ d.statementsAround spans, k.1.span.Encloses (d.nearest s).1.span := by
  rw [statementsAround_eq]
  have hm : d.nearest s ∈ (spans.map d.nearest).mergeSort startsFirst :=
    List.mem_mergeSort.2 (List.mem_map_of_mem h)
  rcases @exists_outermost none _ _ hm with h | ⟨l, hl, -⟩
  · exact h
  · cases hl

/-- The statements that are kept follow one another. -/
theorem pairwise_statementsAround (d : Document) (spans : List Span) :
    (d.statementsAround spans).Pairwise fun a b => a.1.span.stop ≤ b.1.span.start := by
  rw [statementsAround_eq]
  refine (d.pairwise_outermost (List.pairwise_mergeSort ?_ ?_ _) (by simp) (by simp) ?_).1
  · intro a b c hab hbc
    rw [startsFirst_iff] at *
    omega
  · intro a b
    rw [Bool.or_eq_true, startsFirst_iff, startsFirst_iff]
    omega
  · intro n hn
    obtain ⟨s, -, rfl⟩ := List.mem_map.1 (List.mem_mergeSort.1 hn)
    exact (d.isNearest_nearest s).mem

end Document

/-! ### Calls in document order -/

namespace EngineCall

/-- A call begins with a name, so a call in it starts further behind. -/
theorem start_lt_of_ofNode? {t : Text} {n : Node} {scope : String} {call : EngineCall}
    (hs : ∀ k ∈ n.descendants, k.Shaped (Python.tokens t)) (hp : n.isPlaced t = true)
    (h : ofNode? t scope n = some call) : n.span.start < n.span.stop ∧
      ∀ m ∈ Node.descendantsOf n.children, m.kind = .call → n.span.start < m.span.start := by
  obtain ⟨-, -, -, -, function, arguments, -, -, hc, hchain, -⟩ := ofNode?_cases hs h
  have hfs := shaped_below hs (by simp [hc] : function ∈ n.children)
  obtain ⟨_, name, hchildren, hname, -⟩ := hchain.parts
  have hmem : name ∈ function.descendants :=
    Node.mem_descendants_of_mem_children (by simp [hchildren])
  have hwide := Node.start_lt_of_identifier (hfs name hmem) hname
  have horder := (Node.isPlaced_iff.1 hp).2.2
  rw [hc] at horder
  obtain ⟨hlow, hpf, hrest⟩ := Node.inOrder_cons.1 horder
  obtain ⟨hbehind, hpa, hhigh⟩ := Node.inOrder_cons.1 hrest
  have hin := (Node.placed_of_mem_descendants hpf hmem).2
  have hle := Node.le_of_isPlaced hpa
  have hend := Node.le_of_inOrder hhigh
  simp only [Span.Encloses] at hin
  refine ⟨by omega, fun m hm hk => ?_⟩
  rw [hc, Node.descendantsOf, Node.descendantsOf, Node.descendantsOf, List.append_nil] at hm
  rcases List.mem_append.1 hm with hm | hm
  · exact absurd hk (hchain.kind_ne_call hfs m hm)
  · have := (Node.placed_of_mem_descendants hpa hm).2.1
    omega

theorem callSpan_of_ofNode? {t : Text} {n : Node} {scope : String} {call : EngineCall}
    (h : ofNode? t scope n = some call) : call.callSpan = n.span := by
  obtain ⟨⟨module, method⟩, -, h⟩ := Option.bind_eq_some_iff.1 h
  obtain ⟨body, -, h⟩ := Option.bind_eq_some_iff.1 h
  cases h
  rfl

end EngineCall

namespace Document

open EngineCall

/-- The calls start one behind the other. -/
theorem pairwise_start (d : Document) :
    d.engineCalls.Pairwise fun a b => a.callSpan.start < b.callSpan.start := by
  have hnodes := Node.pairwise_descendants d.isPlaced_root
  rw [← Node.map_withScopes d.text Node.moduleScope, List.pairwise_map] at hnodes
  refine List.pairwise_filterMap.2 (hnodes.imp_of_mem ?_)
  intro ⟨scope, n⟩ ⟨scope', m⟩ hn hm hnm outer houter inner hinner
  obtain ⟨hsn, hpn⟩ := shaped_placed_of_mem_withScopes hn
  obtain ⟨hsm, -⟩ := shaped_placed_of_mem_withScopes hm
  obtain ⟨hwide, hinside⟩ := start_lt_of_ofNode? hsn hpn houter
  rw [callSpan_of_ofNode? houter, callSpan_of_ofNode? hinner]
  rcases hnm with hbelow | hbehind
  · exact hinside m hbelow (ofNode?_cases hsm hinner).1
  · exact Nat.lt_of_lt_of_le hwide hbehind

/-- A call that has a byte in common with a statement of a path is one of those below it, with the
same scope. -/
theorem mem_withScopes_of_overlap {d : Document} {s : Span} {n : Node} {outer : List Node}
    (hpath : Node.Path s d.root (n :: outer)) (hn : n.kind.isStatement = true) {scope : String}
    {call : Node} (hc : (scope, call) ∈ d.root.withScopes d.text Node.moduleScope)
    (hk : call.kind = .call) (hlow : n.span.start < call.span.stop)
    (hhigh : call.span.start < n.span.stop) :
    (scope, call) ∈ n.withScopes d.text (Node.scopeIn d.text outer) := by
  have hmem := Node.mem_descendants_of_mem_withScopes hc
  obtain ⟨front, back, hcut, hfront, hback⟩ := hpath.exists_cut d.isPlaced_root
  rw [hcut] at hc
  rcases List.mem_append.1 hc with hc | hc
  · rcases hfront _ hc with hstop | hbelow
    · exact absurd hlow (Nat.not_lt.2 hstop)
    · rw [(d.plain_of_call hmem hk hbelow).1] at hn
      cases hn
  · rcases List.mem_append.1 hc with hc | hc
    · exact hc
    · exact absurd hhigh (Nat.not_lt.2 (hback _ hc))

/-- The calls below a statement of a path are some of those of the document, in the same order. -/
theorem sublist_below {d : Document} {s : Span} {n : Node} {outer : List Node}
    (hpath : Node.Path s d.root (n :: outer)) :
    (below d.text (Node.scopeIn d.text outer) n).Sublist d.engineCalls := by
  obtain ⟨front, back, hcut, -⟩ := hpath.exists_cut d.isPlaced_root
  rw [engineCalls, below, below, hcut]
  exact ((List.sublist_append_left ..).trans (List.sublist_append_right ..)).filterMap _

/-- A call of a document is a node that is not empty. -/
theorem exists_node_of_mem_engineCalls {d : Document} {c : EngineCall} (h : c ∈ d.engineCalls) :
    ∃ scope n, (scope, n) ∈ d.root.withScopes d.text Node.moduleScope ∧
      ofNode? d.text scope n = some c ∧ n.kind = .call ∧ c.callSpan = n.span ∧
      n.span.start < n.span.stop := by
  obtain ⟨⟨scope, n⟩, hn, hc⟩ := List.mem_filterMap.1 h
  obtain ⟨hs, hp⟩ := shaped_placed_of_mem_withScopes hn
  exact ⟨scope, n, hn, hc, (ofNode?_cases hs hc).1, callSpan_of_ofNode? hc,
    (start_lt_of_ofNode? hs hp hc).1⟩

theorem mem_below_iff {d : Document} {s : Span} {n : Node} {outer : List Node}
    (hpath : Node.Path s d.root (n :: outer)) (hn : n.kind.isStatement = true) {c : EngineCall} :
    c ∈ below d.text (Node.scopeIn d.text outer) n ↔
      c ∈ d.engineCalls ∧ n.span.Encloses c.callSpan := by
  constructor
  · intro h
    refine ⟨(sublist_below hpath).subset h, ?_⟩
    obtain ⟨⟨scope, x⟩, hx, hc⟩ := List.mem_filterMap.1 h
    have hbelow := Node.mem_descendants_of_mem_withScopes hx
    have hpn := (Node.placed_of_mem_descendants d.isPlaced_root
      (hpath.mem_descendants n List.mem_cons_self)).1
    rw [callSpan_of_ofNode? hc]
    exact (Node.placed_of_mem_descendants hpn hbelow).2
  · rintro ⟨h, hin⟩
    obtain ⟨scope, x, hx, hc, hk, hspan, hwide⟩ := exists_node_of_mem_engineCalls h
    rw [hspan] at hin
    refine List.mem_filterMap.2 ⟨_, mem_withScopes_of_overlap hpath hn hx hk ?_ ?_, hc⟩
    · exact Nat.lt_of_le_of_lt hin.1 hwide
    · exact Nat.lt_of_lt_of_le hwide hin.2

/-- The calls in the statements around the spans are those that lie in a nearest statement. -/
theorem mem_engineCallsIn_iff {d : Document} {spans : List Span} {c : EngineCall} :
    c ∈ d.engineCallsIn spans ↔
      c ∈ d.engineCalls ∧ ∃ s ∈ spans, (d.nearest s).1.span.Encloses c.callSpan := by
  rw [engineCallsIn, List.mem_flatMap]
  constructor
  · rintro ⟨n, hn, hc⟩
    obtain ⟨s, hs, rfl⟩ := exists_of_mem_statementsAround hn
    obtain ⟨-, inner, -, -, hstatement, hpath⟩ := d.nearest_spec s
    obtain ⟨hmem, hin⟩ := (mem_below_iff hpath hstatement).1 hc
    exact ⟨hmem, s, hs, hin⟩
  · rintro ⟨hc, s, hs, hin⟩
    obtain ⟨k, hk, hout⟩ := d.exists_mem_statementsAround hs
    refine ⟨k, hk, ?_⟩
    obtain ⟨s', -, rfl⟩ := exists_of_mem_statementsAround hk
    obtain ⟨-, inner, -, -, hstatement, hpath⟩ := d.nearest_spec s'
    exact (mem_below_iff hpath hstatement).2
      ⟨hc, Nat.le_trans hout.1 hin.1, Nat.le_trans hin.2 hout.2⟩

/-- The calls in the statements around the spans start one behind the other. -/
theorem pairwise_start_engineCallsIn (d : Document) (spans : List Span) :
    (d.engineCallsIn spans).Pairwise fun a b => a.callSpan.start < b.callSpan.start := by
  refine List.pairwise_flatMap.2 ⟨fun n hn => ?_, ?_⟩
  · obtain ⟨s, -, rfl⟩ := exists_of_mem_statementsAround hn
    obtain ⟨-, inner, -, -, -, hpath⟩ := d.nearest_spec s
    exact d.pairwise_start.sublist (sublist_below hpath)
  · refine (d.pairwise_statementsAround spans).imp_of_mem fun {n m} hn hm hapart a ha b hb => ?_
    obtain ⟨s, -, rfl⟩ := exists_of_mem_statementsAround hn
    obtain ⟨s', -, rfl⟩ := exists_of_mem_statementsAround hm
    obtain ⟨-, _, -, -, hstatement, hpath⟩ := d.nearest_spec s
    obtain ⟨-, _, -, -, hstatement', hpath'⟩ := d.nearest_spec s'
    obtain ⟨hmem, -, hstop⟩ := (mem_below_iff hpath hstatement).1 ha
    obtain ⟨-, hstart, -⟩ := (mem_below_iff hpath' hstatement').1 hb
    obtain ⟨-, x, -, -, -, hspan, hwide⟩ := exists_node_of_mem_engineCalls hmem
    rw [hspan] at hstop ⊢
    omega

theorem engineCallsIn_eq_filter (d : Document) (spans : List Span) :
    d.engineCallsIn spans = d.engineCalls.filter fun c =>
      ∃ s ∈ spans, (d.nearest s).1.span.Encloses c.callSpan := by
  have : Std.Antisymm fun a b : EngineCall => a.callSpan.start < b.callSpan.start :=
    ⟨fun a b hab hba => absurd hab (Nat.lt_asymm hba)⟩
  have : Std.Irrefl fun a b : EngineCall => a.callSpan.start < b.callSpan.start :=
    ⟨fun a => Nat.lt_irrefl _⟩
  refine (d.pairwise_start_engineCallsIn spans).eq_of_mem_iff
    (d.pairwise_start.sublist List.filter_sublist) fun c => ?_
  rw [mem_engineCallsIn_iff, List.mem_filter, decide_eq_true_iff]

/-- The nearest statement holds the calls that a span meets. -/
theorem encloses_of_meets {d : Document} {c : EngineCall} {s : Span} (hc : c ∈ d.engineCalls)
    (hm : s.Meets c.callSpan) : (d.nearest s).1.span.Encloses c.callSpan := by
  obtain ⟨b, hb, hin⟩ := hm
  obtain ⟨scope, x, hx, -, hk, hspan, -⟩ := exists_node_of_mem_engineCalls hc
  rw [hspan] at hin ⊢
  obtain ⟨-, _, -, -, hstatement, hpath⟩ := d.nearest_spec s
  have hmem := Node.mem_descendants_of_mem_withScopes hx
  have hnmem := hpath.mem_descendants _ List.mem_cons_self
  have hpn := (Node.placed_of_mem_descendants d.isPlaced_root hnmem).1
  have hb' : b = s.start ∨ Span.Contains ⟨s.start, max s.start s.stop⟩ b :=
    hb.imp_right fun hb => ⟨hb.1, Nat.lt_of_lt_of_le hb.2 (Nat.le_max_right ..)⟩
  rcases hpath.cases_of_contains d.isPlaced_root hmem hb' hin _ List.mem_cons_self with
    hbelow | hinside | hempty
  · exact (Node.placed_of_mem_descendants hpn hbelow).2
  · rw [(d.plain_of_call hmem hk hinside).1] at hstatement
    cases hstatement
  · -- only the module may be empty, and it holds everything
    rw [Node.descendants_eq] at hnmem
    rcases List.mem_cons.1 hnmem with hroot | hnmem
    · rw [hroot]
      exact (Node.placed_of_mem_descendants d.isPlaced_root hmem).2
    · have := d.wide_of_mem_children _ hnmem hstatement
      omega

/-- An occurrence lies in the nearest statement around a span if and only if its call does. -/
theorem encloses_occurrence_iff {d : Document} {c : EngineCall} {o : Occurrence} (s : Span)
    (hc : c ∈ d.engineCalls) (ho : o ∈ Occurrence.ofCall d.text c) :
    (d.nearest s).1.span.Encloses o.span ↔ (d.nearest s).1.span.Encloses c.callSpan := by
  obtain ⟨hstart, hwide, hstop⟩ := span_of_mem_ofCall hc ho
  obtain ⟨scope, x, hx, hcall, hk, hspan, -⟩ := exists_node_of_mem_engineCalls hc
  obtain ⟨hs, hp⟩ := shaped_placed_of_mem_withScopes hx
  obtain ⟨hlow, hhigh⟩ := contentSpan_within hs hp hcall
  obtain ⟨-, _, -, -, hstatement, hpath⟩ := d.nearest_spec s
  rw [hspan]
  constructor
  · rintro ⟨hfirst, hlast⟩
    have hin := mem_withScopes_of_overlap hpath hstatement hx hk (by omega) (by omega)
    have hpn := (Node.placed_of_mem_descendants d.isPlaced_root (d.isNearest_nearest s).mem).1
    exact (Node.placed_of_mem_descendants hpn (Node.mem_descendants_of_mem_withScopes hin)).2
  · rintro ⟨hfirst, hlast⟩
    exact ⟨by omega, by omega⟩

theorem flatMap_filter_eq {α β : Type} {f : α → List β} {p : α → Bool} {q : β → Bool}
    {l : List α} (h : ∀ a ∈ l, ∀ b ∈ f a, q b = p a) :
    (l.filter p).flatMap f = (l.flatMap f).filter q := by
  induction l with
  | nil => rfl
  | cons a l ih =>
    obtain ⟨ha, hl⟩ := List.forall_mem_cons.1 h
    rw [List.flatMap_cons, List.filter_append, ← ih hl, List.filter_cons]
    cases hp : p a with
    | false =>
      have hnone : (f a).filter q = [] := by
        refine List.filter_eq_nil_iff.2 fun b hb => ?_
        rw [ha b hb, hp]
        exact Bool.false_ne_true
      rw [hnone]
      rfl
    | true =>
      have hall : (f a).filter q = f a := by
        refine List.filter_eq_self.2 fun b hb => ?_
        rw [ha b hb, hp]
      rw [hall]
      rfl

theorem occurrencesIn_eq_filter (d : Document) (spans : List Span) :
    d.occurrencesIn spans = d.occurrences.filter fun o =>
      ∃ s ∈ spans, (d.nearest s).1.span.Encloses o.span := by
  rw [occurrencesIn, engineCallsIn_eq_filter, occurrences]
  refine flatMap_filter_eq fun c hc o ho => decide_eq_decide.2 ?_
  exact exists_congr fun s => and_congr_right fun _ => encloses_occurrence_iff s hc ho

/-- The calls in the statements around some spans are those of the document that lie in the nearest
statement around one of the spans, in the order of the document and none twice; and so are the
occurrences.  A call lies in such a statement if its node is below it, as is that of each call that
a span meets. -/
theorem engineCallsIn_spec (d : Document) (spans : List Span) :
    (∀ s, d.IsNearest s (d.nearest s).1) ∧
    (d.engineCallsIn spans = d.engineCalls.filter fun c =>
      ∃ s ∈ spans, (d.nearest s).1.span.Encloses c.callSpan) ∧
    (d.occurrencesIn spans = d.occurrences.filter fun o =>
      ∃ s ∈ spans, (d.nearest s).1.span.Encloses o.span) ∧
    d.engineCalls.Pairwise (fun a b => a.callSpan.start < b.callSpan.start) ∧
    (∀ scope n c, (scope, n) ∈ d.root.withScopes d.text Node.moduleScope →
      ofNode? d.text scope n = some c → ∀ s,
        ((d.nearest s).1.span.Encloses c.callSpan ↔ n ∈ (d.nearest s).1.descendants)) ∧
    ∀ c ∈ d.engineCalls, ∀ s ∈ spans, s.Meets c.callSpan →
      c ∈ d.engineCallsIn spans ∧ Occurrence.ofCall d.text c ⊆ d.occurrencesIn spans := by
  refine ⟨d.isNearest_nearest, d.engineCallsIn_eq_filter spans, d.occurrencesIn_eq_filter spans,
    d.pairwise_start, fun scope n c hn hc s => ?_, fun c hc s hs hm => ?_⟩
  · have hmem := (d.isNearest_nearest s).mem
    have hpn := (Node.placed_of_mem_descendants d.isPlaced_root hmem).1
    obtain ⟨hsn, hp⟩ := shaped_placed_of_mem_withScopes hn
    obtain ⟨-, _, -, -, hstatement, hpath⟩ := d.nearest_spec s
    have hwide := (start_lt_of_ofNode? hsn hp hc).1
    rw [callSpan_of_ofNode? hc]
    refine ⟨fun hin => ?_, fun hin => (Node.placed_of_mem_descendants hpn hin).2⟩
    exact Node.mem_descendants_of_mem_withScopes
      (mem_withScopes_of_overlap hpath hstatement hn (ofNode?_cases hsn hc).1
        (Nat.lt_of_le_of_lt hin.1 hwide) (Nat.lt_of_lt_of_le hwide hin.2))
  · have hin := mem_engineCallsIn_iff.2 ⟨hc, s, hs, encloses_of_meets hc hm⟩
    exact ⟨hin, fun o ho => List.mem_flatMap.2 ⟨c, hin, ho⟩⟩

/-- A function of two statements with a call each, and a call behind it. -/
def threeCalls : Document := .ofText "u:a"
  ("def f():\n    x = KSR.pv.get('$var(a)')\n    KSR.pv.get('$var(b)')\n" ++
    "KSR.pv.get('$var(c)')\n").toList 1

/-- The second call is the one found around spans that it holds, however often. -/
theorem engineCallsIn_secondStatement :
    (threeCalls.engineCallsIn [⟨45, 60⟩, ⟨43, 43⟩, ⟨43, 43⟩]).map (·.content) =
      ["$var(b)".toList] ∧
    ∃ c ∈ threeCalls.engineCalls, c.content = "$var(b)".toList ∧ c.scope = "f" ∧
      Span.Meets ⟨43, 43⟩ c.callSpan ∧
      c ∈ threeCalls.engineCallsIn [⟨45, 60⟩, ⟨43, 43⟩, ⟨43, 43⟩] := by
  have hfound : threeCalls.engineCalls.map (fun c => (c.content, c.scope, c.callSpan)) =
      [("$var(a)".toList, "f", ⟨17, 38⟩), ("$var(b)".toList, "f", ⟨43, 64⟩),
        ("$var(c)".toList, "<module>", ⟨65, 86⟩)] := by
    decide +kernel
  have hmem : ("$var(b)".toList, "f", ⟨43, 64⟩) ∈
      threeCalls.engineCalls.map (fun c => (c.content, c.scope, c.callSpan)) := by
    rw [hfound]
    exact List.mem_cons_of_mem _ List.mem_cons_self
  obtain ⟨c, hc, heq⟩ := List.mem_map.1 hmem
  obtain ⟨hcontent, hscope, hspan⟩ : c.content = "$var(b)".toList ∧ c.scope = "f" ∧
      c.callSpan = ⟨43, 64⟩ := by
    simpa only [Prod.mk.injEq] using heq
  have hmeets : Span.Meets ⟨43, 43⟩ c.callSpan := by
    rw [hspan]
    exact ⟨43, .inl rfl, by decide⟩
  obtain ⟨-, hfilter, -, -, -, hcomplete⟩ :=
    engineCallsIn_spec threeCalls [⟨45, 60⟩, ⟨43, 43⟩, ⟨43, 43⟩]
  refine ⟨?_, c, hc, hcontent, hscope, hmeets, ?_⟩
  · rw [hfilter]
    decide +kernel
  · exact (hcomplete c hc ⟨43, 43⟩ (by decide) hmeets).1

end Document

end RouteScript
