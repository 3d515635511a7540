import Mathlib.Data.List.Forall2
import RouteScript.Proofs.EngineCalls

/-!
# Calls with a literal in front

A call of the routing engine is listed if its function is the chain `KSR.module.method` and what its
arguments start with is one string literal.  Keyword arguments, unpacked ones, literals in parentheses
and literals in a row are nodes of their own, so a literal in front of a list of arguments is a
positional argument by itself.  But a call may be given one generator without parentheses around it,
and what that starts with is no argument.

* `IsLiteral`, `Tells`: the shapes of a listed call, and what is told of it.
* `bodySpan?_eq_some_iff`, `ofNode?_eq_some_iff`: which nodes are read as calls.
* `engineCalls_exact_iff`: the calls of a document are those with a literal as their first argument if
  and only if none is given a generator of literals; `not_listsExactly_generator` is such a document.
-/

namespace RouteScript

open Python (Node Token Kind)

namespace EngineCall

/-! ### The shapes -/

/-- The node is one string literal, and `body` is what stands between its quotation marks: the tokens
that open and close it. -/
structure IsLiteral (ts : List Token) (n : Node) (body : Span) : Prop where
  kind : n.kind = .string
  parts : ∃ opening ∈ ts, ∃ closing ∈ ts, opening.kind = .stringStart ∧ closing.kind = .stringEnd ∧
    body = ⟨opening.span.stop, closing.span.start⟩ ∧
    ∃ first parts last, n.children = first :: (parts ++ [last]) ∧
      first.kind = .stringStart ∧ first.span = opening.span ∧
      last.kind = .stringEnd ∧ last.span = closing.span ∧ ∀ part ∈ parts, part.kind.isPart = true

/-- The node is a call of a chain with a literal in front of its arguments, which are a node of the
given kind, and `call` tells of it. -/
structure Tells (t : Text) (arguments : Kind) (n : Node) (call : EngineCall) : Prop where
  kind : n.kind = .call
  parts : ∃ function given literal others, n.children = [function, given] ∧
    IsChain t function call.module call.method ∧ given.kind = arguments ∧
    given.children = literal :: others ∧ IsLiteral (Python.tokens t) literal call.contentSpan
  content : call.content = t.slice call.contentSpan
  callSpan : call.callSpan = n.span

/-- The arguments of a call are of one kind. -/
theorem Tells.kind_eq {t : Text} {kind kind' : Kind} {n : Node} {call call' : EngineCall}
    (h : Tells t kind n call) (h' : Tells t kind' n call') : kind = kind' := by
  obtain ⟨_, _, _, _, hc, -, hkind, -⟩ := h.parts
  obtain ⟨_, _, _, _, hc', -, hkind', -⟩ := h'.parts
  cases hc.symm.trans hc'
  exact hkind.symm.trans hkind'

/-! ### What is read -/

section Reading

variable {ts : List Token} {t : Text} {n : Node}

/-- The body of a literal is what stands between the tokens that open and close it. -/
theorem bodySpan?_eq_some_iff {body : Span} (hs : ∀ k ∈ n.descendants, k.Shaped ts)
    (hp : n.isPlaced t = true) (hk : n.kind = .string) :
    bodySpan? n = some body ↔ IsLiteral ts n body := by
  obtain ⟨first, parts, last, hc, hfirst, hlast, hparts, hopening, hclosing⟩ :=
    literal_children (hs n n.mem_descendants_self) hk
  -- the parts follow one another, so the literal is closed behind where it was opened
  have hle : first.span.stop ≤ last.span.start := by
    have horder := (Node.isPlaced_iff.1 hp).2.2
    rw [hc] at horder
    obtain ⟨-, -, horder⟩ := Node.inOrder_cons.1 horder
    exact Node.le_of_inOrder (Node.inOrder_append horder).1
  have hbody : bodySpan? n = some ⟨first.span.stop, last.span.start⟩ := by
    rw [bodySpan?, hopening, hclosing]
    simp [hle]
  rw [hbody, Option.some.injEq]
  constructor
  · rintro rfl
    have hopen := shaped_below hs (by simp [hc] : first ∈ n.children) first first.mem_descendants_self
    have hclose := shaped_below hs (by simp [hc] : last ∈ n.children) last last.mem_descendants_self
    rw [Node.Shaped, hfirst] at hopen
    rw [Node.Shaped, hlast] at hclose
    obtain ⟨-, opening, ho, hok, hos⟩ := hopen
    obtain ⟨-, closing, hcl, hclk, hcls⟩ := hclose
    exact ⟨hk, opening, ho, closing, hcl, hok, hclk, by rw [hos, hcls], first, parts, last, hc, hfirst,
      hos.symm, hlast, hcls.symm, hparts⟩
  · rintro ⟨-, opening, -, closing, -, -, -, rfl, first', parts', last', hc', -, hos, -, hcls, -⟩
    obtain ⟨rfl, hrest⟩ := List.cons.inj (hc.symm.trans hc')
    obtain ⟨-, hlast'⟩ := List.append_inj' hrest rfl
    rw [← hos, ← hcls, List.singleton_inj.1 hlast']

/-- A node is read as a call just if it is one of a chain with a literal in front of its arguments. -/
theorem ofNode?_eq_some_iff {scope : String} {call : EngineCall}
    (hs : ∀ k ∈ n.descendants, k.Shaped (Python.tokens t)) (hp : n.isPlaced t = true) :
    ofNode? t scope n = some call ↔ call.scope = scope ∧
      ∃ arguments : Kind, arguments.isArguments = true ∧ Tells t arguments n call := by
  have hliteral : ∀ {arguments literal : Node} {others : List Node} {body : Span},
      arguments ∈ n.children → arguments.children = literal :: others → literal.kind = .string →
      (bodySpan? literal = some body ↔ IsLiteral (Python.tokens t) literal body) := by
    intro arguments literal others body harguments hc hk
    have hmem : literal ∈ n.descendants :=
      Node.descendants_trans (Node.mem_descendants_of_mem_children harguments)
        (Node.mem_descendants_of_mem_children (by simp [hc]))
    exact bodySpan?_eq_some_iff (fun k hk => hs k (Node.descendants_trans hmem hk))
      (Node.placed_of_mem_descendants hp hmem).1 hk
  constructor
  · intro h
    obtain ⟨hk, hscope, hspan, hcontent, function, arguments, literal, others, hc, hchain, hkind,
      hothers, hstring, hbody⟩ := ofNode?_cases hs h
    have hmem : arguments ∈ n.children := by simp [hc]
    exact ⟨hscope, arguments.kind, hkind, hk, ⟨function, arguments, literal, others, hc, hchain, rfl,
      hothers, (hliteral hmem hothers hstring).1 hbody⟩, hcontent, hspan⟩
  · rintro ⟨rfl, kind, -, hk, ⟨function, arguments, literal, others, hc, hchain, -, hothers, hbody⟩,
      hcontent, hspan⟩
    obtain ⟨hmethod, harguments⟩ := (method?_eq_some_iff hs).2 ⟨hk, function, hc, hchain⟩
    have hmem : arguments ∈ n.children := by simp [hc]
    have hfirst : firstString? n = some call.contentSpan := by
      simp only [firstString?, harguments, hothers, List.head?_cons, hbody.kind, Option.bind_eq_bind,
        Option.bind_some, (hliteral hmem hothers hbody.kind).2 hbody]
      rfl
    simp only [ofNode?, hmethod, hfirst, Option.bind_eq_bind, Option.bind_some, ← hcontent, ← hspan]

end Reading

end EngineCall

namespace Document

open EngineCall
open scoped Classical in
/-- The calls of the document are those that the relation tells of its nodes, node for node in document
order. -/
def ListsExactly (d : Document) (tells : Node → EngineCall → Prop) : Prop :=
  List.Forall₂ tells (d.root.descendants.filter fun n => ∃ call, tells n call) d.engineCalls

/-- Calls are listed by a relation that tells of every node what is read of it, and of no other. -/
theorem listsExactly_of_ofNode? {d : Document} {tells : Node → EngineCall → Prop}
    (sound : ∀ n ∈ d.root.descendants, ∀ scope call, ofNode? d.text scope n = some call →
      tells n call)
    (complete : ∀ n ∈ d.root.descendants, ∀ scope call, tells n call →
      (ofNode? d.text scope n).isSome) : d.ListsExactly tells := by
  classical
  have hmem : ∀ p ∈ d.root.withScopes d.text Node.moduleScope, p.2 ∈ d.root.descendants :=
    fun _ => Node.mem_descendants_of_mem_withScopes
  rw [ListsExactly, engineCalls, below, ← Node.map_withScopes d.text Node.moduleScope]
  generalize d.root.withScopes d.text Node.moduleScope = nodes at hmem ⊢
  induction nodes with
  | nil => exact .nil
  | cons p rest ih =>
    have ih := ih fun q hq => hmem q (List.mem_cons_of_mem _ hq)
    obtain ⟨scope, n⟩ := p
    have hn : n ∈ d.root.descendants := hmem _ List.mem_cons_self
    cases hread : ofNode? d.text scope n with
    | none =>
      have hnone : ¬ ∃ call, tells n call := fun ⟨call, hcall⟩ => by
        simpa [hread] using complete n hn scope call hcall
      rw [List.map_cons, List.filter_cons_of_neg (by simpa using hnone), List.filterMap_cons]
      simpa only [hread] using ih
    | some call =>
      have hcall := sound n hn scope call hread
      rw [List.map_cons, List.filter_cons_of_pos (by simpa using ⟨call, hcall⟩),
        List.filterMap_cons]
      simpa only [hread] using .cons hcall ih

section Nodes

variable {d : Document} {n : Node} {scope : String} {call : EngineCall}

/-- What is read of a node is told of it, for arguments of one kind or the other. -/
theorem tells_of_ofNode? (hn : n ∈ d.root.descendants) (h : ofNode? d.text scope n = some call) :
    Tells d.text .argumentList n call ∨ Tells d.text .generatorExpression n call := by
  obtain ⟨hs, hp⟩ := shaped_placed_of_mem hn
  obtain ⟨-, kind, hkind, htells⟩ := (ofNode?_eq_some_iff hs hp).1 h
  rcases Kind.isArguments_iff.1 hkind with rfl | rfl
  · exact .inl htells
  · exact .inr htells

/-- A node of which something is told is read as a call in any scope. -/
theorem isSome_of_tells {kind : Kind} (hn : n ∈ d.root.descendants) (hkind : kind.isArguments = true)
    (h : Tells d.text kind n call) : (ofNode? d.text scope n).isSome := by
  obtain ⟨hs, hp⟩ := shaped_placed_of_mem hn
  have htells : Tells d.text kind n { call with scope } := ⟨h.kind, h.parts, h.content, h.callSpan⟩
  exact Option.isSome_of_eq_some ((ofNode?_eq_some_iff hs hp).2 ⟨rfl, kind, hkind, htells⟩)

end Nodes

/-- **Calls with a literal in front.**  The calls of a document are those whose arguments start with a
literal, where the arguments are a list or a generator.  So they are those with a literal as their
first argument if and only if no call is given a generator that starts with one. -/
theorem engineCalls_exact_iff (d : Document) :
    (d.ListsExactly fun n call =>
      Tells d.text .argumentList n call ∨ Tells d.text .generatorExpression n call) ∧
    (d.ListsExactly (Tells d.text .argumentList) ↔
      ∀ n ∈ d.root.descendants, ∀ call, ¬ Tells d.text .generatorExpression n call) := by
  classical
  have hlisted := listsExactly_of_ofNode? (d := d) (fun n hn scope call => tells_of_ofNode? hn)
    fun n hn scope call h => h.elim (isSome_of_tells hn rfl) (isSome_of_tells hn rfl)
  refine ⟨hlisted, fun hlists n hn call htells => ?_, fun hnone => ?_⟩
  · -- both lists of nodes are as long as that of the calls, and one is part of the other
    have hsub := List.monotone_filter_right d.root.descendants
      (p := fun n => ∃ call, Tells d.text .argumentList n call)
      (q := fun n => ∃ call, Tells d.text .argumentList n call ∨
        Tells d.text .generatorExpression n call)
      (by simpa using fun n call h => ⟨call, .inl h⟩)
    have heq := hsub.eq_of_length (hlists.length_eq.trans hlisted.length_eq.symm)
    have hmem : n ∈ d.root.descendants.filter fun n => ∃ call, Tells d.text .argumentList n call := by
      rw [heq]
      exact List.mem_filter.2 ⟨hn, decide_eq_true ⟨call, .inr htells⟩⟩
    obtain ⟨call', htells'⟩ := of_decide_eq_true (List.mem_filter.1 hmem).2
    cases htells.kind_eq htells'
  · refine listsExactly_of_ofNode? (fun n hn scope call h => ?_) fun n hn scope call =>
      isSome_of_tells hn rfl
    exact (tells_of_ofNode? hn h).resolve_right (hnone n hn call)

/-- The one call is given no list of arguments, but its literal is listed. -/
theorem not_listsExactly_generator :
    let d := Document.ofText "file:///route.py" "KSR.pv.get(\"$ru\" for x in y)\n".toList 0
    ¬ d.ListsExactly (Tells d.text .argumentList) := by
  intro d hlists
  have hkinds : ∀ n ∈ d.root.descendants, n.kind ≠ .argumentList := by decide +kernel
  have hcalls : d.engineCalls ≠ [] := by decide +kernel
  obtain ⟨call, rest, hc⟩ := List.exists_cons_of_ne_nil hcalls
  rw [ListsExactly, hc] at hlists
  obtain ⟨n, _, ⟨-, ⟨_, given, _, _, hparts, -, hkind, -⟩, -, -⟩, -, hnodes⟩ :=
    List.forall₂_cons_right_iff.1 hlists
  have hn : n ∈ d.root.descendants := List.mem_of_mem_filter (by rw [hnodes]; exact List.mem_cons_self)
  have hgiven := Node.mem_descendants_of_mem_children (by simp [hparts] : given ∈ n.children)
  exact hkinds given (Node.descendants_trans hn hgiven) hkind

end Document

end RouteScript
