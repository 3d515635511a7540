import Mathlib.Data.Option.Basic
import RouteScript.Proofs.Lexing
import RouteScript.Proofs.Shape
import RouteScript.Script.EngineCall

/-!
# Where the literals of calls stand

Of two calls of the routing engine in a module, the one that comes first has its literal in front of
that of the other, or around it.  The second happens where the literal is formatted and the other
call is part of one of its interpolations; nothing else of a call can hold another call in front of
the literal, since the function is a name with dots.  In a text that is no module, calls come in
document order, too, each in front of those that are part of it, wherever their literals are.

* `cut_of_mem_engineCalls`, `pairwise_callSpan`: literals and calls of any document.
* `quoted_of_mem_engineCalls`: the literal of a call stands in the text, behind a quotation mark.
* `pairwise_contentSpan`, `pairwise_engineCalls`: the literals follow one another or lie in one
  another.
* `content_of_encloses`: what a literal in a literal is a part of.
-/

namespace RouteScript

open Python (Node Token)

namespace EngineCall

/-! ### The parts of a call -/

/-- The node is the name `module` of the engine with the name `method` behind it: `KSR.module.method`,
where `KSR` is an identifier by itself. -/
structure IsChain (t : Text) (n : Node) (module method : String) : Prop where
  kind : n.kind = .attribute
  parts : ∃ owner name, n.children = [owner, name] ∧ name.kind = .identifier ∧
    name.textIn t = method ∧ owner.kind = .attribute ∧
    ∃ root name', owner.children = [root, name'] ∧ name'.kind = .identifier ∧
      name'.textIn t = module ∧ root.kind = .identifier ∧ root.textIn t = engine

section Parts

variable {ts : List Token} {t : Text} {n : Node}

theorem shaped_below {m : Node} (hs : ∀ k ∈ n.descendants, k.Shaped ts) (hm : m ∈ n.children) :
    ∀ k ∈ m.descendants, k.Shaped ts :=
  fun k hk => hs k (Node.descendants_trans (Node.mem_descendants_of_mem_children hm) hk)

theorem descendants_of_leaf (hs : n.Shaped ts)
    (hk : n.kind = .identifier ∨ n.kind = .stringStart ∨ n.kind = .stringEnd) :
    n.descendants = [n] := by
  have hc : n.children = [] := by
    rw [Node.Shaped] at hs
    rcases hk with hk | hk | hk <;> rw [hk] at hs <;> exact hs.1
  rw [Node.descendants_eq, hc]
  rfl

/-- An attribute is an object and an identifier. -/
theorem attribute_children (hs : n.Shaped ts) (hk : n.kind = .attribute) :
    ∃ object name, n.children = [object, name] ∧ n.child? .object = some object ∧
      n.child? .attribute = some name ∧ name.kind = .identifier := by
  rw [Node.Shaped, hk] at hs
  obtain ⟨object, name, hc, hobject, hname, hattribute⟩ := hs
  refine ⟨object, name, hc, ?_, ?_, hname⟩
  · rw [Node.child?, hc, List.find?_cons_of_pos (by rw [hobject]; rfl)]
  · rw [Node.child?, hc, List.find?_cons_of_neg (by rw [hobject]; decide),
      List.find?_cons_of_pos (by rw [hattribute]; rfl)]

/-- A call is a function and a list of arguments or a generator. -/
theorem call_children (hs : n.Shaped ts) (hk : n.kind = .call) :
    ∃ function arguments, n.children = [function, arguments] ∧
      n.child? .function = some function ∧ n.child? .arguments = some arguments ∧
      arguments.kind.isArguments = true := by
  rw [Node.Shaped, hk] at hs
  obtain ⟨function, arguments, hc, hfunction, harguments, hkind⟩ := hs
  refine ⟨function, arguments, hc, ?_, ?_, hkind⟩
  · rw [Node.child?, hc, List.find?_cons_of_pos (by rw [hfunction]; rfl)]
  · rw [Node.child?, hc, List.find?_cons_of_neg (by rw [hfunction]; decide),
      List.find?_cons_of_pos (by rw [harguments]; rfl)]

/-- Where no call is part of the object of an attribute, none is part of the attribute. -/
theorem kind_ne_call_of_attribute {owner : Node} (hs : ∀ k ∈ n.descendants, k.Shaped ts)
    (hk : n.kind = .attribute) (h : n.child? .object = some owner)
    (ho : ∀ k ∈ owner.descendants, k.kind ≠ .call) : ∀ k ∈ n.descendants, k.kind ≠ .call := by
  obtain ⟨object, name, hc, hobject, -, hname⟩ := attribute_children (hs n n.mem_descendants_self) hk
  obtain rfl : object = owner := Option.some.inj (hobject.symm.trans h)
  have hleaf := descendants_of_leaf (shaped_below hs (by simp [hc] : name ∈ n.children) name
    name.mem_descendants_self) (.inl hname)
  intro k hm
  rw [Node.descendants_eq, hc, Node.descendantsOf, Node.descendantsOf, Node.descendantsOf,
    hleaf] at hm
  rcases List.mem_cons.1 hm with rfl | hm
  · rw [hk]
    decide
  · rcases List.mem_append.1 hm with hm | hm
    · exact ho k hm
    · rw [List.mem_singleton.1 hm, hname]
      decide

/-- The chain is a name with dots, so no call is part of it. -/
theorem IsChain.kind_ne_call {module method : String} (h : IsChain t n module method)
    (hs : ∀ k ∈ n.descendants, k.Shaped ts) : ∀ k ∈ n.descendants, k.kind ≠ .call := by
  obtain ⟨owner, name, hc, -, -, howned, root, name', hc', -, -, hroot, -⟩ := h.parts
  have hs₁ := shaped_below hs (by simp [hc] : owner ∈ n.children)
  have hs₂ := shaped_below hs₁ (by simp [hc'] : root ∈ owner.children)
  obtain ⟨_, _, hd, hobject, -⟩ := attribute_children (hs n n.mem_descendants_self) h.kind
  obtain ⟨_, _, hd', hobject', -⟩ := attribute_children (hs₁ owner owner.mem_descendants_self) howned
  cases hc.symm.trans hd
  cases hc'.symm.trans hd'
  refine kind_ne_call_of_attribute hs h.kind hobject ?_
  refine kind_ne_call_of_attribute hs₁ howned hobject' ?_
  intro k hk
  rw [descendants_of_leaf (hs₂ root root.mem_descendants_self) (.inl hroot)] at hk
  rw [List.mem_singleton.1 hk, hroot]
  decide

/-- Module and method are those of the chain in front of the arguments. -/
theorem method?_eq_some_iff {module method : String} {arguments : Node}
    (hs : ∀ k ∈ n.descendants, k.Shaped ts) :
    method? t n = some (module, method) ∧ n.child? .arguments = some arguments ↔
      n.kind = .call ∧ ∃ function, n.children = [function, arguments] ∧
        IsChain t function module method := by
  simp only [method?, Option.bind_eq_bind, Option.bind_eq_some_iff, Option.guard_eq_some',
    exists_const, beq_iff_eq, Bool.and_eq_true, Option.some.injEq, Prod.mk.injEq]
  constructor
  · rintro ⟨⟨hcall, function, hfunction, hkind, name, hname, owner, howner, hkind', root, hroot,
      name', hname', ⟨hroot', hengine⟩, rfl, rfl⟩, harguments⟩
    obtain ⟨_, _, hc, hfirst, hsecond, -⟩ := call_children (hs n n.mem_descendants_self) hcall
    cases hfirst.symm.trans hfunction
    cases hsecond.symm.trans harguments
    have hs₁ := shaped_below hs (List.mem_of_find?_eq_some hfunction)
    obtain ⟨_, _, hc₁, hobject, hattribute, hidentifier⟩ :=
      attribute_children (hs₁ function function.mem_descendants_self) hkind
    cases hobject.symm.trans howner
    cases hattribute.symm.trans hname
    have hs₂ := shaped_below hs₁ (List.mem_of_find?_eq_some howner)
    obtain ⟨_, _, hc₂, hobject', hattribute', hidentifier'⟩ :=
      attribute_children (hs₂ owner owner.mem_descendants_self) hkind'
    cases hobject'.symm.trans hroot
    cases hattribute'.symm.trans hname'
    exact ⟨hcall, function, hc, hkind, owner, name, hc₁, hidentifier, rfl, hkind', root, name', hc₂,
      hidentifier', rfl, hroot', hengine⟩
  · rintro ⟨hcall, function, hc, hkind, owner, name, hc₁, -, hmethod, hkind', root, name', hc₂, -,
      hmodule, hroot, hengine⟩
    have hs₁ := shaped_below hs (by simp [hc] : function ∈ n.children)
    have hs₂ := shaped_below hs₁ (by simp [hc₁] : owner ∈ function.children)
    obtain ⟨_, _, hc', hfirst, hsecond, -⟩ := call_children (hs n n.mem_descendants_self) hcall
    obtain ⟨_, _, hc₁', hobject, hattribute, -⟩ :=
      attribute_children (hs₁ function function.mem_descendants_self) hkind
    obtain ⟨_, _, hc₂', hobject', hattribute', -⟩ :=
      attribute_children (hs₂ owner owner.mem_descendants_self) hkind'
    cases hc.symm.trans hc'
    cases hc₁.symm.trans hc₁'
    cases hc₂.symm.trans hc₂'
    exact ⟨⟨hcall, function, hfirst, hkind, name, hattribute, owner, hobject, hkind', root, hobject',
      name', hattribute', ⟨hroot, hengine⟩, hmodule, hmethod⟩, hsecond⟩

/-- What opens a literal is its first part, and what closes it the last. -/
theorem literal_children (hs : n.Shaped ts) (hk : n.kind = .string) :
    ∃ first parts last, n.children = first :: (parts ++ [last]) ∧ first.kind = .stringStart ∧
      last.kind = .stringEnd ∧ (∀ part ∈ parts, part.kind.isPart = true) ∧
      n.children.reverse.find? (·.kind == .stringStart) = some first ∧
      n.children.reverse.find? (·.kind == .stringEnd) = some last := by
  rw [Node.Shaped, hk] at hs
  obtain ⟨first, parts, last, hc, hfirst, hlast, hparts⟩ := hs
  have hreverse : n.children.reverse = last :: (parts.reverse ++ [first]) := by simp [hc]
  have hnone : parts.reverse.find? (·.kind == .stringStart) = none := by
    refine List.find?_eq_none.2 fun part hpart hstart => ?_
    have hpart := hparts part (List.mem_reverse.1 hpart)
    rw [beq_iff_eq.1 hstart] at hpart
    cases hpart
  refine ⟨first, parts, last, hc, hfirst, hlast, hparts, ?_, ?_⟩
  · rw [hreverse, List.find?_cons_of_neg (by rw [hlast]; decide), List.find?_append, hnone,
      List.find?_cons_of_pos (by rw [hfirst]; rfl)]
    rfl
  · rw [hreverse, List.find?_cons_of_pos (by rw [hlast]; rfl)]

/-- The body of a literal begins behind its first part and ends with the last. -/
theorem bodySpan?_cases {body : Span} (hs : n.Shaped ts) (hk : n.kind = .string)
    (h : bodySpan? n = some body) : ∃ opening parts closing,
      n.children = opening :: (parts ++ [closing]) ∧ opening.kind = .stringStart ∧
      closing.kind = .stringEnd ∧ body = ⟨opening.span.stop, closing.span.start⟩ := by
  obtain ⟨first, parts, last, hc, hfirst, hlast, -, hopening, hclosing⟩ := literal_children hs hk
  simp only [bodySpan?, hopening, hclosing, Option.bind_eq_bind, Option.bind_some,
    Option.bind_eq_some_iff, Option.guard_eq_some', exists_const] at h
  obtain ⟨-, hbody⟩ := h
  exact ⟨first, parts, last, hc, hfirst, hlast, (Option.some.inj hbody).symm⟩

/-- A call of the routing engine is a chain and a literal in front of the other arguments. -/
theorem ofNode?_cases {scope : String} {call : EngineCall} (hs : ∀ k ∈ n.descendants, k.Shaped ts)
    (h : ofNode? t scope n = some call) :
    n.kind = .call ∧ call.scope = scope ∧ call.callSpan = n.span ∧
      call.content = t.slice call.contentSpan ∧
      ∃ function arguments literal others, n.children = [function, arguments] ∧
      IsChain t function call.module call.method ∧ arguments.kind.isArguments = true ∧
      arguments.children = literal :: others ∧ literal.kind = .string ∧
      bodySpan? literal = some call.contentSpan := by
  obtain ⟨⟨module, method⟩, hmethod, h⟩ := Option.bind_eq_some_iff.1 h
  obtain ⟨body, hbody, h⟩ := Option.bind_eq_some_iff.1 h
  cases h
  simp only [firstString?, Option.bind_eq_bind, Option.bind_eq_some_iff, Option.guard_eq_some',
    exists_const, beq_iff_eq] at hbody
  obtain ⟨arguments, harguments, literal, hliteral, hstring, hbody⟩ := hbody
  obtain ⟨hcall, function, hc, hchain⟩ := (method?_eq_some_iff hs).1 ⟨hmethod, harguments⟩
  obtain ⟨_, _, hd, -, -, hkind⟩ := call_children (hs n n.mem_descendants_self) hcall
  cases hc.symm.trans hd
  obtain ⟨others, hothers⟩ := List.head?_eq_some_iff.1 hliteral
  exact ⟨hcall, rfl, rfl, rfl, function, arguments, literal, others, hc, hchain, hkind, hothers,
    hstring, hbody⟩

end Parts

/-! ### Where the literals stand -/

section Places

variable {ts : List Token} {t : Text} {n : Node} {scope : String} {call : EngineCall}

/-- A call tells its place and its literal, whatever the shapes of its parts. -/
theorem exists_bodySpan? (h : ofNode? t scope n = some call) :
    call.callSpan = n.span ∧ call.content = t.slice call.contentSpan ∧
      ∃ literal ∈ n.descendants, bodySpan? literal = some call.contentSpan := by
  simp only [ofNode?, firstString?, Option.bind_eq_bind, Option.bind_eq_some_iff,
    Option.guard_eq_some', exists_const] at h
  obtain ⟨_, -, body, ⟨arguments, harguments, literal, hliteral, -, hbody⟩, h⟩ := h
  cases h
  refine ⟨rfl, rfl, literal, ?_, hbody⟩
  exact Node.descendants_trans
    (Node.mem_descendants_of_mem_children (List.mem_of_find?_eq_some harguments))
    (Node.mem_descendants_of_mem_children (List.mem_of_mem_head? hliteral))

/-- The literal of a call is cut out of the text. -/
theorem exists_cut (hp : n.isPlaced t = true) (h : ofNode? t scope n = some call) :
    ∃ front rest, t = front ++ (call.content ++ rest) ∧
      call.contentSpan.start = Text.bytes front ∧
      call.contentSpan.stop = Text.bytes (front ++ call.content) := by
  obtain ⟨-, hcontent, literal, hmem, hbody⟩ := exists_bodySpan? h
  simp only [bodySpan?, Option.bind_eq_bind, Option.bind_eq_some_iff, Option.guard_eq_some',
    exists_const, Option.some.injEq] at hbody
  obtain ⟨opening, hopening, closing, hclosing, hle, hspan⟩ := hbody
  have placed : ∀ {part : Node} {kind : Python.Kind},
      literal.children.reverse.find? (·.kind == kind) = some part → part.isPlaced t = true := by
    intro part kind hpart
    have hchild := List.mem_reverse.1 (List.mem_of_find?_eq_some hpart)
    exact (Node.placed_of_mem_descendants hp
      (Node.descendants_trans hmem (Node.mem_descendants_of_mem_children hchild))).1
  obtain ⟨front, rest, ht, hstart⟩ :=
    Text.isBoundary_iff.1 (Node.isPlaced_iff.1 (placed hopening)).2.1
  obtain ⟨front', rest', ht', hstop⟩ :=
    Text.isBoundary_iff.1 (Node.isPlaced_iff.1 (placed hclosing)).1
  rw [← hstart, ← hstop] at hle hspan
  obtain ⟨body, rfl, rfl⟩ := Text.exists_append_of_bytes_le (ht.symm.trans ht') hle
  have hslice : call.content = body := by
    rw [hcontent, ← hspan, ht, Text.slice_append_append]
  rw [hslice, ← hspan]
  exact ⟨front, rest', ht, rfl, rfl⟩

theorem start_le_stop (hp : n.isPlaced t = true) (h : ofNode? t scope n = some call) :
    call.contentSpan.start ≤ call.contentSpan.stop := by
  obtain ⟨front, rest, -, hstart, hstop⟩ := exists_cut hp h
  rw [hstart, hstop, Text.bytes_append]
  exact Nat.le_add_right ..

/-- A quotation mark is not empty. -/
theorem start_lt_of_quote (hs : n.Shaped (Python.tokens t))
    (hk : n.kind = .stringStart ∨ n.kind = .stringEnd) : n.span.start < n.span.stop := by
  rw [Node.Shaped] at hs
  rcases hk with hk | hk <;> rw [hk] at hs <;> obtain ⟨-, token, htoken, hkind, hspan⟩ := hs <;>
    rw [← hspan] <;> refine Python.size_pos_of_mem_tokens htoken ?_ ?_ <;>
    simp [Python.Layout.IsMark, hkind]

/-- The body of a literal lies between its quotation marks. -/
theorem bodySpan?_within {body : Span} (hs : ∀ k ∈ n.descendants, k.Shaped (Python.tokens t))
    (hk : n.kind = .string) (hp : n.isPlaced t = true) (h : bodySpan? n = some body) :
    n.span.start < body.start ∧ body.stop < n.span.stop := by
  obtain ⟨opening, parts, closing, hc, hopening, hclosing, rfl⟩ :=
    bodySpan?_cases (hs n n.mem_descendants_self) hk h
  have mark : ∀ {k : Node}, k ∈ n.children → (k.kind = .stringStart ∨ k.kind = .stringEnd) →
      k.span.start < k.span.stop ∧ n.span.Encloses k.span := by
    intro k hk hkind
    exact ⟨start_lt_of_quote (shaped_below hs hk k k.mem_descendants_self) hkind,
      (Node.placed_of_mem_descendants hp (Node.mem_descendants_of_mem_children hk)).2⟩
  obtain ⟨hwide, hlow, -⟩ := mark (by simp [hc] : opening ∈ n.children) (.inl hopening)
  obtain ⟨hwide', -, hhigh⟩ := mark (by simp [hc] : closing ∈ n.children) (.inr hclosing)
  exact ⟨Nat.lt_of_le_of_lt hlow hwide, Nat.lt_of_lt_of_le hwide' hhigh⟩

/-- A call in a literal stands in its body. -/
theorem body_encloses_call {body : Span} {m : Node} (hs : ∀ k ∈ n.descendants, k.Shaped ts)
    (hk : n.kind = .string) (hp : n.isPlaced t = true) (h : bodySpan? n = some body)
    (hm : m ∈ Node.descendantsOf n.children) (hcall : m.kind = .call) :
    body.Encloses m.span := by
  obtain ⟨opening, parts, closing, hc, hopening, hclosing, rfl⟩ :=
    bodySpan?_cases (hs n n.mem_descendants_self) hk h
  have leaf : ∀ {k : Node}, k ∈ n.children → (k.kind = .stringStart ∨ k.kind = .stringEnd) →
      m ∉ k.descendants := by
    intro k hk hkind hmk
    rw [descendants_of_leaf (shaped_below hs hk k k.mem_descendants_self) (.inr hkind)] at hmk
    rw [← List.mem_singleton.1 hmk, hcall] at hkind
    rcases hkind with h | h <;> cases h
  have hplaced := (Node.isPlaced_iff.1 hp).2.2
  rw [hc] at hplaced hm leaf
  obtain ⟨-, -, hplaced⟩ := Node.inOrder_cons.1 hplaced
  have hparts := (Node.inOrder_append hplaced).1
  rw [Node.descendantsOf, Node.descendantsOf_append, Node.descendantsOf, Node.descendantsOf,
    List.append_nil] at hm
  rcases List.mem_append.1 hm with hm | hm
  · exact absurd hm (leaf List.mem_cons_self (.inl hopening))
  rcases List.mem_append.1 hm with hm | hm
  · exact (Node.placed_of_mem_descendantsOf hparts hm).2
  · exact absurd hm (leaf (by simp) (.inr hclosing))

/-- The literal of a call, below the call and well placed. -/
theorem exists_literal (hs : ∀ k ∈ n.descendants, k.Shaped ts) (hp : n.isPlaced t = true)
    (h : ofNode? t scope n = some call) : ∃ literal ∈ n.descendants, literal.kind = .string ∧
      literal.isPlaced t = true ∧ n.span.Encloses literal.span ∧
      bodySpan? literal = some call.contentSpan := by
  obtain ⟨-, -, -, -, function, arguments, literal, others, hc, -, -, ha, hliteral, hbody⟩ :=
    ofNode?_cases hs h
  have harguments : arguments ∈ n.descendants :=
    Node.mem_descendants_of_mem_children (by simp [hc])
  have hmem : literal ∈ n.descendants := by
    refine Node.descendants_trans harguments (Node.mem_descendants_of_mem_children ?_)
    rw [ha]
    exact List.mem_cons_self
  obtain ⟨hplaced, hin⟩ := Node.placed_of_mem_descendants hp hmem
  exact ⟨literal, hmem, hliteral, hplaced, hin, hbody⟩

/-- The literal of a call lies in the call, between its quotation marks. -/
theorem contentSpan_within (hs : ∀ k ∈ n.descendants, k.Shaped (Python.tokens t))
    (hp : n.isPlaced t = true) (h : ofNode? t scope n = some call) :
    n.span.start < call.contentSpan.start ∧ call.contentSpan.stop < n.span.stop := by
  obtain ⟨literal, hmem, hk, hplaced, hin, hbody⟩ := exists_literal hs hp h
  obtain ⟨hlo, hhi⟩ :=
    bodySpan?_within (fun k hk => hs k (Node.descendants_trans hmem hk)) hk hplaced hbody
  exact ⟨Nat.lt_of_le_of_lt hin.1 hlo, Nat.lt_of_lt_of_le hhi hin.2⟩

/-- A call in a call of the routing engine stands behind the literal of the outer one, or in it. -/
theorem apart_or_in_content {m : Node} (hs : ∀ k ∈ n.descendants, k.Shaped (Python.tokens t))
    (hp : n.isPlaced t = true) (h : ofNode? t scope n = some call)
    (hm : m ∈ Node.descendantsOf n.children) (hcall : m.kind = .call) :
    call.contentSpan.stop < m.span.start ∨ call.contentSpan.Encloses m.span := by
  obtain ⟨-, -, -, -, function, arguments, literal, others, hc, hchain, hkind, ha, hliteral, hbody⟩ :=
    ofNode?_cases hs h
  have harguments : arguments ∈ n.children := by simp [hc]
  have hpa :=
    (Node.placed_of_mem_descendants hp (Node.mem_descendants_of_mem_children harguments)).1
  have hsl := shaped_below (shaped_below hs harguments) (by simp [ha] : literal ∈ arguments.children)
  have horder := (Node.isPlaced_iff.1 hpa).2.2
  rw [ha] at horder
  obtain ⟨-, hpl, hothers⟩ := Node.inOrder_cons.1 horder
  rw [hc, Node.descendantsOf, Node.descendantsOf, Node.descendantsOf, List.append_nil,
    Node.descendants_eq arguments, ha, Node.descendantsOf, Node.descendants_eq literal] at hm
  -- the inner call is part of the function, the arguments themselves, or part of one of them
  rcases List.mem_append.1 hm with hm | hm
  · have hsf := shaped_below hs (by simp [hc] : function ∈ n.children)
    exact absurd hcall (hchain.kind_ne_call hsf m hm)
  rcases List.mem_cons.1 hm with rfl | hm
  · rw [hcall] at hkind
    cases hkind
  rcases List.mem_append.1 hm with hm | hm
  · rcases List.mem_cons.1 hm with rfl | hm
    · rw [hliteral] at hcall
      cases hcall
    · exact .inr (body_encloses_call hsl hliteral hpl hbody hm hcall)
  · have hin := (bodySpan?_within hsl hliteral hpl hbody).2
    exact .inl (Nat.lt_of_lt_of_le hin (Node.placed_of_mem_descendantsOf hothers hm).2.1)

/-- The literal of a call is part of the text, and a quotation mark stands in front of it. -/
theorem quoted_content (hs : ∀ k ∈ n.descendants, k.Shaped (Python.tokens t))
    (hp : n.isPlaced t = true) (h : ofNode? t scope n = some call) :
    ∃ front mark rest, t = front ++ mark :: (call.content ++ rest) ∧ (mark = '\'' ∨ mark = '"') ∧
      call.contentSpan.start = Text.bytes (front ++ [mark]) ∧
      call.contentSpan.stop = Text.bytes (front ++ [mark] ++ call.content) := by
  obtain ⟨literal, hmem, hk, hplaced, -, hbody⟩ := exists_literal hs hp h
  obtain ⟨-, -, -, hcontent, -⟩ := ofNode?_cases hs h
  obtain ⟨opening, parts, closing, hc, hopening, -, hspan⟩ :=
    bodySpan?_cases (hs literal hmem) hk hbody
  have hso := hs opening (Node.descendants_trans hmem
    (Node.mem_descendants_of_mem_children (by simp [hc])))
  rw [Node.Shaped, hopening] at hso
  obtain ⟨-, token, htoken, hkind, hstop⟩ := hso
  obtain ⟨front, mark, rest, ht, hmark, hstart⟩ := Python.quote_of_mem_tokens htoken hkind
  have horder := (Node.isPlaced_iff.1 hplaced).2.2
  rw [hc] at horder
  obtain ⟨-, -, horder⟩ := Node.inOrder_cons.1 horder
  obtain ⟨hparts, hclosing, -⟩ := Node.inOrder_append horder
  obtain ⟨front', rest', ht', hstart'⟩ := Text.isBoundary_iff.1 (Node.isPlaced_iff.1 hclosing).1
  have hle := Node.le_of_inOrder hparts
  rw [← hstop, hstart, ← hstart'] at hle
  rw [show front ++ mark :: rest = front ++ [mark] ++ rest by simp] at ht
  obtain ⟨body, rfl, rfl⟩ := Text.exists_append_of_bytes_le (ht.symm.trans ht') hle
  have hslice : call.content = body := by
    rw [hcontent, hspan, ← hstop, hstart, ← hstart', ht, Text.slice_append_append]
  refine ⟨front, mark, rest', ?_, hmark, ?_, ?_⟩
  · rw [hslice, ht]
    simp
  · rw [hspan, ← hstart, hstop]
  · rw [hslice, hspan, hstart']

/-- The literals of the calls start one behind the other.  Each ends in front of those that start
behind it or goes on behind their ends, and a quotation mark stands between. -/
theorem pairwise_below (hs : ∀ k ∈ n.descendants, k.Shaped (Python.tokens t))
    (hp : n.isPlaced t = true) (scope : String) : (below t scope n).Pairwise fun a b =>
      a.contentSpan.start < b.contentSpan.start ∧
        (a.contentSpan.stop < b.contentSpan.start ∨ b.contentSpan.stop < a.contentSpan.stop) := by
  have hnodes := Node.pairwise_descendants hp
  rw [← Node.map_withScopes t scope, List.pairwise_map] at hnodes
  have sound : ∀ {scope' : String} {m : Node}, (scope', m) ∈ n.withScopes t scope →
      (∀ k ∈ m.descendants, k.Shaped (Python.tokens t)) ∧ m.isPlaced t = true := by
    intro scope' m hm
    have hm := Node.mem_descendants_of_mem_withScopes hm
    exact ⟨fun k hk => hs k (Node.descendants_trans hm hk),
      (Node.placed_of_mem_descendants hp hm).1⟩
  refine List.pairwise_filterMap.2 (hnodes.imp_of_mem ?_)
  intro ⟨_, m⟩ ⟨_, m'⟩ hm hm' hprecedes outer houter inner hinner
  obtain ⟨hsm, hpm⟩ := sound hm
  obtain ⟨hsm', hpm'⟩ := sound hm'
  obtain ⟨hlow, hhigh⟩ := contentSpan_within hsm' hpm' hinner
  have hle := start_le_stop hpm houter
  have hprecedes : Node.Precedes m m' := hprecedes
  rcases hprecedes with hbelow | hbehind
  · rcases apart_or_in_content hsm hpm houter hbelow (ofNode?_cases hsm' hinner).1 with
      h | ⟨hlo, hhi⟩
    · exact ⟨by omega, .inl (by omega)⟩
    · exact ⟨by omega, .inr (by omega)⟩
  · have hout := (contentSpan_within hsm hpm houter).2
    exact ⟨by omega, .inl (by omega)⟩

/-- The calls come in the order of the text, each in front of those that are part of it. -/
theorem pairwise_callSpan (hp : n.isPlaced t = true) (scope : String) :
    (below t scope n).Pairwise fun a b =>
      a.callSpan.Encloses b.callSpan ∨ a.callSpan.stop ≤ b.callSpan.start := by
  have hnodes := Node.pairwise_descendants hp
  rw [← Node.map_withScopes t scope, List.pairwise_map] at hnodes
  refine List.pairwise_filterMap.2 (hnodes.imp_of_mem ?_)
  intro ⟨_, m⟩ ⟨_, m'⟩ hm _ hprecedes outer houter inner hinner
  rw [(exists_bodySpan? houter).1, (exists_bodySpan? hinner).1]
  refine hprecedes.imp_left fun hbelow => ?_
  have hpm := (Node.placed_of_mem_descendants hp (Node.mem_descendants_of_mem_withScopes hm)).1
  refine (Node.placed_of_mem_descendants hpm ?_).2
  rw [Node.descendants_eq]
  exact List.mem_cons_of_mem _ hbelow

end Places

end EngineCall

namespace Document

open EngineCall

/-- The literal of each call is cut out of the text. -/
theorem cut_of_mem_engineCalls [Python.Recovery] {d : Document} {call : EngineCall}
    (h : call ∈ d.engineCalls) : ∃ front rest, d.text = front ++ (call.content ++ rest) ∧
      call.contentSpan.start = Text.bytes front ∧
      call.contentSpan.stop = Text.bytes (front ++ call.content) := by
  obtain ⟨⟨scope, n⟩, hn, hcall⟩ := List.mem_filterMap.1 h
  refine exists_cut ?_ hcall
  exact (Node.placed_of_mem_descendants d.isPlaced_root
    (Node.mem_descendants_of_mem_withScopes hn)).1

/-- What is below the root of a module has its shape. -/
theorem shaped_root_of_hasError [Python.Recovery] {d : Document} (h : d.hasError = false) :
    ∀ n ∈ d.root.descendants, n.Shaped (Python.tokens d.text) := by
  intro n hn
  rw [hasError, d.tree_eq] at h
  rw [root, d.tree_eq] at hn
  exact Python.Tree.shaped_ofText_of_hasError h hn

/-- The literals of the calls of a module start one behind the other.  Each ends in front of those
that start behind it or goes on behind their ends. -/
theorem pairwise_contentSpan_of_hasError [Python.Recovery] {d : Document} (h : d.hasError = false) :
    d.engineCalls.Pairwise fun a b => a.contentSpan.start < b.contentSpan.start ∧
      (a.contentSpan.stop < b.contentSpan.start ∨ b.contentSpan.stop < a.contentSpan.stop) :=
  pairwise_below (shaped_root_of_hasError h) d.isPlaced_root _

/-- What is below the root of a document has its shape. -/
theorem shaped_root (d : Document) : ∀ n ∈ d.root.descendants, n.Shaped (Python.tokens d.text) := by
  intro n hn
  rw [root, d.tree_eq] at hn
  exact Python.Tree.shaped_ofText hn

theorem shaped_placed_of_mem {d : Document} {n : Node} (hn : n ∈ d.root.descendants) :
    (∀ k ∈ n.descendants, k.Shaped (Python.tokens d.text)) ∧ n.isPlaced d.text = true :=
  ⟨fun k hk => d.shaped_root k (Node.descendants_trans hn hk),
    (Node.placed_of_mem_descendants d.isPlaced_root hn).1⟩

theorem shaped_placed_of_mem_withScopes {d : Document} {scope : String} {n : Node}
    (h : (scope, n) ∈ d.root.withScopes d.text Node.moduleScope) :
    (∀ k ∈ n.descendants, k.Shaped (Python.tokens d.text)) ∧ n.isPlaced d.text = true :=
  shaped_placed_of_mem (Node.mem_descendants_of_mem_withScopes h)

/-- The literal of each call is part of the text, and a quotation mark stands in front of it. -/
theorem quoted_of_mem_engineCalls {d : Document} {call : EngineCall} (h : call ∈ d.engineCalls) :
    ∃ front mark rest, d.text = front ++ mark :: (call.content ++ rest) ∧
      (mark = '\'' ∨ mark = '"') ∧ call.contentSpan.start = Text.bytes (front ++ [mark]) ∧
      call.contentSpan.stop = Text.bytes (front ++ [mark] ++ call.content) := by
  obtain ⟨⟨scope, n⟩, hn, hcall⟩ := List.mem_filterMap.1 h
  obtain ⟨hs, hp⟩ := shaped_placed_of_mem_withScopes hn
  exact quoted_content hs hp hcall

/-- The literals of the calls start one behind the other.  Each ends in front of those that start
behind it or goes on behind their ends, and a quotation mark stands between. -/
theorem pairwise_contentSpan (d : Document) : d.engineCalls.Pairwise fun a b =>
    a.contentSpan.start < b.contentSpan.start ∧
      (a.contentSpan.stop < b.contentSpan.start ∨ b.contentSpan.stop < a.contentSpan.stop) :=
  pairwise_below d.shaped_root d.isPlaced_root _

/-- The literals of the calls follow one another or lie in one another. -/
theorem pairwise_engineCalls (d : Document) : d.engineCalls.Pairwise fun a b =>
    a.contentSpan.stop ≤ b.contentSpan.start ∨ a.contentSpan.Encloses b.contentSpan := by
  refine d.pairwise_contentSpan.imp ?_
  rintro a b ⟨hstart, hbehind | hinside⟩
  · exact .inl (Nat.le_of_lt hbehind)
  · exact .inr ⟨Nat.le_of_lt hstart, Nat.le_of_lt hinside⟩

/-- A literal in a literal is part of it, behind a quotation mark. -/
theorem content_of_encloses {d : Document} {outer inner : EngineCall}
    (houter : outer ∈ d.engineCalls) (hinner : inner ∈ d.engineCalls)
    (hlo : outer.contentSpan.start < inner.contentSpan.start)
    (hhi : inner.contentSpan.stop ≤ outer.contentSpan.stop) :
    ∃ pre mark post, outer.content = pre ++ [mark] ++ (inner.content ++ post) ∧
      (mark = '\'' ∨ mark = '"') ∧
      inner.contentSpan.start = outer.contentSpan.start + Text.bytes (pre ++ [mark]) := by
  obtain ⟨front, mark, rest, ht, -, hstart, hstop⟩ := quoted_of_mem_engineCalls houter
  obtain ⟨front', mark', rest', ht', hmark', hstart', hstop'⟩ := quoted_of_mem_engineCalls hinner
  rw [hstart, hstart'] at hlo
  rw [hstop, hstop'] at hhi
  have htext : front ++ [mark] ++ (outer.content ++ rest) =
      front' ++ [mark'] ++ (inner.content ++ rest') := by
    rw [List.append_assoc, List.singleton_append, ← ht, ht', List.append_assoc,
      List.singleton_append]
  obtain ⟨gap, hgap, hrest⟩ := Text.exists_append_of_bytes_le htext (Nat.le_of_lt hlo)
  -- the text in front of the inner literal ends with its quotation mark
  obtain ⟨pre, rfl⟩ : ∃ pre, gap = pre ++ [mark'] := by
    rcases gap.eq_nil_or_concat with rfl | ⟨pre, last, rfl⟩
    · rw [hgap, List.append_nil] at hlo
      exact absurd hlo (Nat.lt_irrefl _)
    · rw [List.concat_eq_append, ← List.append_assoc] at hgap
      obtain ⟨-, hlast⟩ := List.append_inj' hgap rfl
      cases hlast
      exact ⟨pre, List.concat_eq_append⟩
  have hinside : Text.bytes (pre ++ [mark'] ++ inner.content) ≤ Text.bytes outer.content := by
    rw [hgap] at hhi
    simp only [Text.bytes_append] at hhi ⊢
    omega
  rw [← List.append_assoc] at hrest
  obtain ⟨post, hcontent, -⟩ := Text.exists_append_of_bytes_le hrest.symm hinside
  refine ⟨pre, mark', post, ?_, hmark', ?_⟩
  · rw [hcontent, List.append_assoc]
  · rw [hstart', hgap, Text.bytes_append (front ++ [mark]), hstart]

end Document

end RouteScript
