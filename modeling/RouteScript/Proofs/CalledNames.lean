import Mathlib.Data.List.Pairwise
import RouteScript.Proofs.DottedNames
import RouteScript.Proofs.EngineCalls
import RouteScript.Proofs.Rounding
import RouteScript.Script.CallSite
import RouteScript.Script.Routine

/-!
# Where called and defined names stand

The names in the definitions and the calls of a document are apart.  In a module they are different
words, and the tree of any other text is one that keeps its names apart.  So an offset is at one
name at most, even if it is that of a position at which the name is shown, and no two names are
shown at the same place.

* `Text.IsAt`, `Apart.not_isAt`: an offset is at one of two spans at most.
* `Node.isTreeOf_of_shaped`, `Tree.isTreeOf_ofText`: the tree of a text is one of the text.
* `CallSite.name?_of_ofNode?`, `Routine.name?_of_ofNode?`: the names in nodes.
* `Document.pairwise_callSites`, `Document.apart_nameSpan`: the names in a document are apart.
* `Document.eq_of_isAt`, `Document.name_eq_of_isAt`: what is named at an offset.
-/

namespace RouteScript

open Python (Node Token)

/-! ### Places of names -/

namespace Text

variable {t : Text} {a b s s' : Span} {offset : Nat}

/-- The offset lies in the span or right behind it, or it is between the place where the span is
shown and the span. -/
def IsAt (t : Text) (s : Span) (offset : Nat) : Prop :=
  t.offsetOf (t.rangeOf s).start ≤ offset ∧ offset ≤ s.stop

theorem offsetOf_positionOf_le (t : Text) (n : Nat) : t.offsetOf (t.positionOf n) ≤ n :=
  (t.isGreatest_offsetOf_positionOf n).1.1.trans (min_le_left ..)

theorem isAt_of_touches (h : s.Touches offset) : t.IsAt s offset :=
  ⟨(t.offsetOf_positionOf_le s.start).trans h.1, h.2⟩

theorem EndsBefore.lt_shown (h : t.EndsBefore a b) : a.stop < t.offsetOf (t.rangeOf b).start := by
  obtain ⟨n, hfirm, hlt, hle⟩ := h
  have hn : n ≤ t.offsetOf (t.positionOf b.start) :=
    (t.isGreatest_offsetOf_positionOf b.start).2 ⟨le_min hle hfirm.le_bytes, hfirm⟩
  exact Nat.lt_of_lt_of_le hlt hn

instance : Std.Symm t.Apart := ⟨fun _ _ => Or.symm⟩

/-- An offset is at one of two spans at most. -/
theorem Apart.not_isAt (h : t.Apart a b) (ha : t.IsAt a offset) : ¬ t.IsAt b offset := by
  intro hb
  have := ha.1
  have := ha.2
  have := hb.1
  have := hb.2
  rcases h with h | h <;> have := h.lt_shown <;> omega

/-- Two spans are shown at different places. -/
theorem Apart.shown_ne (h : t.Apart a b) (ha : a.start ≤ a.stop) (hb : b.start ≤ b.stop) :
    (t.rangeOf a).start ≠ (t.rangeOf b).start := by
  intro heq
  have hshown : t.offsetOf (t.rangeOf a).start = t.offsetOf (t.rangeOf b).start := by rw [heq]
  have hlea : t.offsetOf (t.rangeOf a).start ≤ a.start := t.offsetOf_positionOf_le a.start
  have hleb : t.offsetOf (t.rangeOf b).start ≤ b.start := t.offsetOf_positionOf_le b.start
  rcases h with h | h <;> have := h.lt_shown <;> omega

/-! ### Words -/

/-- The span is that of a word of the text. -/
def IsName (t : Text) (s : Span) : Prop := ∃ w ∈ Python.tokens t, w.kind = .word ∧ w.span = s

/-- A name does not start with a line feed. -/
theorem IsName.isFirm (h : t.IsName s) : t.IsFirm s.start := by
  obtain ⟨w, hw, hk, rfl⟩ := h
  obtain ⟨front, rest, rfl, hspan, hword⟩ :=
    (Python.stands_of_mem_tokens hw).resolve_left (Python.not_isMark_of_word hk)
  rw [hk] at hword
  rw [hspan, Nat.zero_add]
  obtain ⟨c, hc, hstart⟩ := hword.start
  refine isFirm_start fun hfeed => ?_
  rw [List.head?_append, show w.text.head? = some c from hc] at hfeed
  cases hfeed
  exact absurd hstart (by decide +kernel)

/-- A name does not touch the next one. -/
theorem IsName.endsBefore (h : t.IsName s) (h' : t.IsName s') (hle : s.stop ≤ s'.start) :
    t.EndsBefore s s' := by
  refine ⟨s'.start, h'.isFirm, Nat.lt_of_le_of_ne hle fun heq => ?_, Nat.le_refl _⟩
  obtain ⟨w, hw, hk, rfl⟩ := h
  obtain ⟨w', hw', hk', rfl⟩ := h'
  have hpos := Python.size_pos_of_mem_tokens hw (Python.not_isMark_of_word hk) (by rw [hk]; decide)
  have hpos' :=
    Python.size_pos_of_mem_tokens hw' (Python.not_isMark_of_word hk') (by rw [hk']; decide)
  have htouch : w.span.Touches w.span.stop := ⟨Nat.le_of_lt hpos, Nat.le_refl _⟩
  have htouch' : w'.span.Touches w.span.stop :=
    ⟨Nat.le_of_eq heq.symm, heq ▸ Nat.le_of_lt hpos'⟩
  -- words that touch are one word
  have hsame : w = w' := Python.word_eq_of_touches hw hw' hk hk' htouch htouch'
  rw [hsame] at heq hpos
  omega

end Text

/-! ### Names in nodes -/

namespace Python.Node

open EngineCall (attribute_children call_children descendants_of_leaf shaped_below)

instance {t : Text} : Std.Symm (NamesApart t) :=
  ⟨fun _ _ h a b ha hb => Std.Symm.symm _ _ (h b a hb ha)⟩

section Names

variable {n name : Node}

theorem lastName?_eq_some_iff {function : Node} : function.lastName? = some name ↔
    function.kind = .identifier ∧ function = name ∨
      function.kind = .attribute ∧ function.child? .attribute = some name := by
  unfold lastName?
  split_ifs <;> simp_all

theorem name?_eq_some_iff : n.name? = some name ↔
    n.kind = .functionDefinition ∧ n.child? .name = some name ∨
      n.kind = .call ∧ ∃ function, n.child? .function = some function ∧
        function.lastName? = some name := by
  unfold name?
  split_ifs <;> simp_all [Option.bind_eq_some_iff]

theorem mem_descendants_of_name? (h : n.name? = some name) : name ∈ n.descendants := by
  have child : ∀ {m k : Node} {f : Field}, m.child? f = some k → k ∈ m.descendants :=
    fun h => mem_descendants_of_mem_children (List.mem_of_find?_eq_some h)
  obtain ⟨-, hname⟩ | ⟨-, function, hfunction, hname⟩ := name?_eq_some_iff.1 h
  · exact child hname
  · obtain ⟨-, rfl⟩ | ⟨-, hname⟩ := lastName?_eq_some_iff.1 hname
    · exact child hfunction
    · exact descendants_trans (child hfunction) (child hname)

/-- In a module, the name is an identifier in front of everything else below the node, or behind it
an object and in front of arguments. -/
theorem name?_cases {ts : List Token} (hs : ∀ k ∈ n.descendants, k.Shaped ts)
    (h : n.name? = some name) : name.kind = .identifier ∧
      ((∃ rest, n.children = name :: rest) ∨
        ∃ function object arguments, n.children = [function, arguments] ∧
          function.kind = .attribute ∧ function.children = [object, name]) := by
  obtain ⟨hk, hname⟩ | ⟨hk, function, hfunction, hname⟩ := name?_eq_some_iff.1 h
  · have hshape := hs n n.mem_descendants_self
    rw [Node.Shaped, hk] at hshape
    obtain ⟨first, rest, hc, hfield, hidentifier⟩ := hshape
    rw [Node.child?, hc, List.find?_cons_of_pos (by rw [hfield]; rfl)] at hname
    cases hname
    exact ⟨hidentifier, .inl ⟨rest, hc⟩⟩
  · obtain ⟨_, arguments, hc, hfirst, -⟩ := call_children (hs n n.mem_descendants_self) hk
    cases hfirst.symm.trans hfunction
    obtain ⟨hidentifier, rfl⟩ | ⟨hattribute, hname⟩ := lastName?_eq_some_iff.1 hname
    · exact ⟨hidentifier, .inl ⟨_, hc⟩⟩
    · have hsf := shaped_below hs (by simp [hc] : function ∈ n.children)
      obtain ⟨object, _, hc', -, hlast, hidentifier⟩ :=
        attribute_children (hsf function function.mem_descendants_self) hattribute
      cases hlast.symm.trans hname
      exact ⟨hidentifier, .inr ⟨function, object, arguments, hc, hattribute, hc'⟩⟩

theorem kind_of_name? (h : n.name? = some name) :
    n.kind = .functionDefinition ∨ n.kind = .call :=
  (name?_eq_some_iff.1 h).imp And.left And.left

end Names

section Modules

variable {t : Text} {root n m : Node}

theorem isName_of_identifier (h : n.Shaped (tokens t)) (hk : n.kind = .identifier) :
    t.IsName n.span := by
  rw [Node.Shaped, hk] at h
  exact h.2

/-- The name in a node of a module does not overlap with the name in a node below it. -/
theorem name?_below {a b : Node} (hs : ∀ k ∈ n.descendants, k.Shaped (tokens t))
    (hp : n.isPlaced t = true) (hm : m ∈ descendantsOf n.children) (ha : n.name? = some a)
    (hb : m.name? = some b) : a.span.stop ≤ b.span.start ∨ b.span.stop ≤ a.span.start := by
  have hmem : m ∈ n.descendants := by
    rw [descendants_eq]
    exact List.mem_cons_of_mem _ hm
  have hin := (placed_of_mem_descendants (placed_of_mem_descendants hp hmem).1
    (mem_descendants_of_name? hb)).2
  have hkind := kind_of_name? hb
  have horder := (isPlaced_iff.1 hp).2.2
  have leaf : ∀ {k : Node}, k.Shaped (tokens t) → k.kind = .identifier → m ∉ k.descendants := by
    intro k hsk hk hmk
    rw [descendants_of_leaf hsk (.inl hk)] at hmk
    rw [List.mem_singleton.1 hmk, hk] at hkind
    simp at hkind
  have hsa := hs a (mem_descendants_of_name? ha)
  obtain ⟨hidentifier, ⟨rest, hc⟩ | ⟨function, object, arguments, hc, hattribute, hc'⟩⟩ :=
    name?_cases hs ha
  · rw [hc] at horder hm
    obtain ⟨-, -, hrest⟩ := inOrder_cons.1 horder
    rw [descendantsOf] at hm
    have hm := (List.mem_append.1 hm).resolve_left (leaf hsa hidentifier)
    exact .inl ((placed_of_mem_descendantsOf hrest hm).2.1.trans hin.1)
  · rw [hc] at horder hm
    obtain ⟨-, hfunction, harguments⟩ := inOrder_cons.1 horder
    have horder' := (isPlaced_iff.1 hfunction).2.2
    rw [hc'] at horder'
    obtain ⟨-, hobject, hname⟩ := inOrder_cons.1 horder'
    rw [descendantsOf, descendants_eq, hc', descendantsOf, descendantsOf, descendantsOf,
      List.append_nil] at hm
    rcases List.mem_append.1 hm with hm | hm
    · rcases List.mem_cons.1 hm with rfl | hm
      · rw [hattribute] at hkind
        simp at hkind
      · have hm := (List.mem_append.1 hm).resolve_right (leaf hsa hidentifier)
        exact .inr (hin.2.trans ((placed_of_mem_descendants hobject hm).2.2.trans
          (inOrder_cons.1 hname).1))
    · refine .inl (le_trans ?_ ((placed_of_mem_descendantsOf harguments hm).2.1.trans hin.1))
      have hname : a ∈ function.children := by simp [hc']
      exact (placed_of_mem_descendants hfunction (mem_descendants_of_mem_children hname)).2.2

/-- The names in two nodes of a module are apart. -/
theorem namesApart_of_precedes (hsn : ∀ k ∈ n.descendants, k.Shaped (tokens t))
    (hsm : ∀ k ∈ m.descendants, k.Shaped (tokens t)) (hn : n.isPlaced t = true)
    (hm : m.isPlaced t = true) (h : Precedes n m) : NamesApart t n m := by
  intro a b ha hb
  have hma := mem_descendants_of_name? ha
  have hmb := mem_descendants_of_name? hb
  have hnamea := isName_of_identifier (hsn a hma) (name?_cases hsn ha).1
  have hnameb := isName_of_identifier (hsm b hmb) (name?_cases hsm hb).1
  have hbeside : a.span.stop ≤ b.span.start ∨ b.span.stop ≤ a.span.start := by
    rcases h with hbelow | hbehind
    · exact name?_below hsn hn hbelow ha hb
    · exact .inl ((placed_of_mem_descendants hn hma).2.2.trans
        (hbehind.trans (placed_of_mem_descendants hm hmb).2.1))
  exact hbeside.imp (hnamea.endsBefore hnameb) (hnameb.endsBefore hnamea)

/-- The tree of a module is a tree of the text. -/
theorem isTreeOf_of_shaped (hs : ∀ n ∈ root.descendants, n.Shaped (tokens t))
    (hp : root.isPlaced t = true) : root.IsTreeOf t where
  placed := hp
  named n hn hk name hname := by
    have hshape := hs n hn
    rw [Node.Shaped, hk] at hshape
    obtain ⟨first, rest, hc, hfield, hidentifier⟩ := hshape
    rw [Node.child?, hc, List.find?_cons_of_pos (by rw [hfield]; rfl)] at hname
    cases hname
    exact hidentifier
  word n hn hk c hc := by
    obtain ⟨w, hw, hword, hspan⟩ := isName_of_identifier (hs n hn) hk
    rw [← hspan] at hc
    have hcontinue := (isIdentifier_of_word hw hword).chars c hc
    simp only [Identifier.isContinue, Identifier.isStart, Bool.or_eq_true, Bool.and_eq_true,
      beq_iff_eq, decide_eq_true_eq] at hcontinue
    rw [Char.isAlphanum, Bool.or_eq_true]
    tauto
  apart := by
    have below : ∀ {n : Node}, n ∈ root.descendants →
        (∀ k ∈ n.descendants, k.Shaped (tokens t)) ∧ n.isPlaced t = true := fun hn =>
      ⟨fun k hk => hs k (descendants_trans hn hk), (placed_of_mem_descendants hp hn).1⟩
    refine (pairwise_descendants hp).imp_of_mem fun hn hm h => ?_
    exact namesApart_of_precedes (below hn).1 (below hm).1 (below hn).2 (below hm).2 h

end Modules

end Python.Node

/-- The tree of a text is a tree of the text. -/
theorem Python.Tree.isTreeOf_ofText [Recovery] (t : Text) : (ofText t).root.IsTreeOf t := by
  cases h : (ofText t).hasError with
  | false =>
    exact Node.isTreeOf_of_shaped (fun n hn => shaped_ofText_of_hasError h hn) (isPlaced_ofText t)
  | true =>
    rw [root_ofText_of_hasError h]
    exact Recovery.isTreeOf_root t

/-! ### Names in documents -/

theorem CallSite.name?_of_ofNode? {t : Text} {scope : String} {n : Node} {s : CallSite}
    (h : ofNode? t scope n = some s) :
    n.kind = .call ∧ ∃ name, n.name? = some name ∧ s.calleeSpan = name.span := by
  simp only [ofNode?, Option.bind_eq_bind, Option.bind_eq_some_iff, Option.guard_eq_some',
    exists_const, beq_iff_eq] at h
  obtain ⟨hk, function, hfunction, ⟨name, qualifier⟩, hname, h⟩ := h
  cases h
  refine ⟨hk, name, Node.name?_eq_some_iff.2 (.inr ⟨hk, function, hfunction, ?_⟩), rfl⟩
  rw [Node.lastName?_eq_some_iff]
  unfold callee? at hname
  split at hname
  · rename_i hidentifier
    cases hname
    exact .inl ⟨beq_iff_eq.1 hidentifier, rfl⟩
  · split at hname
    · rename_i hattribute
      obtain ⟨object, -, hname⟩ := Option.bind_eq_some_iff.1 hname
      obtain ⟨member, hmember, hname⟩ := Option.bind_eq_some_iff.1 hname
      obtain ⟨path, -, hname⟩ := Option.bind_eq_some_iff.1 hname
      have heq : member = name := by split_ifs at hname <;> cases hname <;> rfl
      exact .inr ⟨beq_iff_eq.1 hattribute, heq ▸ hmember⟩
    · cases hname

theorem Routine.name?_of_ofNode? {t : Text} {n : Node} {r : Routine} (h : ofNode? t n = some r) :
    n.kind = .functionDefinition ∧ ∃ name, n.child? .name = some name ∧ n.name? = some name ∧
      r.name = name.textIn t ∧ r.nameSpan = name.span := by
  simp only [ofNode?, Option.bind_eq_bind, Option.bind_eq_some_iff, Option.guard_eq_some',
    exists_const, beq_iff_eq] at h
  obtain ⟨hk, name, hname, h⟩ := h
  cases h
  exact ⟨hk, name, hname, Node.name?_eq_some_iff.2 (.inl ⟨hk, hname⟩), rfl, rfl⟩

namespace Document

variable [Python.Recovery] {d : Document} {s s' : CallSite} {r r' : Routine} {offset : Nat}

theorem isTreeOf_root (d : Document) : d.root.IsTreeOf d.text := by
  rw [root, d.tree_eq]
  exact Python.Tree.isTreeOf_ofText d.text

/-- The names that are called are apart. -/
theorem pairwise_callSites (d : Document) :
    d.callSites.Pairwise fun a b => d.text.Apart a.calleeSpan b.calleeSpan := by
  have hnodes := d.isTreeOf_root.apart
  rw [← Node.map_withScopes d.text Node.moduleScope, List.pairwise_map] at hnodes
  refine List.pairwise_filterMap.2 (hnodes.imp ?_)
  intro ⟨_, n⟩ ⟨_, m⟩ hapart a ha b hb
  obtain ⟨-, name, hname, hspan⟩ := CallSite.name?_of_ofNode? ha
  obtain ⟨-, name', hname', hspan'⟩ := CallSite.name?_of_ofNode? hb
  rw [hspan, hspan']
  exact hapart name name' hname hname'

/-- An offset is at the called name of one call site at most. -/
theorem eq_of_isAt (hs : s ∈ d.callSites) (hs' : s' ∈ d.callSites)
    (ht : d.text.IsAt s.calleeSpan offset) (ht' : d.text.IsAt s'.calleeSpan offset) : s = s' := by
  by_contra hne
  have hsymm : Std.Symm fun a b : CallSite => d.text.Apart a.calleeSpan b.calleeSpan :=
    ⟨fun _ _ => Or.symm⟩
  exact (d.pairwise_callSites.forall hs hs' hne).not_isAt ht ht'

theorem namesApart_of_ne {n m : Node} (hn : n ∈ d.root.descendants) (hm : m ∈ d.root.descendants)
    (hne : n ≠ m) : Node.NamesApart d.text n m :=
  d.isTreeOf_root.apart.forall hn hm hne

/-- The name of a definition is apart from those that are called. -/
theorem apart_nameSpan (hr : r ∈ d.routines) (hs : s ∈ d.callSites) :
    d.text.Apart r.nameSpan s.calleeSpan := by
  obtain ⟨n, hn, hr⟩ := List.mem_filterMap.1 hr
  obtain ⟨⟨_, m⟩, hm, hs⟩ := List.mem_filterMap.1 hs
  obtain ⟨hdef, name, -, hname, -, hspan⟩ := Routine.name?_of_ofNode? hr
  obtain ⟨hcall, name', hname', hspan'⟩ := CallSite.name?_of_ofNode? hs
  rw [hspan, hspan']
  refine namesApart_of_ne hn (Node.mem_descendants_of_mem_withScopes hm) ?_ name name' hname hname'
  rintro rfl
  rw [hdef] at hcall
  cases hcall

/-- An offset at the name of a definition is at no called name. -/
theorem not_isAt_calleeSpan (hr : r ∈ d.routines) (hs : s ∈ d.callSites)
    (ht : d.text.IsAt r.nameSpan offset) : ¬ d.text.IsAt s.calleeSpan offset :=
  (apart_nameSpan hr hs).not_isAt ht

/-- The definitions with names at an offset define the same name. -/
theorem name_eq_of_isAt (hr : r ∈ d.routines) (hr' : r' ∈ d.routines)
    (ht : d.text.IsAt r.nameSpan offset) (ht' : d.text.IsAt r'.nameSpan offset) :
    r.name = r'.name := by
  obtain ⟨n, hn, hr⟩ := List.mem_filterMap.1 hr
  obtain ⟨m, hm, hr'⟩ := List.mem_filterMap.1 hr'
  by_cases heq : n = m
  · rw [Option.some.inj (hr.symm.trans (heq ▸ hr'))]
  · obtain ⟨-, name, -, hname, -, hspan⟩ := Routine.name?_of_ofNode? hr
    obtain ⟨-, name', -, hname', -, hspan'⟩ := Routine.name?_of_ofNode? hr'
    rw [hspan] at ht
    rw [hspan'] at ht'
    exact absurd ht' ((namesApart_of_ne hn hm heq name name' hname hname').not_isAt ht)

theorem start_le_of_name? {n name : Node} (hn : n ∈ d.root.descendants) (h : n.name? = some name) :
    name.span.start ≤ name.span.stop :=
  Node.le_of_isPlaced (Node.placed_of_mem_descendants d.isPlaced_root
    (Node.descendants_trans hn (Node.mem_descendants_of_name? h))).1

theorem start_le_of_mem_callSites (hs : s ∈ d.callSites) :
    s.calleeSpan.start ≤ s.calleeSpan.stop := by
  obtain ⟨⟨_, n⟩, hn, hs⟩ := List.mem_filterMap.1 hs
  obtain ⟨-, name, hname, hspan⟩ := CallSite.name?_of_ofNode? hs
  exact hspan ▸ start_le_of_name? (Node.mem_descendants_of_mem_withScopes hn) hname

theorem start_le_of_mem_routines (hr : r ∈ d.routines) : r.nameSpan.start ≤ r.nameSpan.stop := by
  obtain ⟨n, hn, hr⟩ := List.mem_filterMap.1 hr
  obtain ⟨-, name, -, hname, -, hspan⟩ := Routine.name?_of_ofNode? hr
  exact hspan ▸ start_le_of_name? hn hname

end Document

end RouteScript
