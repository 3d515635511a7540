import RouteScript.Proofs.CallAtOffset
import RouteScript.Proofs.Inversion
import RouteScript.Proofs.Positions
import RouteScript.Proofs.Statements

/-!
# What stands in a literal

An interpolation starts with a brace, and the expression in it stands behind the brace.  So a call
in a literal starts behind the start of the literal, and what is found at the start of a literal is
always its own call.

* `Rule.Yields.starts`: what a rule yields starts no earlier than what it was read from.
* `Node.Interpolated`, `interpolated_ofText`: what is below a part of a literal starts behind the
  start of the part.
* `Document.noCallIn_start`: no call in a literal is at its start.
* `Document.isFirm_contentSpan`: both ends of a literal are places that can be shown.
-/

namespace RouteScript

namespace Python

namespace Rule

open Node (All)

variable {σ : Type} {grammar : σ → Rule σ} {rule : Rule σ} {left : Left} {whole i rest : Input}
  {nodes : List Node}

/-! ### Where nodes start -/

/-- The nodes of the rule may be built around what was read to its left.  No symbol does this. -/
def usesLeft : Rule σ → Bool
  | grow _ | wrap .. => true
  | seq first next | alt first next => first.usesLeft || next.usesLeft
  | many rule | commas rule | node _ rule | field _ rule | check _ rule => rule.usesLeft
  | chain base _ => base.usesLeft
  | fork common _ => common.usesLeft
  | empty | fail | token _ | leaf .. | symbol _ => false

theorem usesLeft_oneOf : ∀ spellings, (oneOf spellings : Rule σ).usesLeft = false
  | [] => rfl
  | [_] => rfl
  | _ :: s :: spellings => usesLeft_oneOf (s :: spellings)

theorem Input.Leaves.le_of_mem (hw : whole.Ordered) (hi : whole.Leaves i) {t : Token}
    (ht : t ∈ i.tokens) : whole.last ≤ t.span.start :=
  Nat.le_trans (hi.last_le hw) ((hi.ordered hw).inTurn.of_mem ht).1

theorem Input.Leaves.le_start (hw : whole.Ordered) (hi : whole.Leaves i) :
    whole.last ≤ i.start := by
  unfold Input.start
  cases htokens : i.tokens with
  | nil => exact hi.last_le hw
  | cons t ts => exact hi.le_of_mem hw (htokens ▸ List.mem_cons_self)

/-- What a rule yields starts no earlier than the input, unless it is built around something to the
left that does. -/
theorem Yields.starts (hg : ∀ s, (grammar s).usesLeft = false) (hw : whole.Ordered)
    (h : Yields grammar rule left i nodes rest) (hi : whole.Leaves i)
    (hl : rule.usesLeft = true →
      whole.last ≤ left.start ∧ All (fun n => whole.last ≤ n.span.start) left.nodes) :
    All (fun n => whole.last ≤ n.span.start) nodes := by
  have hfield : ∀ (n : Node) (f : Field), whole.last ≤ n.span.start →
      whole.last ≤ (n.withField f).span.start := fun n f hn => by rwa [Node.span_withField]
  induction h with
  | empty | token | manyNone | commasNone | commasLast => exact Node.all_nil
  | leaf h =>
    obtain ⟨htokens, -, -⟩ := Input.next?_eq_some h
    exact Node.all_singleton.2 ⟨hi.le_of_mem hw (htokens ▸ List.mem_cons_self), Node.all_nil⟩
  | symbol _ ih => exact ih hi fun hu => absurd hu (by rw [hg]; decide)
  | altFirst _ ih => exact ih hi fun hu => hl (by rw [usesLeft, hu]; rfl)
  | altOther _ ih => exact ih hi fun hu => hl (by rw [usesLeft, hu, Bool.or_true])
  | seq h₁ _ ih₁ ih₂ =>
    exact (ih₁ hi fun hu => hl (by rw [usesLeft, hu]; rfl)).append
      (ih₂ (hi.trans_joined h₁.leaves) fun hu => hl (by rw [usesLeft, hu, Bool.or_true]))
  | manyMore h₁ _ ih₁ ih₂ => exact (ih₁ hi hl).append (ih₂ (hi.trans_joined h₁.leaves) hl)
  | commasMore h h₁ _ ih₁ ih₂ =>
    refine (ih₁ ?_ hl).append (ih₂ (.trans_joined ?_ h₁.leaves) hl) <;>
      exact hi.trans_joined (.next h)
  | node _ ih => exact Node.all_singleton.2 ⟨hi.le_start hw, ih hi hl⟩
  | field _ ih => exact (ih hi hl).withField hfield _
  | check _ _ ih => exact ih hi hl
  | chain h₁ _ ih₁ ih₂ | fork h₁ _ ih₁ ih₂ =>
    exact ih₂ (hi.trans_joined h₁.leaves) fun _ => ⟨hi.le_start hw, ih₁ hi hl⟩
  | growNone => exact (hl rfl).2
  | growMore h₁ _ ih₁ ih₂ =>
    have hleft := hl rfl
    exact ih₂ (hi.trans_joined h₁.leaves) fun _ => ⟨hleft.1, ih₁ hi fun _ => hleft⟩
  | wrap _ _ ih =>
    have hleft := hl rfl
    exact Node.all_singleton.2
      ⟨hleft.1, (hleft.2.elim hfield _).append (ih hi fun _ => hleft)⟩

/-- What stands behind a token starts behind the start of the token. -/
theorem Yields.starts_behind (hg : ∀ s, (grammar s).usesLeft = false) {e : Expect} {next : Rule σ}
    (hi : i.Ordered) (he : e.isSolid = true) (hn : next.usesLeft = false)
    (h : Yields grammar (.seq (.token e) next) left i nodes rest) :
    All (fun n => i.start < n.span.start) nodes := by
  obtain ⟨t, mid, closed, ht, h⟩ := h.seq_token_inv
  obtain ⟨htokens, hlast, hadmits⟩ := Input.next?_eq_some ht
  obtain ⟨hmark, hstray⟩ := Expect.kind_of_admits he hadmits
  have hmem : t ∈ i.tokens := htokens ▸ List.mem_cons_self
  have hstart : i.start < mid.last := by
    rw [Input.start, htokens, hlast]
    exact hi.wide t hmem hmark hstray
  have hmid := (Input.Leaves.next ht).ordered hi
  intro n hn'
  refine Nat.lt_of_lt_of_le hstart (h.starts hg hmid (.joined mid closed) (fun hu => ?_) n hn')
  rw [hn] at hu
  cases hu

end Rule

/-! ### The parts of literals -/

/-- What is below the node starts behind the start of the node. -/
def Node.Leads (n : Node) : Prop := ∀ m ∈ descendantsOf n.children, n.span.start < m.span.start

/-- The parts of the literal start in front of what is below them. -/
def Node.Interpolated (n : Node) : Prop := n.kind = .string → ∀ part ∈ n.children, part.Leads

namespace Grammar

open Rule

variable {left : Left} {i rest : Input} {nodes : List Node}

theorem usesLeft_rule (s : Symbol) : (rule s).usesLeft = false := by
  cases s with
  | binary level => cases level <;> rfl
  | _ => rfl

/-- Literals are put together from tokens and interpolations. -/
def isLiteral : Kind → Option R → Bool
  | .string, some (.seq (.leaf _ _) (.seq (.many (.alt (.leaf _ _)
      (.node _ (.symbol .interpolation)))) (.leaf _ _))) => true
  | .string, _ => false
  | _, _ => true

theorem every_isLiteral_rule (s : Symbol) : (rule s).every isLiteral (fun _ => true) = true := by
  cases s with
  | binary level => exact every_binary rfl rfl (fun _ => rfl) level
  | _ => rfl

theorem leads_of_leaf {kind : Kind} {e : Expect}
    (h : Yields rule (.leaf kind e) left i nodes rest) : ∀ n ∈ nodes, n.Leads := by
  obtain ⟨t, -, rfl⟩ := h.leaf_inv
  intro n hn m hm
  rw [List.mem_singleton.1 hn] at hm
  cases hm

/-- An interpolation starts with a brace. -/
theorem leads_of_interpolation {kind : Kind} (hi : i.Ordered)
    (h : Yields rule (.node kind (.symbol .interpolation)) left i nodes rest) :
    ∀ n ∈ nodes, n.Leads := by
  obtain ⟨ns, hns, rfl⟩ := h.node_inv
  intro n hn
  rw [List.mem_singleton.1 hn]
  exact hns.symbol_inv.starts_behind usesLeft_rule hi rfl rfl

end Grammar

namespace Tree

open Rule Grammar

/-- The parts of a literal start in front of what is below them. -/
theorem interpolated_ofText (t : Text) : Node.All Node.Interpolated (ofText t).root.children := by
  refine all_of_every every_isLiteral_rule ?_ ?_ ?_
  · intro n f hn
    rwa [Node.Interpolated, Node.kind_withField, Node.children_withField]
  · intro kind span children htest hk
    obtain rfl : kind = .string := hk
    cases htest
  · intro kind rule left i nodes rest htest hi h hk
    obtain rfl : kind = .string := hk
    unfold isLiteral at htest
    split at htest
    · rename_i heq
      cases heq
      obtain ⟨mid, closed, opening, others, rfl, hopening, h⟩ := h.seq_inv
      obtain ⟨mid', closed', parts, closing, rfl, hparts, hclosing⟩ := h.seq_inv
      have hmid : Input.Leaves ⟨tokens t, 0⟩ (mid.joined closed) := hi.trans_joined hopening.leaves
      refine List.forall_mem_append.2 ⟨leads_of_leaf hopening, List.forall_mem_append.2
        ⟨hparts.forall_many (fun hi h => ?_) hmid, leads_of_leaf hclosing⟩⟩
      cases h with
      | altFirst h => exact leads_of_leaf h
      | altOther h => exact leads_of_interpolation (hi.ordered (ordered_tokens t)) h
    · cases htest
    · rename_i hne _
      exact absurd rfl hne

end Tree

end Python

open Python (Node)

namespace EngineCall

variable {t : Text} {n : Node} {scope : String} {call : EngineCall}

/-- No part of a literal is itself a call. -/
theorem kind_ne_call_of_literal {ts : List Python.Token} (hs : n.Shaped ts) (hk : n.kind = .string) :
    ∀ part ∈ n.children, part.kind ≠ .call := by
  obtain ⟨first, parts, last, hc, hfirst, hlast, hparts, -⟩ := literal_children hs hk
  rw [hc]
  refine List.forall_mem_cons.2 ⟨by rw [hfirst]; decide, List.forall_mem_append.2 ⟨?_, ?_⟩⟩
  · intro part hpart hcall
    have := hparts part hpart
    rw [hcall] at this
    cases this
  · exact List.forall_mem_singleton.2 (by rw [hlast]; decide)

/-- A call in a literal starts behind the start of its body. -/
theorem start_lt_of_interpolated {body : Span} {m : Node}
    (hs : ∀ k ∈ n.descendants, k.Shaped (Python.tokens t)) (hk : n.kind = .string)
    (hp : n.isPlaced t = true) (hn : n.Interpolated) (h : bodySpan? n = some body)
    (hm : m ∈ Node.descendantsOf n.children) (hcall : m.kind = .call) :
    body.start < m.span.start := by
  obtain ⟨part, hpart, hmpart⟩ := Node.mem_descendantsOf.1 hm
  have hleads := hn hk part hpart
  have hsp := shaped_below hs hpart part part.mem_descendants_self
  have hne := kind_ne_call_of_literal (hs n n.mem_descendants_self) hk part hpart
  have hbelow : m ∈ Node.descendantsOf part.children := by
    rw [Node.descendants_eq] at hmpart
    refine (List.mem_cons.1 hmpart).resolve_left ?_
    rintro rfl
    exact hne hcall
  -- nothing is below the quotation mark in front, and every other part stands behind it
  obtain ⟨opening, parts, closing, hc, hopening, -, rfl⟩ :=
    bodySpan?_cases (hs n n.mem_descendants_self) hk h
  have hplaced := (Node.isPlaced_iff.1 hp).2.2
  rw [hc] at hpart hplaced
  rcases List.mem_cons.1 hpart with rfl | hpart
  · rw [Node.Shaped, hopening] at hsp
    rw [hsp.1] at hbelow
    cases hbelow
  · have hin := Node.mem_descendantsOf.2 ⟨part, hpart, part.mem_descendants_self⟩
    have hbehind := (Node.placed_of_mem_descendantsOf (Node.inOrder_cons.1 hplaced).2.2 hin).2.1
    exact Nat.lt_of_le_of_lt hbehind (hleads m hbelow)

end EngineCall

namespace Document

open EngineCall

variable {d : Document} {call : EngineCall}

theorem interpolated_of_mem {n : Node} (hn : n ∈ d.root.descendants) : n.Interpolated := by
  refine d.forall_descendants (Python.Tree.interpolated_ofText d.text) (fun n hk hstring => ?_) n hn
  rw [hk] at hstring
  cases hstring

/-- A call expression in the literal of a call is not at its start. -/
theorem noCallIn_start (h : call ∈ d.engineCalls) :
    d.NoCallIn call.contentSpan call.contentSpan.start := by
  rintro m hm hk ⟨hlo, hhi⟩ ⟨hstart, hstop⟩
  obtain ⟨⟨scope, n⟩, hn, hcall⟩ := List.mem_filterMap.1 h
  obtain ⟨hs, hp⟩ := shaped_placed_of_mem_withScopes hn
  obtain ⟨literal, hliteral, hkind, hpl, -, hbody⟩ := exists_literal hs hp hcall
  have hroot := Node.descendants_trans (Node.mem_descendants_of_mem_withScopes hn) hliteral
  have hsl := (shaped_placed_of_mem hroot).1
  obtain ⟨hlow, hhigh⟩ := bodySpan?_within hsl hkind hpl hbody
  -- the call is the literal, around it, apart from it or in it
  rcases Node.precedes_of_mem d.isPlaced_root hroot hm with rfl | (hbelow | hbehind) |
    (hbelow | hbehind)
  · rw [hkind] at hk
    cases hk
  · exact absurd (start_lt_of_interpolated hsl hkind hpl (interpolated_of_mem hroot) hbody hbelow hk)
      (Nat.not_lt.2 hstart)
  · omega
  · have hin := (Node.placed_of_mem_descendants (shaped_placed_of_mem hm).2
      (by rw [Node.descendants_eq]; exact List.mem_cons_of_mem _ hbelow)).2
    have := hin.1
    omega
  · omega

/-- At the start of its literal, each call is found. -/
theorem engineCallAt?_start (h : call ∈ d.engineCalls) :
    d.engineCallAt? call.contentSpan.start = some call := by
  obtain ⟨⟨scope, n⟩, hn, hcall⟩ := List.mem_filterMap.1 h
  obtain ⟨hs, hp⟩ := shaped_placed_of_mem_withScopes hn
  exact engineCallAt?_of_mem h ⟨Nat.le_refl _, start_le_stop hp hcall⟩ (noCallIn_start h)

/-! ### The ends of a literal -/

/-- The token that closes a literal stands right behind its body. -/
theorem exists_closing (h : call ∈ d.engineCalls) : ∃ token ∈ Python.tokens d.text,
    token.kind = .stringEnd ∧ token.span.start = call.contentSpan.stop := by
  obtain ⟨⟨scope, n⟩, hn, hcall⟩ := List.mem_filterMap.1 h
  obtain ⟨hs, hp⟩ := shaped_placed_of_mem_withScopes hn
  obtain ⟨literal, hliteral, hkind, -, -, hbody⟩ := exists_literal hs hp hcall
  obtain ⟨opening, parts, closing, hc, -, hclosing, hspan⟩ :=
    bodySpan?_cases (hs literal hliteral) hkind hbody
  have hclose := hs closing (Node.descendants_trans hliteral
    (Node.mem_descendants_of_mem_children (by simp [hc])))
  rw [Node.Shaped, hclosing] at hclose
  obtain ⟨-, token, htoken, hend, hplace⟩ := hclose
  refine ⟨token, htoken, hend, ?_⟩
  rw [hplace, hspan]

/-- Both ends of a literal are firm: a quotation mark stands in front of it and another behind. -/
theorem isFirm_contentSpan (h : call ∈ d.engineCalls) :
    d.text.IsFirm call.contentSpan.start ∧ d.text.IsFirm call.contentSpan.stop := by
  constructor
  · obtain ⟨front, mark, rest, ht, hmark, hstart, -⟩ := quoted_of_mem_engineCalls h
    rw [hstart, ht, show front ++ mark :: (call.content ++ rest) =
      front ++ [mark] ++ (call.content ++ rest) by simp]
    refine Text.isFirm_stop ?_
    rw [List.getLast?_concat]
    rcases hmark with rfl | rfl <;> decide
  · obtain ⟨token, htoken, hend, hstop⟩ := exists_closing h
    obtain ⟨front, mark, rest, ht, hmark, hstart⟩ := Python.closing_of_mem_tokens htoken hend
    rw [← hstop, hstart, ht]
    refine Text.isFirm_start ?_
    rcases hmark with rfl | rfl <;> simp

/-- Literals of different calls are shown at different places. -/
theorem eq_of_positionOf_start {call' : EngineCall} (h : call ∈ d.engineCalls)
    (h' : call' ∈ d.engineCalls)
    (he : d.text.positionOf call.contentSpan.start = d.text.positionOf call'.contentSpan.start) :
    call = call' := by
  have hstart : call.contentSpan.start = call'.contentSpan.start := by
    rw [← Text.offsetOf_positionOf (isFirm_contentSpan h).1, he,
      Text.offsetOf_positionOf (isFirm_contentSpan h').1]
  have hne := d.pairwise_contentSpan.imp fun h => Nat.ne_of_lt h.1
  exact List.inj_on_of_nodup_map (List.pairwise_map.2 hne) h h' hstart

end Document

end RouteScript
