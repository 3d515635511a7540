import RouteScript.Analysis.Completing
import RouteScript.Proofs.RangeExtraction

/-!
# The call at an offset

The call whose literal stands at an offset is found on the way from the root down to the offset: it
is the innermost call expression there.  That is the call that a walk over the whole tree lists for
the literal, with the same scope, unless the offset is in a call of an interpolation.  Both ends of
the literal count, since the quotation marks around it are part of the call.

* `mem_pathTo_of_mem_engineCalls`: the way to an offset in a literal leads into its call.
* `engineCallAt?_of_mem`, `cases_of_engineCallAt?`: what is found at an offset is what is listed.
* `Query.typed?_eq`: the literal in front of the offset is the text from its start on.
-/

namespace RouteScript

open Python (Node)

namespace EngineCall

theorem innermostCall?_eq_some_iff {path outer : List Node} {n : Node} :
    innermostCall? path = some (n, outer) ↔
      n.kind = .call ∧ ∃ inner, path = inner ++ n :: outer ∧ ∀ k ∈ inner, k.kind ≠ .call := by
  constructor
  · intro h
    fun_induction innermostCall? path with
    | case1 => cases h
    | case2 m rest hm =>
      cases h
      exact ⟨beq_iff_eq.1 hm, [], rfl, fun k hk => absurd hk List.not_mem_nil⟩
    | case3 m rest hm ih =>
      obtain ⟨hn, inner, rfl, hinner⟩ := ih h
      exact ⟨hn, m :: inner, rfl, List.forall_mem_cons.2 ⟨fun hk => hm (beq_iff_eq.2 hk), hinner⟩⟩
  · rintro ⟨hn, inner, rfl, hinner⟩
    induction inner with
    | nil => exact if_pos (beq_iff_eq.2 hn)
    | cons m inner ih =>
      obtain ⟨hm, hinner⟩ := List.forall_mem_cons.1 hinner
      exact (if_neg fun hk => hm (beq_iff_eq.1 hk)).trans (ih hinner)

/-- Whether a node is a call of the routing engine does not depend on its scope. -/
theorem ofNode?_scope {t : Text} {scope : String} {n : Node} {call : EngineCall}
    (h : ofNode? t scope n = some call) (scope' : String) :
    ofNode? t scope' n = some { call with scope := scope' } := by
  obtain ⟨⟨module, method⟩, hmethod, h⟩ := Option.bind_eq_some_iff.1 h
  obtain ⟨body, hbody, h⟩ := Option.bind_eq_some_iff.1 h
  cases h
  simp only [ofNode?, hmethod, hbody, Option.bind_eq_bind, Option.bind_some]

end EngineCall

namespace Document

open EngineCall

/-- No call expression in the span holds the byte at the offset. -/
def NoCallIn (d : Document) (s : Span) (offset : Nat) : Prop :=
  ∀ n ∈ d.root.descendants, n.kind = .call → s.Encloses n.span → ¬ n.span.Contains offset

instance (d : Document) (s : Span) (offset : Nat) : Decidable (d.NoCallIn s offset) :=
  inferInstanceAs (Decidable (∀ n ∈ d.root.descendants, _ → _ → _))

section Lookup

variable {d : Document} {offset : Nat} {call : EngineCall}

/-- What is found at an offset is read of the innermost call expression there. -/
theorem engineCallAt?_eq_some_iff : d.engineCallAt? offset = some call ↔
    call.contentSpan.Touches offset ∧
      ∃ n inner outer, d.root.pathTo ⟨offset, offset⟩ [] = inner ++ n :: outer ∧
        n.kind = .call ∧ (∀ k ∈ inner, k.kind ≠ .call) ∧
        ofNode? d.text (Node.scopeIn d.text outer) n = some call := by
  simp only [engineCallAt?, Option.bind_eq_bind, Option.bind_eq_some_iff, Prod.exists,
    innermostCall?_eq_some_iff, Option.ite_none_right_eq_some, Option.some.injEq]
  constructor
  · rintro ⟨n, outer, ⟨hn, inner, hpath, hinner⟩, found, hfound, htouches, rfl⟩
    exact ⟨htouches, n, inner, outer, hpath, hn, hinner, hfound⟩
  · rintro ⟨htouches, n, inner, outer, hpath, hn, hinner, hfound⟩
    exact ⟨n, outer, ⟨hn, inner, hpath, hinner⟩, call, hfound, htouches, rfl⟩

/-- What is read of a node on the way to an offset is listed, with the scope it has there. -/
theorem mem_engineCalls_of_path {s : Span} {n : Node} {outer : List Node}
    (hpath : Node.Path s d.root (n :: outer))
    (h : ofNode? d.text (Node.scopeIn d.text outer) n = some call) : call ∈ d.engineCalls := by
  refine (sublist_below hpath).subset (List.mem_filterMap.2 ⟨(Node.scopeIn d.text outer, n), ?_, h⟩)
  rw [Node.withScopes_eq]
  exact List.mem_cons_self

/-- The calls on the way to an offset hold the byte there. -/
theorem contains_of_mem_pathTo {k : Node} (hk : k ∈ d.root.pathTo ⟨offset, offset⟩ [])
    (hcall : k.kind = .call) : k.span.Contains offset := by
  have hpath := d.root.path_root ⟨offset, offset⟩
  have hwide := d.start_lt_of_call (hpath.mem_descendants k hk) hcall
  obtain ⟨inner, outer, hsplit⟩ := List.append_of_mem hk
  rw [hsplit] at hpath
  rcases hpath.of_append.around with ⟨rfl, -⟩ | ⟨hstart, hreach⟩
  · rw [d.kind_root] at hcall
    cases hcall
  · obtain ⟨-, hreach⟩ := Node.reaches_iff.1 hreach
    simp only [Span.size] at hstart hreach
    exact ⟨hstart, by omega⟩

/-- The way to an offset in a literal leads into its call. -/
theorem mem_pathTo_of_mem_engineCalls (h : call ∈ d.engineCalls)
    (htouches : call.contentSpan.Touches offset) : ∃ scope,
      ∃ n ∈ d.root.pathTo ⟨offset, offset⟩ [], ofNode? d.text scope n = some call := by
  obtain ⟨scope, n, hn, hcall, -⟩ := exists_node_of_mem_engineCalls h
  obtain ⟨hs, hp⟩ := shaped_placed_of_mem_withScopes hn
  have hmem := Node.mem_descendants_of_mem_withScopes hn
  obtain ⟨hlow, hhigh⟩ := contentSpan_within hs hp hcall
  obtain ⟨hstart, hstop⟩ := htouches
  have hholds : n.Holds ⟨offset, offset⟩ := by
    simp only [Node.Holds, Span.Contains]
    omega
  rcases Node.mem_pathTo_of_holds d.isPlaced_root hmem hholds with hin | ⟨-, hfirst, -⟩
  · exact ⟨scope, n, hin, hcall⟩
  · -- a quotation mark stands between the start of the call and the offset
    simp only at hfirst
    omega

/-- A listed call is found at the offsets of its literal, but for those of calls inside it. -/
theorem engineCallAt?_of_mem (h : call ∈ d.engineCalls)
    (htouches : call.contentSpan.Touches offset) (hclear : d.NoCallIn call.contentSpan offset) :
    d.engineCallAt? offset = some call := by
  have hpath := d.root.path_root ⟨offset, offset⟩
  obtain ⟨scope, n, hn, hcall⟩ := mem_pathTo_of_mem_engineCalls h htouches
  obtain ⟨inner, outer, hsplit, hfirst⟩ := List.eq_append_cons_of_mem hn
  have hbelow := hpath.pairwise
  rw [hsplit] at hbelow
  obtain ⟨hs, hp⟩ := shaped_placed_of_mem (hpath.mem_descendants n hn)
  have hinner : ∀ k ∈ inner, k.kind ≠ .call := by
    intro k hk hkind
    have hin : k ∈ d.root.pathTo ⟨offset, offset⟩ [] := by
      rw [hsplit]
      exact List.mem_append_left _ hk
    have hbyte := contains_of_mem_pathTo hin hkind
    have hkn := (List.pairwise_append.1 hbelow).2.2 k hk n List.mem_cons_self
    rw [Node.descendants_eq] at hkn
    have hkn := (List.mem_cons.1 hkn).resolve_left fun heq => hfirst (heq ▸ hk)
    rcases apart_or_in_content hs hp hcall hkn hkind with hbehind | hin'
    · exact absurd hbyte.1 (Nat.not_le.2 (Nat.lt_of_le_of_lt htouches.2 hbehind))
    · exact hclear k (hpath.mem_descendants k hin) hkind hin' hbyte
  rw [hsplit] at hpath
  have hfound := ofNode?_scope hcall (Node.scopeIn d.text outer)
  have hlisted := mem_engineCalls_of_path hpath.of_append hfound
  -- calls that start at one place are one
  have hinj := d.pairwise_start.imp Nat.ne_of_lt
  have heq : { call with scope := Node.scopeIn d.text outer } = call :=
    List.inj_on_of_nodup_map (List.pairwise_map.2 hinj) hlisted h rfl
  rw [heq] at hfound
  exact engineCallAt?_eq_some_iff.2
    ⟨htouches, n, inner, outer, hsplit, (ofNode?_cases hs hcall).1, hinner, hfound⟩

/-- What is found at an offset is listed and has its literal there, and no call inside the literal
is at the offset. -/
theorem cases_of_engineCallAt? (h : d.engineCallAt? offset = some call) :
    call ∈ d.engineCalls ∧ call.contentSpan.Touches offset ∧
      d.NoCallIn call.contentSpan offset := by
  obtain ⟨htouches, n, inner, outer, hsplit, hn, hinner, hfound⟩ := engineCallAt?_eq_some_iff.1 h
  have hpath := d.root.path_root ⟨offset, offset⟩
  have hbelow := hpath.pairwise
  have hmem := hpath.mem_descendants
  rw [hsplit] at hpath hbelow hmem
  obtain ⟨-, houter, hinside⟩ := List.pairwise_append.1 hbelow
  have hnroot := hmem n (List.mem_append_right _ List.mem_cons_self)
  obtain ⟨hs, hp⟩ := shaped_placed_of_mem hnroot
  have hwithin := contentSpan_within hs hp hfound
  have hwide := d.start_lt_of_call hnroot hn
  have around : ∀ e ∈ n :: outer, e.span.Encloses n.span := by
    intro e he
    have hpe := (shaped_placed_of_mem (hmem e (List.mem_append_right _ he))).2
    rcases List.mem_cons.1 he with rfl | he
    · exact ⟨Nat.le_refl _, Nat.le_refl _⟩
    · exact (Node.placed_of_mem_descendants hpe ((List.pairwise_cons.1 houter).1 e he)).2
  refine ⟨mem_engineCalls_of_path hpath.of_append hfound, htouches, fun k hk hkind hin hbyte => ?_⟩
  rcases Node.mem_pathTo_of_holds d.isPlaced_root hk (s := ⟨offset, offset⟩)
    ⟨hbyte, Nat.le_of_lt hbyte.2⟩ with hk | ⟨-, -, e, he, hstart, hstop⟩
  · -- a call of the way is the innermost one or around it, and so not in its literal
    rw [hsplit] at hk
    rcases List.mem_append.1 hk with hk | hk
    · exact hinner k hk hkind
    · have := around k hk
      simp only [Span.Encloses] at this hin
      omega
  · -- only a block is empty, and none is part of a call
    rw [hsplit] at he
    simp only at hstart hstop
    rcases List.mem_append.1 he with he | he
    · have hen := hinside e he n List.mem_cons_self
      rw [Node.descendants_eq] at hen
      rcases List.mem_cons.1 hen with rfl | hen
      · omega
      · have hplain := d.plain_of_call hnroot hn hen
        have hin := Node.descendantsOf_trans (d.mem_children_of_call hnroot hn)
          (by rw [Node.descendants_eq]; exact List.mem_cons_of_mem n hen : e ∈ n.descendants)
        have := d.filled_of_mem_children e hin hplain.2
        omega
    · have := around e he
      simp only [Span.Encloses] at this
      omega

end Lookup

end Document

/-- The literal up to the offset is the text from its start on. -/
theorem Query.typed?_eq {q : Query} {call : EngineCall} {typed : Text}
    (hcall : call ∈ q.document.engineCalls) (hstart : call.contentSpan.start ≤ q.offset)
    (h : q.typed? call = some typed) :
    typed = q.document.text.slice ⟨call.contentSpan.start, q.offset⟩ := by
  obtain ⟨front, mark, rest, htext, -, hcontent, -⟩ := Document.quoted_of_mem_engineCalls hcall
  simp only [typed?, Text.front?, Option.ite_none_right_eq_some, Option.some.injEq] at h
  obtain ⟨hboundary, rfl⟩ := h
  obtain ⟨body, others, hbody, hsize⟩ := Text.isBoundary_iff.1 hboundary
  have hoffset : q.offset = Text.bytes (front ++ [mark] ++ body) := by
    rw [Text.bytes_append, ← hcontent, hsize]
    omega
  have hsplit : q.document.text = front ++ [mark] ++ (body ++ (others ++ rest)) := by
    rw [htext, hbody]
    simp only [List.append_assoc, List.cons_append, List.nil_append]
  rw [← hsize, hbody, Text.takeBytes_bytes_append, hcontent, hoffset, hsplit,
    Text.slice_append_append]

namespace Document

/-- **The call at an offset.**  A call is found at an offset if and only if it is one of those of the
document, its literal is there, both ends included, and the offset is in no call expression inside
the literal.  So the offset is not in front of the literal, and what was typed of it is the text from
its start to the offset. -/
theorem engineCallAt?_agrees (d : Document) (offset : Nat) (call : EngineCall) :
    (d.engineCallAt? offset = some call ↔ call ∈ d.engineCalls ∧
      call.contentSpan.Touches offset ∧ d.NoCallIn call.contentSpan offset) ∧
    (Query.engineCall? ⟨d, offset⟩ = some call →
      call.contentSpan.start + (offset - call.contentSpan.start) = offset ∧
      ∀ typed, Query.typed? ⟨d, offset⟩ call = some typed →
        typed = d.text.slice ⟨call.contentSpan.start, offset⟩) := by
  refine ⟨⟨cases_of_engineCallAt?, fun ⟨h, htouches, hclear⟩ =>
    engineCallAt?_of_mem h htouches hclear⟩, fun hfound => ?_⟩
  obtain ⟨hcall, ⟨hstart, -⟩, -⟩ := cases_of_engineCallAt? hfound
  exact ⟨Nat.add_sub_of_le hstart, fun typed => Query.typed?_eq hcall hstart⟩

/-- A literal with a call in it, whose own literal is empty. -/
def callInLiteral : Document :=
  .ofText "u:a" "def f():\n    KSR.pv.get(f\"$var(\x7bKSR.x.y('')\x7d)\")\n".toList 1

/-- Each of both calls is found where its literal ends. -/
theorem engineCallAt?_callInLiteral :
    callInLiteral.engineCalls.map (fun call => (call.contentSpan, call.scope)) =
      [(⟨26, 45⟩, "f"), (⟨41, 41⟩, "f")] ∧
    ∀ call ∈ callInLiteral.engineCalls,
      callInLiteral.engineCallAt? call.contentSpan.stop = some call := by
  refine ⟨by decide +kernel, fun call hcall => ?_⟩
  have hclear : ∀ call ∈ callInLiteral.engineCalls,
      call.contentSpan.Touches call.contentSpan.stop ∧
        callInLiteral.NoCallIn call.contentSpan call.contentSpan.stop := by
    decide +kernel
  exact (engineCallAt?_agrees ..).1.2 ⟨hcall, hclear call hcall⟩

end Document

end RouteScript
