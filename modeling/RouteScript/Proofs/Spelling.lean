import RouteScript.Proofs.Inversion
import RouteScript.Proofs.Statements

/-!
# The tokens of a node

A node stands where its first token starts and its last one ends, and its text is that of its
tokens with gaps between them.  So a way to read the text that keeps the tokens as they are, as a
whole or without blanks, gives what the tokens spell if and only if it leaves nothing of the gaps.

* `Node.tokensIn`, `Node.spelled`, `gaps`: the tokens of a node, what they spell, and the gaps.
* `Rule.Input.Reads`, `Node.madeOf_of_reads`: the tokens that a rule reads are those of its node.
* `Node.MadeOf.reading_eq_iff`: when a reading of the text gives what the tokens spell.
-/

namespace RouteScript.Python

/-! ### Tokens that follow one another -/

namespace Token.InTurn

variable {low : Nat} {k : Token} {ks : List Token}

theorem sublist {ks' : List Token} (h : InTurn low ks) (hs : ks'.Sublist ks) : InTurn low ks' := by
  induction hs generalizing low with
  | slnil => trivial
  | cons k _ ih => exact ih h.tail
  | cons_cons k _ ih => exact ⟨h.1, h.2.1, ih h.2.2⟩

/-- What comes first ends in front of what comes later. -/
theorem stop_le_of_append {before : List Token} (h : InTurn low (before ++ ks)) {a b : Token}
    (ha : a ∈ before) (hb : b ∈ ks) : a.span.stop ≤ b.span.start := by
  induction before generalizing low with
  | nil => cases ha
  | cons x before ih =>
    rcases List.mem_cons.1 ha with rfl | ha
    · exact (h.2.2.of_mem (List.mem_append_right _ hb)).1
    · exact ih h.2.2 ha

/-- No token goes on behind the last one. -/
theorem stop_le_getLast (h : InTurn low ks) (hk : k ∈ ks) :
    ∃ last ∈ ks.getLast?, k.span.stop ≤ last.span.stop := by
  obtain ⟨before, last, rfl⟩ := (List.eq_nil_or_concat' ks).resolve_left (List.ne_nil_of_mem hk)
  refine ⟨last, by simp, ?_⟩
  rcases List.mem_append.1 hk with hk | hk
  · have hlast := h.of_mem (List.mem_append_right before (List.mem_singleton_self last))
    exact Nat.le_trans (h.stop_le_of_append hk (List.mem_singleton_self last)) hlast.2
  · exact Nat.le_of_eq (by rw [List.mem_singleton.1 hk])

end Token.InTurn

/-! ### What a rule reads -/

namespace Rule.Input

theorem head?_of_next? {i rest : Input} {e : Expect} {k : Token} (h : i.next? e = some (k, rest)) :
    i.tokens.head? = some k := by
  rw [(next?_eq_some h).1]
  rfl

/-- The tokens that are read on the way from one input to another, where line ends may be passed
over. -/
inductive Reads : Input → List Token → Input → Prop where
  | nil {i : Input} : Reads i [] i
  | next {i mid rest : Input} {e : Expect} {k : Token} {ks : List Token} (he : e.isSolid = true)
      (h : i.next? e = some (k, mid)) (hrest : Reads mid ks rest) : Reads i (k :: ks) rest
  | joined {i rest : Input} {closed : Bool} {ks : List Token}
      (h : Reads (i.joined closed) ks rest) : Reads i ks rest

namespace Reads

variable {i mid rest : Input} {ks ks' : List Token}

theorem append (h : Reads i ks mid) (h' : Reads mid ks' rest) : Reads i (ks ++ ks') rest := by
  induction h with
  | nil => exact h'
  | next he h _ ih => exact .next he h (ih h')
  | joined _ ih => exact .joined (ih h')

theorem leaves (h : Reads i ks rest) : i.Leaves rest := by
  induction h with
  | nil => exact .refl _
  | next _ h _ ih => exact (Leaves.next h).trans ih
  | joined _ ih => exact (Leaves.joined ..).trans ih

theorem last_eq (h : Reads i ks rest) :
    rest.last = (ks.getLast?.map (·.span.stop)).getD i.last := by
  induction h with
  | nil => rfl
  | next _ h _ ih =>
    rw [ih, (next?_eq_some h).2.1, List.getLast?_cons]
    cases List.getLast? _ <;> rfl
  | @joined i _ closed _ _ ih =>
    rw [ih]
    cases closed <;> rfl

/-- The tokens that are read are those in between that hold a character. -/
theorem exists_between (h : Reads i ks rest) (hi : i.Ordered) : ∃ between,
    i.tokens = between ++ rest.tokens ∧
      between.filter (fun k => k.span.start < k.span.stop) = ks := by
  induction h with
  | nil => exact ⟨[], rfl, rfl⟩
  | next he h _ ih =>
    obtain ⟨htokens, -, hadmits⟩ := next?_eq_some h
    obtain ⟨hmark, hstray⟩ := Expect.kind_of_admits he hadmits
    have hwide := hi.wide _ (by rw [htokens]; exact List.mem_cons_self) hmark hstray
    obtain ⟨between, hbetween, hks⟩ := ih ((Leaves.next h).ordered hi)
    refine ⟨_ :: between, by rw [htokens, hbetween, List.cons_append], ?_⟩
    rw [List.filter_cons_of_pos (by simpa using hwide), hks]
  | @joined i _ closed _ _ ih =>
    obtain ⟨between, hbetween, hks⟩ := ih ((Leaves.joined i closed).ordered hi)
    cases closed with
    | false => exact ⟨between, hbetween, hks⟩
    | true =>
      -- line ends hold no character
      refine ⟨i.tokens.takeWhile (·.kind == .newline) ++ between, ?_, ?_⟩
      · rw [List.append_assoc, ← hbetween]
        exact List.takeWhile_append_dropWhile.symm
      · rw [List.filter_append, hks, List.filter_eq_nil_iff.2, List.nil_append]
        intro k hk
        have hline : (k.kind == .newline) = true := List.all_eq_true.1 List.all_takeWhile k hk
        rw [hi.bare k ((List.takeWhile_sublist _).subset hk) (.inl (beq_iff_eq.1 hline))]
        simp

end Reads

end Rule.Input

/-! ### The tokens of a node -/

/-- What stands between tokens that follow one another. -/
def gaps (t : Text) : List Token → List Text
  | a :: b :: ks => t.slice ⟨a.span.stop, b.span.start⟩ :: gaps t (b :: ks)
  | _ => []

/-- The token holds a character and lies in the span. -/
def Token.isInside (s : Span) (k : Token) : Bool :=
  decide (s.Encloses k.span) && decide (k.span.start < k.span.stop)

theorem Token.filter_isInside_eq_nil {s : Span} {ks : List Token}
    (h : ∀ k ∈ ks, k.span.stop ≤ s.start ∨ s.stop ≤ k.span.start) : ks.filter (isInside s) = [] := by
  refine List.filter_eq_nil_iff.2 fun k hk hin => ?_
  obtain ⟨hin, hwide⟩ := Bool.and_eq_true_iff.1 hin
  obtain ⟨hlow, hhigh⟩ := of_decide_eq_true hin
  have hwide := of_decide_eq_true hwide
  have := h k hk
  omega

namespace Node

/-- The tokens of the node that hold a character. -/
def tokensIn (t : Text) (n : Node) : List Token := (tokens t).filter (Token.isInside n.span)

/-- What the tokens of the node spell, without what stands between them. -/
def spelled (t : Text) (n : Node) : Text := (n.tokensIn t).flatMap (·.text)

/-- The tokens are those of the node, which starts with the first and ends with the last. -/
structure MadeOf (t : Text) (n : Node) (ks : List Token) : Prop where
  tokensIn_eq : n.tokensIn t = ks
  start : ks.head?.map (·.span.start) = some n.span.start
  stop : ks.getLast?.map (·.span.stop) = some n.span.stop

variable {t : Text} {n : Node} {ks : List Token}

theorem MadeOf.withField (h : n.MadeOf t ks) (f : Field) : (n.withField f).MadeOf t ks := by
  obtain ⟨hks, hstart, hstop⟩ := h
  refine ⟨?_, by rwa [span_withField], by rwa [span_withField]⟩
  rwa [tokensIn, span_withField]

/-- The tokens that are read for a node are its tokens. -/
theorem madeOf_of_reads {i rest : Rule.Input} {k : Token}
    (hi : Rule.Input.Leaves ⟨tokens t, 0⟩ i) (h : i.Reads (k :: ks) rest)
    (hfirst : i.tokens.head? = some k) (hspan : n.span = ⟨i.start, rest.last⟩) :
    n.MadeOf t (k :: ks) := by
  have hordered := hi.ordered (Tree.ordered_tokens t)
  have hstart : i.start = k.span.start := by rw [Rule.Input.start, hfirst]; rfl
  have hlast := h.last_eq
  obtain ⟨before, hbefore : before ++ i.tokens = tokens t⟩ := hi.suffix
  obtain ⟨between, hbetween, hks⟩ := h.exists_between hordered
  have hturn : Token.InTurn i.last (k :: ks) := by
    refine hordered.inTurn.sublist ?_
    rw [← hks, hbetween]
    exact List.filter_sublist.trans (List.sublist_append_left ..)
  refine ⟨?_, by rw [hspan, hstart]; rfl, ?_⟩
  · have hfront : before.filter (Token.isInside n.span) = [] := by
      refine Token.filter_isInside_eq_nil fun b hb => .inl ?_
      have hturn := inTurn_tokens t
      rw [← hbefore] at hturn
      rw [hspan, hstart]
      exact hturn.stop_le_of_append hb (List.mem_of_head? hfirst)
    have hback : rest.tokens.filter (Token.isInside n.span) = [] := by
      refine Token.filter_isInside_eq_nil fun b hb => .inr ?_
      rw [hspan]
      exact ((h.leaves.ordered hordered).inTurn.of_mem hb).1
    have hinside : ∀ b ∈ k :: ks, n.span.Encloses b.span := by
      intro b hb
      obtain ⟨last, hl, hstop⟩ := hturn.stop_le_getLast hb
      rw [hspan, hlast, hl, hstart]
      refine ⟨?_, hstop⟩
      rcases List.mem_cons.1 hb with rfl | hb
      · exact Nat.le_refl _
      · exact Nat.le_trans hturn.2.1 (hturn.2.2.of_mem hb).1
    have hbetween' : between.filter (Token.isInside n.span) = k :: ks := by
      show between.filter (fun k => decide _ && decide _) = _
      rw [← List.filter_filter, hks]
      exact List.filter_eq_self.2 fun b hb => decide_eq_true (hinside b hb)
    rw [tokensIn, ← hbefore, hbetween, List.filter_append, List.filter_append, hfront, hback,
      hbetween', List.nil_append, List.append_nil]
  · rw [hspan, hlast]
    simp [List.getLast?_cons]

/-! ### Reading the text of a node -/

theorem stands_of_mem_tokensIn {k : Token} (h : k ∈ n.tokensIn t) : k.Stands 0 t := by
  obtain ⟨hk, hin⟩ := List.mem_filter.1 h
  refine (stands_of_mem_tokens hk).resolve_left fun hm => ?_
  have hwide := of_decide_eq_true (Bool.and_eq_true_iff.1 hin).2
  rw [size_zero_of_isMark hk hm] at hwide
  exact Nat.lt_irrefl _ hwide

end Node

/-- The text of a token. -/
theorem Token.Stands.slice_eq {t : Text} {k : Token} (h : k.Stands 0 t) :
    t.slice k.span = k.text ∧ t.isBoundary k.span.start = true ∧
      t.isBoundary k.span.stop = true := by
  obtain ⟨front, rest, rfl, hspan, -⟩ := h
  rw [hspan, Nat.zero_add, ← Text.bytes_append]
  refine ⟨Text.slice_append_append .., Text.isBoundary_iff.2 ⟨front, _, rfl, rfl⟩,
    Text.isBoundary_iff.2 ⟨front ++ k.text, rest, ?_, rfl⟩⟩
  rw [List.append_assoc]

section Reading

variable {t : Text} {f : Text → Text}

/-- A reading that goes part by part and keeps the tokens gives more than what they spell just if it
leaves something of the gaps. -/
theorem reading_eq_iff (hf : ∀ a b, f (a ++ b) = f a ++ f b) {ks : List Token} {low start stop : Nat}
    (hturn : Token.InTurn low ks) (hstands : ∀ k ∈ ks, k.Stands 0 t)
    (hkeep : ∀ k ∈ ks, f k.text = k.text) (hstart : ks.head?.map (·.span.start) = some start)
    (hstop : ks.getLast?.map (·.span.stop) = some stop) :
    (ks.flatMap (·.text)).Sublist (f (t.slice ⟨start, stop⟩)) ∧
      (f (t.slice ⟨start, stop⟩) = ks.flatMap (·.text) ↔ ∀ g ∈ gaps t ks, f g = []) := by
  induction ks generalizing low start with
  | nil => cases hstart
  | cons k ks ih =>
    cases hstart
    obtain ⟨hk, hks⟩ := List.forall_mem_cons.1 hstands
    obtain ⟨hkept, hkeeps⟩ := List.forall_mem_cons.1 hkeep
    obtain ⟨htext, hlow, hhigh⟩ := hk.slice_eq
    cases ks with
    | nil =>
      cases hstop
      have hone : t.slice ⟨k.span.start, k.span.stop⟩ = k.text := htext
      simp [gaps, hone, hkept]
    | cons k' ks =>
      rw [List.getLast?_cons_cons] at hstop
      have hfirst : (k' :: ks).head?.map (·.span.start) = some k'.span.start := rfl
      obtain ⟨hsub, hiff⟩ := ih hturn.2.2 hks hkeeps hfirst hstop
      obtain ⟨last, hlast, rfl⟩ := Option.map_eq_some_iff.1 hstop
      obtain ⟨_, hlast', hle⟩ := hturn.2.2.stop_le_getLast List.mem_cons_self
      cases hlast.symm.trans hlast'
      obtain ⟨-, hlow', -⟩ := (hks k' List.mem_cons_self).slice_eq
      obtain ⟨-, -, hend⟩ := (hks last (List.mem_of_getLast? hlast)).slice_eq
      have hsplit : t.slice ⟨k.span.start, last.span.stop⟩ =
          k.text ++ (t.slice ⟨k.span.stop, k'.span.start⟩ ++
            t.slice ⟨k'.span.start, last.span.stop⟩) := by
        rw [← htext, Text.slice_append_slice hhigh hlow' hend hturn.2.2.1
          (Nat.le_trans hturn.2.2.2.1 hle)]
        exact (Text.slice_append_slice hlow hhigh hend hturn.2.1 (Nat.le_trans hturn.2.2.1
          (Nat.le_trans hturn.2.2.2.1 hle))).symm
      rw [hsplit, hf, hf, hkept, List.flatMap_cons]
      refine ⟨(List.Sublist.refl _).append (hsub.trans (List.sublist_append_right ..)), ?_⟩
      rw [List.append_cancel_left_eq, gaps, List.forall_mem_cons, ← hiff]
      constructor
      · intro heq
        have hnil : f (t.slice ⟨k.span.stop, k'.span.start⟩) = [] := by
          have hlength := congrArg List.length heq
          rw [List.length_append] at hlength
          have := hsub.length_le
          exact List.eq_nil_of_length_eq_zero (by omega)
        exact ⟨hnil, by rwa [hnil, List.nil_append] at heq⟩
      · rintro ⟨hnil, heq⟩
        rw [hnil, heq, List.nil_append]

/-- A reading of the text of a node gives what its tokens spell just if it leaves nothing of the
gaps. -/
theorem Node.MadeOf.reading_eq_iff {n : Node} {ks : List Token} (h : n.MadeOf t ks)
    (hf : ∀ a b, f (a ++ b) = f a ++ f b) (hkeep : ∀ k ∈ ks, f k.text = k.text) :
    f (t.slice n.span) = n.spelled t ↔ ∀ g ∈ gaps t ks, f g = [] := by
  have hturn : Token.InTurn 0 ks := by
    rw [← h.tokensIn_eq]
    exact (inTurn_tokens t).sublist List.filter_sublist
  rw [Node.spelled, h.tokensIn_eq]
  refine (Python.reading_eq_iff hf hturn (fun k hk => ?_) hkeep h.start h.stop).2
  rw [← h.tokensIn_eq] at hk
  exact Node.stands_of_mem_tokensIn hk

end Reading

end RouteScript.Python
