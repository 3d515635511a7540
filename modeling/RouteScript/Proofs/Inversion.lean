import RouteScript.Proofs.Reading

/-!
# What a rule was read from

What a rule yields was put together from what its parts yield.  One lemma for each form of rule
takes a derivation apart, so that the nodes of a concrete rule can be told from its text.

* `Yields.seq_inv`, `Yields.alts_inv` and so on: the parts of a derivation.
* `Yields.chain_inv_once`: a chain that takes one step at most.
* `Yields.forall_many`, `Yields.forall_commas`, `Yields.forall_listedEnd`: what holds of the nodes of
  each repetition.
-/

namespace RouteScript.Python.Rule.Yields

variable {σ : Type} {grammar : σ → Rule σ} {rule first next base steps : Rule σ} {left : Left}
  {whole i rest : Input} {nodes : List Node}

theorem token_inv {e : Expect} (h : Yields grammar (.token e) left i nodes rest) :
    nodes = [] ∧ ∃ t, i.next? e = some (t, rest) := by
  cases h with
  | token h => exact ⟨rfl, _, h⟩

theorem leaf_inv {kind : Kind} {e : Expect} (h : Yields grammar (.leaf kind e) left i nodes rest) :
    ∃ t, i.next? e = some (t, rest) ∧ nodes = [.mk kind none t.span []] := by
  cases h with
  | leaf h => exact ⟨_, h, rfl⟩

theorem symbol_inv {s : σ} (h : Yields grammar (.symbol s) left i nodes rest) :
    Yields grammar (grammar s) left i nodes rest := by
  cases h with
  | symbol h => exact h

theorem seq_inv (h : Yields grammar (.seq first next) left i nodes rest) :
    ∃ mid closed ns ms, nodes = ns ++ ms ∧ Yields grammar first left i ns mid ∧
      Yields grammar next left (mid.joined closed) ms rest := by
  cases h with
  | seq h₁ h₂ => exact ⟨_, _, _, _, rfl, h₁, h₂⟩

/-- A token in front of a rule. -/
theorem seq_token_inv {e : Expect} (h : Yields grammar (.seq (.token e) next) left i nodes rest) :
    ∃ t mid closed, i.next? e = some (t, mid) ∧
      Yields grammar next left (mid.joined closed) nodes rest := by
  obtain ⟨mid, closed, ns, ms, rfl, h₁, h₂⟩ := h.seq_inv
  obtain ⟨rfl, t, ht⟩ := h₁.token_inv
  exact ⟨t, mid, closed, ht, h₂⟩

theorem alts_inv {rules : List (Rule σ)} (h : Yields grammar (alts rules) left i nodes rest) :
    ∃ rule ∈ rules, Yields grammar rule left i nodes rest := by
  induction rules using alts.induct with
  | case1 => cases h
  | case2 rule => exact ⟨rule, List.mem_cons_self, h⟩
  | case3 rule rules hne ih =>
    rw [alts.eq_3 _ _ hne] at h
    cases h with
    | altFirst h => exact ⟨rule, List.mem_cons_self, h⟩
    | altOther h =>
      obtain ⟨r, hr, h⟩ := ih h
      exact ⟨r, List.mem_cons_of_mem _ hr, h⟩

theorem opt_inv (h : Yields grammar (opt rule) left i nodes rest) :
    Yields grammar rule left i nodes rest ∨ nodes = [] ∧ rest = i := by
  cases h with
  | altFirst h => exact .inl h
  | altOther h =>
    cases h
    exact .inr ⟨rfl, rfl⟩

theorem node_inv {kind : Kind} (h : Yields grammar (.node kind rule) left i nodes rest) :
    ∃ ns, Yields grammar rule left i ns rest ∧
      nodes = [.mk kind none ⟨i.start, rest.last⟩ ns] := by
  cases h with
  | node h => exact ⟨_, h, rfl⟩

theorem field_inv {role : Field} (h : Yields grammar (.field role rule) left i nodes rest) :
    ∃ ns, Yields grammar rule left i ns rest ∧ nodes = ns.map (·.withField role) := by
  cases h with
  | field h => exact ⟨_, h, rfl⟩

theorem wrap_inv {test : Node → Bool} {kind : Kind} {role : Option Field}
    (h : Yields grammar (.wrap test kind role rule) left i nodes rest) :
    left.nodes.all test = true ∧ ∃ ns, Yields grammar rule left i ns rest ∧
      nodes = [.mk kind none ⟨left.start, rest.last⟩
        ((role.elim left.nodes fun r => left.nodes.map (·.withField r)) ++ ns)] := by
  cases h with
  | wrap ht h => exact ⟨ht, _, h, rfl⟩

/-- A chain takes one step at most if no step can be taken around what a step yields. -/
theorem chain_inv_once
    (hstop : ∀ {left i ns mid start i' ms rest'}, Yields grammar steps left i ns mid →
      ¬ Yields grammar steps ⟨ns, start⟩ i' ms rest')
    (h : Yields grammar (.chain base steps) left i nodes rest) :
    ∃ mid closed ns, Yields grammar base left i ns mid ∧
      (nodes = ns ∧ rest = mid.joined closed ∨
        ∃ last closed', Yields grammar steps ⟨ns, i.start⟩ (mid.joined closed) nodes last ∧
          rest = last.joined closed') := by
  cases h with
  | @chain _ _ mid _ ns _ _ _ closed h₁ h₂ =>
    refine ⟨mid, closed, ns, h₁, ?_⟩
    cases h₂ with
    | growNone => exact .inl ⟨rfl, rfl⟩
    | growMore h₂ h₃ =>
      cases h₃ with
      | growNone => exact .inr ⟨_, _, h₂, rfl⟩
      | growMore h₃ => exact absurd h₃ (hstop h₂)

/-! ### Repetitions -/

section Repetitions

variable {p : Node → Prop}

theorem forall_many (hrule : ∀ {i ns rest}, whole.Leaves i → Yields grammar rule left i ns rest →
      ∀ n ∈ ns, p n)
    (h : Yields grammar (.many rule) left i nodes rest) (hi : whole.Leaves i) :
    ∀ n ∈ nodes, p n := by
  generalize hr : Rule.many rule = r at h
  induction h with
  | manyNone => exact List.forall_mem_nil _
  | manyMore h₁ _ _ ih =>
    cases hr
    exact List.forall_mem_append.2 ⟨hrule hi h₁, ih hrule (hi.trans_joined h₁.leaves) rfl⟩
  | _ => cases hr

theorem forall_commas (hrule : ∀ {i ns rest}, whole.Leaves i → Yields grammar rule left i ns rest →
      ∀ n ∈ ns, p n)
    (h : Yields grammar (.commas rule) left i nodes rest) (hi : whole.Leaves i) :
    ∀ n ∈ nodes, p n := by
  generalize hr : Rule.commas rule = r at h
  induction h with
  | commasNone | commasLast => exact List.forall_mem_nil _
  | commasMore h₀ h₁ h₂ _ ih =>
    cases hr
    refine List.forall_mem_append.2 ⟨hrule ?_ h₁, ih hrule (.trans_joined ?_ h₁.leaves) rfl⟩ <;>
      exact hi.trans_joined (.next h₀)
  | _ => cases hr

theorem forall_listedEnd
    (hrule : ∀ {i ns rest}, whole.Leaves i → Yields grammar rule left i ns rest → ∀ n ∈ ns, p n)
    (h : Yields grammar (listedEnd rule) left i nodes rest) (hi : whole.Leaves i) :
    ∀ n ∈ nodes, p n := by
  obtain ⟨mid, closed, ns, ms, rfl, h₁, h₂⟩ := h.seq_inv
  exact List.forall_mem_append.2 ⟨hrule hi h₁, h₂.forall_commas hrule (hi.trans_joined h₁.leaves)⟩

end Repetitions

end RouteScript.Python.Rule.Yields
