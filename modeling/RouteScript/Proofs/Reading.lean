import Mathlib.Data.List.Basic
import RouteScript.Proofs.TokenOrder
import RouteScript.Python.Rule

/-!
# What a rule reads

Reading a rule, whatever the fuel and the line ends that are blank, is a derivation: what is read
and what it yields is put together from the parts of the rule.

* `Rule.Yields`, `Rule.yields_of_read`: the derivations, and that reading is one.
* `Rule.Yields.leaves`: the tokens that are left follow one another behind what was read.
* `Rule.takes`, `Rule.Yields.passes`: a rule that passes a check reads a token that is not empty.
-/

namespace RouteScript.Python

namespace Rule

variable {σ : Type}

/-- The rule yields the nodes from the front of the first input, behind what is to its left, and
leaves the second input. -/
inductive Yields (grammar : σ → Rule σ) : Rule σ → Left → Input → List Node → Input → Prop where
  | empty {left : Left} {i : Input} : Yields grammar .empty left i [] i
  | token {left : Left} {i rest : Input} {e : Expect} {t : Token}
      (h : i.next? e = some (t, rest)) : Yields grammar (.token e) left i [] rest
  | leaf {left : Left} {i rest : Input} {kind : Kind} {e : Expect} {t : Token}
      (h : i.next? e = some (t, rest)) :
      Yields grammar (.leaf kind e) left i [.mk kind none t.span []] rest
  | symbol {left : Left} {i rest : Input} {nodes : List Node} {s : σ}
      (h : Yields grammar (grammar s) left i nodes rest) :
      Yields grammar (.symbol s) left i nodes rest
  | seq {left : Left} {i mid rest : Input} {nodes more : List Node} {first next : Rule σ}
      {closed : Bool} (h₁ : Yields grammar first left i nodes mid)
      (h₂ : Yields grammar next left (mid.joined closed) more rest) :
      Yields grammar (.seq first next) left i (nodes ++ more) rest
  | altFirst {left : Left} {i rest : Input} {nodes : List Node} {first other : Rule σ}
      (h : Yields grammar first left i nodes rest) :
      Yields grammar (.alt first other) left i nodes rest
  | altOther {left : Left} {i rest : Input} {nodes : List Node} {first other : Rule σ}
      (h : Yields grammar other left i nodes rest) :
      Yields grammar (.alt first other) left i nodes rest
  | manyNone {left : Left} {i : Input} {rule : Rule σ} : Yields grammar (.many rule) left i [] i
  | manyMore {left : Left} {i mid rest : Input} {nodes more : List Node} {rule : Rule σ}
      {closed : Bool} (h₁ : Yields grammar rule left i nodes mid)
      (h₂ : Yields grammar (.many rule) left (mid.joined closed) more rest) :
      Yields grammar (.many rule) left i (nodes ++ more) rest
  | commasNone {left : Left} {i : Input} {rule : Rule σ} :
      Yields grammar (.commas rule) left i [] i
  | commasLast {left : Left} {i rest : Input} {e : Expect} {t : Token} {rule : Rule σ}
      (h : i.next? e = some (t, rest)) : Yields grammar (.commas rule) left i [] rest
  | commasMore {left : Left} {i first mid rest : Input} {e : Expect} {t : Token}
      {nodes more : List Node} {rule : Rule σ} {closed : Bool} (h : i.next? e = some (t, first))
      (h₁ : Yields grammar rule left (first.joined closed) nodes mid)
      (h₂ : Yields grammar (.commas rule) left (mid.joined closed) more rest) :
      Yields grammar (.commas rule) left i (nodes ++ more) rest
  | node {left : Left} {i rest : Input} {nodes : List Node} {kind : Kind} {rule : Rule σ}
      (h : Yields grammar rule left i nodes rest) :
      Yields grammar (.node kind rule) left i [.mk kind none ⟨i.start, rest.last⟩ nodes] rest
  | field {left : Left} {i rest : Input} {nodes : List Node} {role : Field} {rule : Rule σ}
      (h : Yields grammar rule left i nodes rest) :
      Yields grammar (.field role rule) left i (nodes.map (·.withField role)) rest
  | check {left : Left} {i rest : Input} {nodes : List Node} {test : Node → Bool} {rule : Rule σ}
      (ht : nodes.all test = true) (h : Yields grammar rule left i nodes rest) :
      Yields grammar (.check test rule) left i nodes rest
  | chain {left : Left} {i mid rest : Input} {nodes more : List Node} {base steps : Rule σ}
      {closed : Bool} (h₁ : Yields grammar base left i nodes mid)
      (h₂ : Yields grammar (.grow steps) ⟨nodes, i.start⟩ (mid.joined closed) more rest) :
      Yields grammar (.chain base steps) left i more rest
  | growNone {left : Left} {i : Input} {steps : Rule σ} :
      Yields grammar (.grow steps) left i left.nodes i
  | growMore {left : Left} {i mid rest : Input} {nodes more : List Node} {steps : Rule σ}
      {closed : Bool} (h₁ : Yields grammar steps left i nodes mid)
      (h₂ : Yields grammar (.grow steps) ⟨nodes, left.start⟩ (mid.joined closed) more rest) :
      Yields grammar (.grow steps) left i more rest
  | fork {left : Left} {i mid rest : Input} {nodes more : List Node} {common ends : Rule σ}
      (h₁ : Yields grammar common left i nodes mid)
      (h₂ : Yields grammar ends ⟨nodes, i.start⟩ (mid.joined true) more rest) :
      Yields grammar (.fork common ends) left i more rest
  | wrap {left : Left} {i rest : Input} {nodes : List Node} {test : Node → Bool} {kind : Kind}
      {role : Option Field} {rule : Rule σ} (ht : left.nodes.all test = true)
      (h : Yields grammar rule left i nodes rest) :
      Yields grammar (.wrap test kind role rule) left i
        [.mk kind none ⟨left.start, rest.last⟩
          ((role.elim left.nodes fun r => left.nodes.map (·.withField r)) ++ nodes)] rest

/-- Reading a rule is a derivation. -/
theorem yields_of_read {grammar : σ → Rule σ} {fuel : Nat} {rule : Rule σ} {inside : Bool}
    {left : Left} {i rest : Input} {nodes : List Node}
    (h : read grammar fuel rule inside left i = some (nodes, rest)) :
    Yields grammar rule left i nodes rest := by
  induction fuel generalizing rule inside left i nodes rest with
  | zero => cases h
  | succ fuel ih =>
    -- one case for each form of rule
    rw [read.eq_def] at h
    simp only at h
    split at h
    · cases h
      exact .empty
    · cases h
    · obtain ⟨⟨t, rest⟩, ht, he⟩ := Option.map_eq_some_iff.1 h
      cases he
      exact .token ht
    · obtain ⟨⟨t, rest⟩, ht, he⟩ := Option.map_eq_some_iff.1 h
      cases he
      exact .leaf ht
    · exact .symbol (ih h)
    · obtain ⟨⟨first, i₁⟩, h₁, h⟩ := Option.bind_eq_some_iff.1 h
      obtain ⟨⟨more, i₂⟩, h₂, h⟩ := Option.bind_eq_some_iff.1 h
      cases h
      exact .seq (ih h₁) (ih h₂)
    · split at h
      · rename_i hr
        cases h
        exact .altFirst (ih hr)
      · exact .altOther (ih h)
    · split at h
      · cases h
        exact .manyNone
      · rename_i h₁
        obtain ⟨⟨more, i₂⟩, h₂, h⟩ := Option.bind_eq_some_iff.1 h
        cases h
        exact .manyMore (ih h₁) (ih h₂)
    · split at h
      · cases h
        exact .commasNone
      · rename_i h₀
        split at h
        · cases h
          exact .commasLast h₀
        · rename_i h₁
          obtain ⟨⟨more, i₂⟩, h₂, h⟩ := Option.bind_eq_some_iff.1 h
          cases h
          exact .commasMore h₀ (ih h₁) (ih h₂)
    · obtain ⟨⟨inner, i₁⟩, h₁, h⟩ := Option.bind_eq_some_iff.1 h
      cases h
      exact .node (ih h₁)
    · obtain ⟨⟨inner, i₁⟩, h₁, h⟩ := Option.bind_eq_some_iff.1 h
      cases h
      exact .field (ih h₁)
    · obtain ⟨⟨inner, i₁⟩, h₁, h⟩ := Option.bind_eq_some_iff.1 h
      simp only at h
      split at h
      · rename_i htest
        cases h
        exact .check htest (ih h₁)
      · cases h
    · obtain ⟨⟨base, i₁⟩, h₁, h₂⟩ := Option.bind_eq_some_iff.1 h
      exact .chain (ih h₁) (ih h₂)
    · split at h
      · cases h
        exact .growNone
      · rename_i h₁
        exact .growMore (ih h₁) (ih h)
    · obtain ⟨⟨common, i₁⟩, h₁, h₂⟩ := Option.bind_eq_some_iff.1 h
      exact .fork (ih h₁) (ih h₂)
    · rename_i role _
      split at h
      · rename_i htest
        obtain ⟨⟨inner, i₁⟩, h₁, h⟩ := Option.bind_eq_some_iff.1 h
        cases h
        cases role with
        | none => exact .wrap htest (ih h₁)
        | some role => exact .wrap htest (ih h₁)
      · cases h

/-! ### What is left -/

theorem Input.next?_eq_some {i rest : Input} {e : Expect} {t : Token}
    (h : i.next? e = some (t, rest)) :
    i.tokens = t :: rest.tokens ∧ rest.last = t.span.stop ∧
      e.admits (t :: rest.tokens) = true := by
  unfold next? at h
  split at h
  · rename_i t more heq
    split at h
    · rename_i he
      cases h
      exact ⟨heq, rfl, he⟩
    · cases h
  · cases h

/-- The tokens follow one another behind what was read last, marks are empty, and tokens that are
neither marks nor stray are not. -/
structure Input.Ordered (i : Input) : Prop where
  inTurn : Token.InTurn i.last i.tokens
  wide : ∀ t ∈ i.tokens, ¬ Layout.IsMark t → t.kind ≠ .stray → t.span.start < t.span.stop
  bare : ∀ t ∈ i.tokens, Layout.IsMark t → t.span.start = t.span.stop

/-- The second input is what is left of the first when some tokens have been read. -/
structure Input.Leaves (i rest : Input) : Prop where
  suffix : rest.tokens <:+ i.tokens
  inTurn : Token.InTurn i.last i.tokens → i.last ≤ rest.last ∧ Token.InTurn rest.last rest.tokens

namespace Input.Leaves

variable {i mid rest : Input}

theorem subset (h : i.Leaves rest) : rest.tokens ⊆ i.tokens := h.suffix.subset

theorem refl (i : Input) : i.Leaves i := ⟨List.suffix_refl _, fun h => ⟨Nat.le_refl _, h⟩⟩

theorem trans (h₁ : i.Leaves mid) (h₂ : mid.Leaves rest) : i.Leaves rest := by
  refine ⟨h₂.suffix.trans h₁.suffix, fun h => ?_⟩
  obtain ⟨hle₁, hmid⟩ := h₁.inTurn h
  obtain ⟨hle₂, hrest⟩ := h₂.inTurn hmid
  exact ⟨Nat.le_trans hle₁ hle₂, hrest⟩

theorem next {e : Expect} {t : Token} (h : i.next? e = some (t, rest)) : i.Leaves rest := by
  obtain ⟨htokens, hlast, -⟩ := next?_eq_some h
  refine ⟨?_, ?_⟩
  · rw [htokens]
    exact List.suffix_cons ..
  · rw [htokens, hlast]
    exact fun ⟨hlow, hle, hrest⟩ => ⟨Nat.le_trans hlow hle, hrest⟩

theorem joined (i : Input) (closed : Bool) : i.Leaves (i.joined closed) := by
  unfold Input.joined
  split
  · refine ⟨List.dropWhile_suffix _, fun h => ⟨Nat.le_refl _, ?_⟩⟩
    generalize i.tokens = ts at h
    induction ts with
    | nil => trivial
    | cons t ts ih =>
      rw [List.dropWhile_cons]
      split
      · exact ih h.tail
      · exact h
  · exact refl i

theorem trans_joined (h₁ : i.Leaves mid) (h₂ : mid.Leaves rest) {closed : Bool} :
    i.Leaves (rest.joined closed) := h₁.trans (h₂.trans (.joined rest closed))

theorem last_le (h : i.Leaves rest) (hi : i.Ordered) : i.last ≤ rest.last := (h.inTurn hi.inTurn).1

theorem ordered (h : i.Leaves rest) (hi : i.Ordered) : rest.Ordered :=
  ⟨(h.inTurn hi.inTurn).2, fun t ht => hi.wide t (h.subset ht),
    fun t ht => hi.bare t (h.subset ht)⟩

theorem ordered_joined (h : i.Leaves rest) (hi : i.Ordered) {closed : Bool} :
    (rest.joined closed).Ordered := (h.trans (.joined rest closed)).ordered hi

end Input.Leaves

section Yields

variable {grammar : σ → Rule σ} {rule : Rule σ} {left : Left} {i rest : Input} {nodes : List Node}

theorem Yields.leaves (h : Yields grammar rule left i nodes rest) : i.Leaves rest := by
  induction h with
  | empty | manyNone | commasNone | growNone => exact .refl _
  | token h | leaf h | commasLast h => exact .next h
  | symbol _ ih | altFirst _ ih | altOther _ ih | node _ ih | field _ ih | check _ _ ih
  | wrap _ _ ih => exact ih
  | seq _ _ ih₁ ih₂ | manyMore _ _ ih₁ ih₂ | chain _ _ ih₁ ih₂ | growMore _ _ ih₁ ih₂
  | fork _ _ ih₁ ih₂ => exact (ih₁.trans (.joined ..)).trans ih₂
  | commasMore h _ _ ih₁ ih₂ =>
    have hfirst := ((Input.Leaves.next h).trans (.joined ..)).trans ih₁
    exact (hfirst.trans (.joined ..)).trans ih₂

end Yields

end Rule

/-! ### Rules that read something -/

/-- What is asked for is neither a mark of the layout nor a stray character. -/
def Expect.isSolid : Expect → Bool
  | .kind k => k != .newline && k != .indent && k != .dedent && k != .stray
  | _ => true

theorem Expect.kind_of_spells {spelling : Text} {t : Token} (h : spells spelling t = true) :
    t.kind = .word ∨ t.kind = .operator := by
  simp only [spells, Bool.and_eq_true, Bool.or_eq_true, beq_iff_eq] at h
  exact h.1

/-- What is asked for then is no mark and not stray. -/
theorem Expect.kind_of_admits {e : Expect} {t : Token} {next : List Token}
    (he : e.isSolid = true) (h : e.admits (t :: next) = true) :
    ¬ Layout.IsMark t ∧ t.kind ≠ .stray := by
  have hsolid : t.kind = .word ∨ t.kind = .operator → ¬ Layout.IsMark t ∧ t.kind ≠ .stray := by
    rintro (hk | hk) <;> simp [Layout.IsMark, hk]
  cases e with
  | text spelling => exact hsolid (kind_of_spells h)
  | kind k =>
    obtain rfl := beq_iff_eq.1 h
    simp only [isSolid, Bool.and_eq_true, bne_iff_ne] at he
    simp [Layout.IsMark, he]
  | identifier => exact hsolid (.inl (beq_iff_eq.1 (Bool.and_eq_true_iff.1 h).1))
  | leading spelling => exact hsolid (kind_of_spells (Bool.and_eq_true_iff.1 h).1)
  | verb spelling => exact hsolid (kind_of_spells (Bool.and_eq_true_iff.1 h).1)

namespace Rule

variable {σ : Type}

/-- The rule reads a token that is not empty, as every symbol does. -/
def takes : Rule σ → Bool
  | token e | leaf _ e => e.isSolid
  | symbol _ | fail => true
  | seq first next => first.takes || next.takes
  | alt first other => first.takes && other.takes
  | node _ rule | field _ rule | check _ rule | wrap _ _ _ rule => rule.takes
  | chain base _ => base.takes
  | fork common ends => common.takes || ends.takes
  | empty | many _ | commas _ | grow _ => false

/-- A token that is not empty has been read. -/
def Input.Passes (i rest : Input) : Prop :=
  ∃ t ∈ i.tokens, t.span.start < t.span.stop ∧ t.span.stop ≤ rest.last

section Takes

variable {grammar : σ → Rule σ} {rule : Rule σ} {left : Left} {i mid rest : Input}
  {nodes : List Node}

theorem Input.Passes.next {e : Expect} {t : Token} (hi : i.Ordered) (he : e.isSolid = true)
    (h : i.next? e = some (t, rest)) : i.Passes rest := by
  obtain ⟨htokens, hlast, hadmits⟩ := Input.next?_eq_some h
  obtain ⟨hmark, hstray⟩ := Expect.kind_of_admits he hadmits
  have ht : t ∈ i.tokens := by
    rw [htokens]
    exact List.mem_cons_self
  exact ⟨t, ht, hi.wide t ht hmark hstray, Nat.le_of_eq hlast.symm⟩

theorem Input.Passes.mono_right (h : i.Passes mid) (hle : mid.last ≤ rest.last) :
    i.Passes rest := by
  obtain ⟨t, ht, hwide, hstop⟩ := h
  exact ⟨t, ht, hwide, Nat.le_trans hstop hle⟩

theorem Input.Passes.mono_left (h : mid.Passes rest) (hi : i.Leaves mid) : i.Passes rest := by
  obtain ⟨t, ht, hwide⟩ := h
  exact ⟨t, hi.subset ht, hwide⟩

/-- What was read is not empty. -/
theorem Input.Passes.start_lt (h : i.Passes rest) (hi : i.Ordered) : i.start < rest.last := by
  obtain ⟨t, ht, hwide, hstop⟩ := h
  refine Nat.lt_of_le_of_lt ?_ (Nat.lt_of_lt_of_le hwide hstop)
  have hinTurn := hi.inTurn
  unfold Input.start
  cases htokens : i.tokens with
  | nil =>
    rw [htokens] at ht
    cases ht
  | cons s ts =>
    rw [htokens] at ht hinTurn
    rcases List.mem_cons.1 ht with rfl | ht
    · exact Nat.le_refl _
    · exact Nat.le_trans hinTurn.2.1 (hinTurn.2.2.of_mem ht).1

/-- A rule of two parts reads something if one of the parts does. -/
theorem Input.Passes.of_parts {closed first next : Bool} (hi : i.Ordered) (h₁ : i.Leaves mid)
    (h₂ : (mid.joined closed).Leaves rest) (hr : (first || next) = true)
    (hfirst : first = true → i.Passes mid)
    (hnext : (mid.joined closed).Ordered → next = true → (mid.joined closed).Passes rest) :
    i.Passes rest := by
  rcases Bool.or_eq_true_iff.1 hr with hr | hr
  · refine (hfirst hr).mono_right ?_
    exact ((Input.Leaves.joined mid closed).trans h₂).last_le (h₁.ordered hi)
  · exact (hnext (h₁.ordered_joined hi) hr).mono_left (h₁.trans (.joined mid closed))

/-- A rule that passes the check reads a token that is not empty. -/
theorem Yields.passes (hg : ∀ s, (grammar s).takes = true)
    (h : Yields grammar rule left i nodes rest) (hi : i.Ordered) (hr : rule.takes = true) :
    i.Passes rest := by
  induction h with
  | empty | manyNone | manyMore | commasNone | commasLast | commasMore | growNone | growMore =>
    cases hr
  | token h | leaf h => exact .next hi hr h
  | symbol _ ih => exact ih hi (hg _)
  | altFirst _ ih => exact ih hi (Bool.and_eq_true_iff.1 hr).1
  | altOther _ ih => exact ih hi (Bool.and_eq_true_iff.1 hr).2
  | node _ ih | field _ ih | check _ _ ih | wrap _ _ ih => exact ih hi hr
  | seq h₁ h₂ ih₁ ih₂ | fork h₁ h₂ ih₁ ih₂ => exact .of_parts hi h₁.leaves h₂.leaves hr (ih₁ hi) ih₂
  | chain h₁ h₂ ih₁ _ =>
    refine (ih₁ hi hr).mono_right ?_
    exact ((Input.Leaves.joined ..).trans h₂.leaves).last_le (h₁.leaves.ordered hi)

end Takes

end Rule

end RouteScript.Python
