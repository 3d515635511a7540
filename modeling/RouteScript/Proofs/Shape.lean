import Mathlib.Data.List.Basic
import RouteScript.Proofs.DocumentOrder
import RouteScript.Proofs.Reading
import RouteScript.Python.Tree

/-!
# Shapes of nodes

What a rule yields is a derivation in the grammar, whatever the places of the tokens.  By induction
on derivations a grammar that passes a check over its rules only builds nodes of certain shapes.

* `Rule.Derives`, `Rule.derives_of_yields`: derivations, and that what a rule yields is one.
* `Rule.isSingle`, `Rule.single_of_derives`: rules that yield one node, which has no role yet.
* `Rule.yieldsOnly`, `Rule.kind_of_derives`: rules that yield nodes of certain kinds only.
* `Node.Shaped`, `Rule.isShapely`, `Rule.shaped_of_derives`: the shapes and the check.
* `Tree.shaped_ofText`, `Tree.shaped_ofText_of_hasError`: the nodes of the tree of a module have
  their shapes, whatever is recovered from other texts; where nothing is, all trees are such.
-/

namespace RouteScript.Python

namespace Rule

variable {σ : Type}

/-- The rule may yield the nodes from some of the tokens `ts`, behind the nodes `left`. -/
inductive Derives (grammar : σ → Rule σ) (ts : List Token) :
    Rule σ → (left nodes : List Node) → Prop where
  | empty {left : List Node} : Derives grammar ts .empty left []
  | token {left : List Node} {e : Expect} : Derives grammar ts (.token e) left []
  | leaf {left : List Node} {kind : Kind} {e : Expect} {t : Token} {rest : List Token}
      (ht : t ∈ ts) (he : e.admits (t :: rest) = true) :
      Derives grammar ts (.leaf kind e) left [.mk kind none t.span []]
  | symbol {left nodes : List Node} {s : σ} (h : Derives grammar ts (grammar s) left nodes) :
      Derives grammar ts (.symbol s) left nodes
  | seq {left nodes more : List Node} {first next : Rule σ}
      (h₁ : Derives grammar ts first left nodes) (h₂ : Derives grammar ts next left more) :
      Derives grammar ts (.seq first next) left (nodes ++ more)
  | altFirst {left nodes : List Node} {first other : Rule σ}
      (h : Derives grammar ts first left nodes) : Derives grammar ts (.alt first other) left nodes
  | altOther {left nodes : List Node} {first other : Rule σ}
      (h : Derives grammar ts other left nodes) : Derives grammar ts (.alt first other) left nodes
  | manyNone {left : List Node} {rule : Rule σ} : Derives grammar ts (.many rule) left []
  | manyMore {left nodes more : List Node} {rule : Rule σ} (h₁ : Derives grammar ts rule left nodes)
      (h₂ : Derives grammar ts (.many rule) left more) :
      Derives grammar ts (.many rule) left (nodes ++ more)
  | commasNone {left : List Node} {rule : Rule σ} : Derives grammar ts (.commas rule) left []
  | commasMore {left nodes more : List Node} {rule : Rule σ}
      (h₁ : Derives grammar ts rule left nodes) (h₂ : Derives grammar ts (.commas rule) left more) :
      Derives grammar ts (.commas rule) left (nodes ++ more)
  | node {left nodes : List Node} {kind : Kind} {rule : Rule σ} (span : Span)
      (h : Derives grammar ts rule left nodes) :
      Derives grammar ts (.node kind rule) left [.mk kind none span nodes]
  | field {left nodes : List Node} {role : Field} {rule : Rule σ}
      (h : Derives grammar ts rule left nodes) :
      Derives grammar ts (.field role rule) left (nodes.map (·.withField role))
  | check {left nodes : List Node} {test : Node → Bool} {rule : Rule σ}
      (ht : nodes.all test = true) (h : Derives grammar ts rule left nodes) :
      Derives grammar ts (.check test rule) left nodes
  | chain {left nodes more : List Node} {base steps : Rule σ}
      (h₁ : Derives grammar ts base left nodes) (h₂ : Derives grammar ts (.grow steps) nodes more) :
      Derives grammar ts (.chain base steps) left more
  | growNone {left : List Node} {steps : Rule σ} : Derives grammar ts (.grow steps) left left
  | growMore {left nodes more : List Node} {steps : Rule σ}
      (h₁ : Derives grammar ts steps left nodes)
      (h₂ : Derives grammar ts (.grow steps) nodes more) :
      Derives grammar ts (.grow steps) left more
  | fork {left nodes more : List Node} {common ends : Rule σ}
      (h₁ : Derives grammar ts common left nodes) (h₂ : Derives grammar ts ends nodes more) :
      Derives grammar ts (.fork common ends) left more
  | wrap {left nodes : List Node} {test : Node → Bool} {kind : Kind} {role : Option Field}
      {rule : Rule σ} (span : Span) (ht : left.all test = true)
      (h : Derives grammar ts rule left nodes) :
      Derives grammar ts (.wrap test kind role rule) left
        [.mk kind none span ((role.elim left fun r => left.map (·.withField r)) ++ nodes)]

/-- What a rule yields from some of the tokens is a derivation. -/
theorem derives_of_yields {grammar : σ → Rule σ} {ts : List Token} {rule : Rule σ} {left : Left}
    {i rest : Input} {nodes : List Node} (h : Yields grammar rule left i nodes rest)
    (hi : i.tokens ⊆ ts) : Derives grammar ts rule left.nodes nodes := by
  have behind : ∀ {i mid : Input} {closed : Bool}, i.Leaves mid → i.tokens ⊆ ts →
      (mid.joined closed).tokens ⊆ ts := fun hmid hi =>
    List.Subset.trans (hmid.trans (.joined ..)).subset hi
  induction h with
  | empty => exact .empty
  | token => exact .token
  | leaf h =>
    obtain ⟨htokens, -, hadmits⟩ := Input.next?_eq_some h
    refine .leaf (hi ?_) hadmits
    rw [htokens]
    exact List.mem_cons_self
  | symbol _ ih => exact .symbol (ih hi)
  | seq h₁ _ ih₁ ih₂ => exact .seq (ih₁ hi) (ih₂ (behind h₁.leaves hi))
  | altFirst _ ih => exact .altFirst (ih hi)
  | altOther _ ih => exact .altOther (ih hi)
  | manyNone => exact .manyNone
  | manyMore h₁ _ ih₁ ih₂ => exact .manyMore (ih₁ hi) (ih₂ (behind h₁.leaves hi))
  | commasNone | commasLast => exact .commasNone
  | commasMore h h₁ _ ih₁ ih₂ =>
    refine .commasMore (ih₁ ?_) (ih₂ (behind h₁.leaves ?_)) <;> exact behind (.next h) hi
  | node _ ih => exact .node _ (ih hi)
  | field _ ih => exact .field (ih hi)
  | check ht _ ih => exact .check ht (ih hi)
  | chain h₁ _ ih₁ ih₂ => exact .chain (ih₁ hi) (ih₂ (behind h₁.leaves hi))
  | growNone => exact .growNone
  | growMore h₁ _ ih₁ ih₂ => exact .growMore (ih₁ hi) (ih₂ (behind h₁.leaves hi))
  | fork h₁ _ ih₁ ih₂ => exact .fork (ih₁ hi) (ih₂ (behind h₁.leaves hi))
  | wrap ht _ ih => exact .wrap _ ht (ih hi)

/-! ### Rules that yield one node -/

/-- There is one node, and it has no role yet. -/
def Single (nodes : List Node) : Prop := ∃ n, nodes = [n] ∧ n.field = none

/-- The rule yields one node without a role.  `solo` tells that what was read to its left is one,
and `symbols` which symbols yield one. -/
def isSingle (symbols : σ → Bool) : (solo : Bool) → Rule σ → Bool
  | _, leaf _ _ | _, node _ _ | _, wrap _ _ _ _ => true
  | _, symbol s => symbols s
  | solo, alt first other => isSingle symbols solo first && isSingle symbols solo other
  | solo, check _ rule => isSingle symbols solo rule
  | solo, chain base steps => isSingle symbols solo base && isSingle symbols true steps
  | solo, grow steps => solo && isSingle symbols true steps
  | solo, fork common ends => isSingle symbols (isSingle symbols solo common) ends
  | _, fail => true
  | _, _ => false

section Check

variable {grammar : σ → Rule σ} {ts : List Token} {symbols : σ → Bool}

theorem single_of_derives (hg : ∀ s, symbols s = true → isSingle symbols false (grammar s) = true)
    {rule : Rule σ} {left nodes : List Node} (h : Derives grammar ts rule left nodes) {solo : Bool}
    (hs : solo = true → Single left) (hr : isSingle symbols solo rule = true) : Single nodes := by
  induction h generalizing solo with
  | empty | token | seq | manyNone | manyMore | commasNone | commasMore | field => cases hr
  | leaf | node | wrap => exact ⟨_, rfl, rfl⟩
  | symbol h ih => exact ih Bool.noConfusion (hg _ hr)
  | altFirst h ih => exact ih hs (Bool.and_eq_true_iff.1 hr).1
  | altOther h ih => exact ih hs (Bool.and_eq_true_iff.1 hr).2
  | check ht h ih => exact ih hs hr
  | chain h₁ h₂ ih₁ ih₂ =>
    obtain ⟨hbase, hsteps⟩ := Bool.and_eq_true_iff.1 hr
    exact ih₂ (fun _ => ih₁ hs hbase) (show isSingle symbols true (grow _) = true from hsteps)
  | growNone => exact hs (Bool.and_eq_true_iff.1 hr).1
  | growMore h₁ h₂ ih₁ ih₂ =>
    obtain ⟨rfl, hsteps⟩ := Bool.and_eq_true_iff.1 hr
    exact ih₂ (fun _ => ih₁ hs hsteps) hr
  | fork h₁ h₂ ih₁ ih₂ => exact ih₂ (fun hc => ih₁ hs hc) hr

/-! ### Rules that yield nodes of certain kinds -/

/-- All nodes that the rule yields are of kinds that pass a test. -/
def yieldsOnly (test : Kind → Bool) : Rule σ → Bool
  | leaf kind _ | node kind _ | wrap _ kind _ _ => test kind
  | alt first other => yieldsOnly test first && yieldsOnly test other
  | many rule => yieldsOnly test rule
  | fork _ ends => yieldsOnly test ends
  | _ => false

theorem kind_of_derives {test : Kind → Bool} {rule : Rule σ} {left nodes : List Node}
    (h : Derives grammar ts rule left nodes) (hr : yieldsOnly test rule = true) :
    ∀ n ∈ nodes, test n.kind = true := by
  induction h with
  | empty | token | symbol | seq | commasNone | commasMore | field | check | chain | growNone
  | growMore => cases hr
  | manyNone => exact List.forall_mem_nil _
  | leaf | node | wrap => exact List.forall_mem_singleton.2 hr
  | altFirst _ ih => exact ih (Bool.and_eq_true_iff.1 hr).1
  | altOther _ ih => exact ih (Bool.and_eq_true_iff.1 hr).2
  | manyMore _ _ ih₁ ih₂ => exact List.forall_mem_append.2 ⟨ih₁ hr, ih₂ hr⟩
  | fork _ _ _ ih => exact ih hr

end Check

end Rule

/-! ### The shapes -/

/-- What the arguments of a call are: a list of them, or one generator. -/
def Kind.isArguments : Kind → Bool
  | .argumentList | .generatorExpression => .true
  | _ => .false

theorem Kind.isArguments_iff {kind : Kind} :
    kind.isArguments ↔ kind = .argumentList ∨ kind = .generatorExpression := by
  cases kind <;> simp [isArguments]

/-- What stands between the quotation marks of a literal. -/
def Kind.isPart : Kind → Bool
  | .stringContent | .interpolation => .true
  | _ => .false

/-- What is below a node of one of the kinds that matter for calls, literals and functions. -/
def Node.Shaped (ts : List Token) (n : Node) : Prop :=
  match n.kind with
  | .stringEnd => n.children = [] ∧ ∃ t ∈ ts, t.kind = .stringEnd ∧ t.span = n.span
  | .identifier => n.children = [] ∧ ∃ t ∈ ts, t.kind = .word ∧ t.span = n.span
  | .stringStart => n.children = [] ∧ ∃ t ∈ ts, t.kind = .stringStart ∧ t.span = n.span
  | .string => ∃ opening parts closing, n.children = opening :: (parts ++ [closing]) ∧
      opening.kind = .stringStart ∧ closing.kind = .stringEnd ∧
      ∀ part ∈ parts, part.kind.isPart = true
  | .attribute => ∃ object name, n.children = [object, name] ∧ object.field = some .object ∧
      name.kind = .identifier ∧ name.field = some .attribute
  | .call => ∃ function arguments, n.children = [function, arguments] ∧
      function.field = some .function ∧ arguments.field = some .arguments ∧
      arguments.kind.isArguments = true
  | .functionDefinition => ∃ name rest, n.children = name :: rest ∧ name.field = some .name ∧
      name.kind = .identifier
  | _ => True

namespace Rule

/-- A token as a node of the kind has the shape of the kind. -/
def isShapelyLeaf : Kind → Expect → Bool
  | .stringStart, .kind .stringStart | .identifier, .identifier | .identifier, .kind .word
  | .stringEnd, .kind .stringEnd => true
  | .stringStart, _ | .stringEnd, _ | .identifier, _ | .string, _ | .attribute, _ | .call, _
  | .functionDefinition, _ => false
  | _, _ => true

variable {σ : Type}

/-- A node of the kind around what the rule yields has the shape of the kind. -/
def isShapelyNode : Kind → Rule σ → Bool
  | .string, seq (leaf .stringStart _) (seq parts (leaf .stringEnd _)) =>
    yieldsOnly Kind.isPart parts
  | .functionDefinition,
    seq (alt (token _) empty) (seq (token _) (seq (field .name (leaf .identifier _)) _)) => true
  | .string, _ | .identifier, _ | .stringStart, _ | .stringEnd, _ | .attribute, _
  | .call, _ | .functionDefinition, _ => false
  | _, _ => true

/-- A node of the kind around one node to the left and what the rule yields has the shape of the
kind. -/
def isShapelyWrap (grammar : σ → Rule σ) (symbols : σ → Bool) (solo : Bool) :
    Kind → Option Field → Rule σ → Bool
  | .attribute, some .object, seq (token _) (field .attribute (leaf .identifier _)) => solo
  | .call, some .function, field .arguments (symbol s) =>
    solo && symbols s && yieldsOnly Kind.isArguments (grammar s)
  | .string, _, _ | .identifier, _, _ | .stringStart, _, _ | .stringEnd, _, _ | .attribute, _, _
  | .call, _, _ | .functionDefinition, _, _ => false
  | _, _, _ => true

/-- The nodes that the rule builds have their shapes, if `solo` tells whether what was read to its
left is one node without a role. -/
def isShapely (grammar : σ → Rule σ) (symbols : σ → Bool) : (solo : Bool) → Rule σ → Bool
  | _, leaf kind e => isShapelyLeaf kind e
  | solo, node kind rule => isShapelyNode kind rule && isShapely grammar symbols solo rule
  | solo, wrap _ kind role rule =>
    isShapelyWrap grammar symbols solo kind role rule && isShapely grammar symbols solo rule
  | solo, seq first next =>
    isShapely grammar symbols solo first && isShapely grammar symbols solo next
  | solo, alt first other =>
    isShapely grammar symbols solo first && isShapely grammar symbols solo other
  | solo, many rule | solo, commas rule | solo, field _ rule | solo, check _ rule =>
    isShapely grammar symbols solo rule
  | solo, chain base steps => isShapely grammar symbols solo base &&
      isShapely grammar symbols (isSingle symbols solo base && isSingle symbols true steps) steps
  | solo, grow steps => isShapely grammar symbols (solo && isSingle symbols true steps) steps
  | solo, fork common ends => isShapely grammar symbols solo common &&
      isShapely grammar symbols (isSingle symbols solo common) ends
  | _, _ => true

end Rule

theorem Rule.isShapely_oneOf {σ : Type} (grammar : σ → Rule σ) (symbols : σ → Bool) (solo : Bool) :
    ∀ spellings, isShapely grammar symbols solo (oneOf spellings) = true
  | [] => rfl
  | [_] => rfl
  | _ :: s :: spellings => isShapely_oneOf grammar symbols solo (s :: spellings)

namespace Node

@[simp] theorem kind_withField (f : Field) (n : Node) : (n.withField f).kind = n.kind := by
  obtain ⟨kind, _ | _, span, children⟩ := n <;> rfl

@[simp] theorem span_withField (f : Field) (n : Node) : (n.withField f).span = n.span := by
  obtain ⟨kind, _ | _, span, children⟩ := n <;> rfl

@[simp] theorem children_withField (f : Field) (n : Node) :
    (n.withField f).children = n.children := by
  obtain ⟨kind, _ | _, span, children⟩ := n <;> rfl

theorem field_withField {n : Node} (h : n.field = none) (f : Field) :
    (n.withField f).field = some f := by
  obtain ⟨kind, field, span, children⟩ := n
  cases h
  rfl

theorem shaped_withField {ts : List Token} {n : Node} (f : Field) :
    (n.withField f).Shaped ts ↔ n.Shaped ts := by
  simp only [Shaped, kind_withField, span_withField, children_withField]

/-- An identifier is a word, and not empty. -/
theorem start_lt_of_identifier {t : Text} {n : Node} (h : n.Shaped (tokens t))
    (hk : n.kind = .identifier) : n.span.start < n.span.stop := by
  rw [Shaped, hk] at h
  obtain ⟨-, token, ht, hword, hspan⟩ := h
  rw [← hspan]
  exact size_pos_of_mem_tokens ht (not_isMark_of_word hword) (by rw [hword]; decide)

/-- All nodes of the trees pass a test. -/
def All (p : Node → Prop) (ns : List Node) : Prop := ∀ n ∈ descendantsOf ns, p n

section All

variable {p : Node → Prop} {ns ms : List Node}

theorem all_nil : All p [] := fun _ h => absurd h List.not_mem_nil

theorem All.append (hn : All p ns) (hm : All p ms) : All p (ns ++ ms) := by
  intro n h
  rw [descendantsOf_append] at h
  rcases List.mem_append.1 h with h | h
  · exact hn n h
  · exact hm n h

theorem all_singleton {n : Node} : All p [n] ↔ p n ∧ All p n.children := by
  simp only [All, descendantsOf, List.append_nil, descendants_eq, List.forall_mem_cons]

theorem All.withField (hp : ∀ n f, p n → p (n.withField f)) (h : All p ns) (f : Field) :
    All p (ns.map (·.withField f)) := by
  induction ns with
  | nil => exact all_nil
  | cons n ns ih =>
    intro m hm
    rw [List.map_cons, descendantsOf, descendants_eq, children_withField] at hm
    rw [All, descendantsOf, descendants_eq, List.forall_mem_append] at h
    rcases List.mem_append.1 hm with hm | hm
    · rcases List.mem_cons.1 hm with rfl | hm
      · exact hp n f (h.1 n List.mem_cons_self)
      · exact h.1 m (List.mem_cons_of_mem n hm)
    · exact ih h.2 m hm

/-- What a `wrap` puts in front. -/
theorem All.elim (hp : ∀ n f, p n → p (n.withField f)) (h : All p ns) (role : Option Field) :
    All p (role.elim ns fun r => ns.map (·.withField r)) := by
  cases role with
  | none => exact h
  | some role => exact h.withField hp role

end All

end Node

namespace Rule

section Shaped

variable {σ : Type} {grammar : σ → Rule σ} {ts : List Token} {symbols : σ → Bool}

theorem shaped_leaf {kind : Kind} {e : Expect} {t : Token} {rest : List Token}
    (h : isShapelyLeaf kind e = true) (ht : t ∈ ts) (he : e.admits (t :: rest) = true) :
    (Node.mk kind none t.span []).Shaped ts := by
  unfold isShapelyLeaf at h
  split at h
  · exact ⟨rfl, t, ht, beq_iff_eq.1 he, rfl⟩
  · exact ⟨rfl, t, ht, beq_iff_eq.1 (Bool.and_eq_true_iff.1 he).1, rfl⟩
  · exact ⟨rfl, t, ht, beq_iff_eq.1 he, rfl⟩
  · exact ⟨rfl, t, ht, beq_iff_eq.1 he, rfl⟩
  all_goals cases h
  unfold Node.Shaped
  split <;> trivial

theorem nil_of_derives_optToken {e : Expect} {left nodes : List Node}
    (h : Derives grammar ts (alt (token e) empty) left nodes) : nodes = [] := by
  cases h with
  | altFirst h =>
    cases h
    rfl
  | altOther h =>
    cases h
    rfl

theorem shaped_node {kind : Kind} {rule : Rule σ} {left nodes : List Node}
    (h : isShapelyNode kind rule = true) (hd : Derives grammar ts rule left nodes) (span : Span) :
    (Node.mk kind none span nodes).Shaped ts := by
  unfold isShapelyNode at h
  split at h
  · cases hd with
    | seq h₁ hd =>
      cases h₁
      cases hd with
      | seq hparts h₂ =>
        cases h₂
        exact ⟨_, _, _, rfl, rfl, rfl, kind_of_derives hparts h⟩
  · cases hd with
    | seq hasync hd =>
      obtain rfl := nil_of_derives_optToken hasync
      cases hd with
      | seq hdef hd =>
        cases hdef
        cases hd with
        | seq hname hd =>
          cases hname with
          | field hname =>
            cases hname
            exact ⟨_, _, rfl, rfl, rfl⟩
  all_goals cases h
  unfold Node.Shaped
  split <;> trivial

theorem shaped_wrap (hg : ∀ s, symbols s = true → isSingle symbols false (grammar s) = true)
    {solo : Bool} {kind : Kind} {role : Option Field} {rule : Rule σ} {left nodes : List Node}
    (h : isShapelyWrap grammar symbols solo kind role rule = true) (hs : solo = true → Single left)
    (hd : Derives grammar ts rule left nodes) (span : Span) :
    (Node.mk kind none span
      ((role.elim left fun r => left.map (·.withField r)) ++ nodes)).Shaped ts := by
  unfold isShapelyWrap at h
  split at h
  · obtain ⟨n, rfl, hn⟩ := hs h
    cases hd with
    | seq h₁ h₂ =>
      cases h₁
      cases h₂ with
      | field h₂ =>
        cases h₂
        exact ⟨_, _, rfl, Node.field_withField hn _, rfl, rfl⟩
  · obtain ⟨h, hkind⟩ := Bool.and_eq_true_iff.1 h
    obtain ⟨h, hsymbol⟩ := Bool.and_eq_true_iff.1 h
    obtain ⟨n, rfl, hn⟩ := hs h
    cases hd with
    | field hd =>
      cases hd with
      | symbol hd =>
        obtain ⟨m, rfl, hm⟩ := single_of_derives hg hd Bool.noConfusion (hg _ hsymbol)
        have harguments := kind_of_derives hd hkind m List.mem_cons_self
        refine ⟨_, _, rfl, Node.field_withField hn _, Node.field_withField hm _, ?_⟩
        rwa [Node.kind_withField]
  all_goals cases h
  unfold Node.Shaped
  split <;> trivial

/-- A grammar whose rules pass the check only builds nodes of the right shapes. -/
theorem shaped_of_derives (hg : ∀ s, symbols s = true → isSingle symbols false (grammar s) = true)
    (hg' : ∀ s, isShapely grammar symbols false (grammar s) = true) {rule : Rule σ}
    {left nodes : List Node} (h : Derives grammar ts rule left nodes) {solo : Bool}
    (hs : solo = true → Single left) (hr : isShapely grammar symbols solo rule = true)
    (hl : Node.All (Node.Shaped ts) left) : Node.All (Node.Shaped ts) nodes := by
  induction h generalizing solo with
  | empty | token | manyNone | commasNone => exact Node.all_nil
  | leaf ht he => exact Node.all_singleton.2 ⟨shaped_leaf hr ht he, Node.all_nil⟩
  | symbol h ih => exact ih Bool.noConfusion (hg' _) hl
  | seq h₁ h₂ ih₁ ih₂ =>
    obtain ⟨hr₁, hr₂⟩ := Bool.and_eq_true_iff.1 hr
    exact (ih₁ hs hr₁ hl).append (ih₂ hs hr₂ hl)
  | altFirst h ih => exact ih hs (Bool.and_eq_true_iff.1 hr).1 hl
  | altOther h ih => exact ih hs (Bool.and_eq_true_iff.1 hr).2 hl
  | manyMore h₁ h₂ ih₁ ih₂ => exact (ih₁ hs hr hl).append (ih₂ hs hr hl)
  | commasMore h₁ h₂ ih₁ ih₂ => exact (ih₁ hs hr hl).append (ih₂ hs hr hl)
  | node span h ih =>
    obtain ⟨hn, hr⟩ := Bool.and_eq_true_iff.1 hr
    exact Node.all_singleton.2 ⟨shaped_node hn h span, ih hs hr hl⟩
  | field h ih => exact (ih hs hr hl).withField (fun _ f => (Node.shaped_withField f).2) _
  | check ht h ih => exact ih hs hr hl
  | @chain left nodes more base steps h₁ h₂ ih₁ ih₂ =>
    obtain ⟨hbase, hsteps⟩ := Bool.and_eq_true_iff.1 hr
    -- the first step stands behind the base, a later one behind what the steps built before it
    have hgrow : isShapely grammar symbols
        (isSingle symbols solo base && isSingle symbols true steps) (grow steps) = true := by
      rw [isShapely, Bool.and_assoc, Bool.and_self]
      exact hsteps
    refine ih₂ ?_ hgrow (ih₁ hs hbase hl)
    exact fun hc => single_of_derives hg h₁ hs (Bool.and_eq_true_iff.1 hc).1
  | growNone => exact hl
  | @growMore left nodes more steps h₁ h₂ ih₁ ih₂ =>
    have hgrow : isShapely grammar symbols (solo && isSingle symbols true steps)
        (grow steps) = true := by
      rw [isShapely, Bool.and_assoc, Bool.and_self]
      exact hr
    refine ih₂ (fun hc => ?_) hgrow (ih₁ (fun hc => hs (Bool.and_eq_true_iff.1 hc).1) hr hl)
    obtain ⟨rfl, hsteps⟩ := Bool.and_eq_true_iff.1 hc
    exact single_of_derives hg h₁ hs hsteps
  | fork h₁ h₂ ih₁ ih₂ =>
    obtain ⟨hcommon, hends⟩ := Bool.and_eq_true_iff.1 hr
    exact ih₂ (single_of_derives hg h₁ hs) hends (ih₁ hs hcommon hl)
  | @wrap left nodes test kind role rule span ht h ih =>
    obtain ⟨hw, hr⟩ := Bool.and_eq_true_iff.1 hr
    refine Node.all_singleton.2 ⟨shaped_wrap hg hw hs h span, ?_⟩
    exact (hl.elim (fun _ f => (Node.shaped_withField f).2) role).append (ih hs hr hl)

end Shaped

end Rule

/-- The symbols of the grammar that yield one node, of those in front of a call or an attribute. -/
def Grammar.isSingleSymbol : Symbol → Bool
  | .atom | .string | .arguments => true
  | _ => false

theorem Grammar.isSingle_rule {s : Symbol} (h : isSingleSymbol s = true) :
    Rule.isSingle isSingleSymbol false (rule s) = true := by
  cases s <;> first | rfl | cases h

theorem Grammar.isShapely_rule (s : Symbol) :
    Rule.isShapely rule isSingleSymbol false (rule s) = true := by
  cases s with
  | binary level =>
    cases level with
    | zero => rfl
    | succ level =>
      simp [rule, binary, Rule.around, Rule.seqs, Rule.isShapely, Rule.isShapelyWrap, Rule.isSingle,
        Rule.isShapely_oneOf]
  | _ => rfl

namespace Tree

/-- The statements are what the rules yield from the tokens. -/
theorem yields_statements {ts : List Token} {statements : List Node}
    (h : statements? ts = some statements) : ∃ rest,
      Rule.Yields Grammar.rule (.many (.symbol .statement)) ⟨[], 0⟩ ⟨ts, 0⟩ statements rest := by
  obtain ⟨⟨nodes, rest⟩, hr, h⟩ := Option.bind_eq_some_iff.1 h
  simp only at h
  split at h
  · cases h
    exact ⟨rest, Rule.yields_of_read hr⟩
  · cases h

/-- The tree of a module does not hang on what is recovered from other texts. -/
theorem ofText_eq_of_hasError [Recovery] {t : Text} (h : (ofText t).hasError = false) :
    ofText t = @ofText .nothingKept t := by
  unfold ofText at h ⊢
  split
  · split
    · rfl
    · simp_all [recovered]
  · simp_all [recovered]

/-- The tree of a text that is no module is the one that is recovered from it. -/
theorem root_ofText_of_hasError [Recovery] {t : Text} (h : (ofText t).hasError = true) :
    (ofText t).root = Recovery.root t := by
  unfold ofText at h ⊢
  split
  · split
    · simp_all
    · rfl
  · rfl

theorem kind_ofText (t : Text) : (ofText t).root.kind = .module := by
  unfold ofText
  split
  · split <;> rfl
  · rfl

/-- What holds of the nodes below each module holds below the root. -/
theorem all_ofText {p : Node → Prop} {t : Text}
    (h : ∀ statements, statements? (tokens t) = some statements → Node.All p statements) :
    Node.All p (ofText t).root.children := by
  unfold ofText
  split
  · rename_i hs
    split
    · exact h _ hs
    · exact Node.all_nil
  · exact Node.all_nil

/-- The nodes of the tree of a text have their shapes. -/
theorem shaped_ofText {t : Text} {n : Node} (h : n ∈ (ofText t).root.descendants) :
    n.Shaped (tokens t) := by
  have hall : Node.All (Node.Shaped (tokens t)) (ofText t).root.children := by
    refine all_ofText fun statements hs => ?_
    obtain ⟨rest, hy⟩ := yields_statements hs
    exact Rule.shaped_of_derives (fun _ => Grammar.isSingle_rule) Grammar.isShapely_rule
      (Rule.derives_of_yields hy (List.Subset.refl _)) (Bool.noConfusion : false = true → _) rfl
      Node.all_nil
  rw [Node.descendants_eq] at h
  rcases List.mem_cons.1 h with rfl | h
  · rw [Node.Shaped, kind_ofText]
    trivial
  · exact hall n h

/-- The nodes of the tree of a module have their shapes. -/
theorem shaped_ofText_of_hasError [Recovery] {t : Text} (h : (ofText t).hasError = false) {n : Node}
    (hn : n ∈ (ofText t).root.descendants) : n.Shaped (tokens t) := by
  rw [ofText_eq_of_hasError h] at hn
  exact shaped_ofText hn

end Tree

end RouteScript.Python
