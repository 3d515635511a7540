import RouteScript.Proofs.Shape

/-!
# Statements in trees

Only a block may be empty: every other node holds a token at least.  And no statement or block is
part of a call, since the rules of expressions lead to rules of expressions only.  Both follow by
induction on what the rules yield, from checks over the rules of the grammar.

* `Rule.every`, `Rule.Yields.all`: what holds of every built node, by a check over the rules.
* `Tree.filled_ofText`: nodes that are no blocks are not empty.
* `Tree.callPlain_ofText`: no statement or block is part of a call.
-/

namespace RouteScript.Python

namespace Node

/-- The node is no statement and no block. -/
def Plain (n : Node) : Prop := n.kind.isStatement = false ∧ n.kind ≠ .block

/-- If the node is a statement, it is not empty. -/
def Wide (n : Node) : Prop := n.kind.isStatement = true → n.span.start < n.span.stop

/-- Unless the node is a block, it is not empty. -/
def Filled (n : Node) : Prop := n.kind ≠ .block → n.span.start < n.span.stop

/-- If the node is a call, no statement or block is part of it. -/
def CallPlain (n : Node) : Prop := n.kind = .call → All Plain n.children

theorem plain_withField {n : Node} (f : Field) (h : n.Plain) : (n.withField f).Plain := by
  rwa [Plain, kind_withField]

theorem filled_withField {n : Node} (f : Field) (h : n.Filled) : (n.withField f).Filled := by
  rwa [Filled, kind_withField, span_withField]

/-- A block is no statement. -/
theorem Filled.wide {n : Node} (h : n.Filled) : n.Wide := by
  intro hs
  refine h fun hk => ?_
  rw [hk] at hs
  cases hs

theorem callPlain_withField {n : Node} (f : Field) (h : n.CallPlain) :
    (n.withField f).CallPlain := by
  rwa [CallPlain, kind_withField, children_withField]

/-- Where there is no statement or block at all, none is part of a call. -/
theorem All.callPlain {ns : List Node} (h : All Plain ns) : All CallPlain ns := by
  intro n hn _ m hm
  refine h m (descendantsOf_trans hn ?_)
  rw [descendants_eq]
  exact List.mem_cons_of_mem n hm

end Node

namespace Rule

open Node (All Plain Filled CallPlain)

variable {σ : Type}

/-! ### What holds of every node -/

/-- All kinds of nodes that the rule may build pass a test, which is given the rule of the node if
it is not built from a token or around other nodes, and all symbols in the rule pass another. -/
def every (test : Kind → Option (Rule σ) → Bool) (symbols : σ → Bool) : Rule σ → Bool
  | leaf kind _ => test kind none
  | node kind rule => test kind (some rule) && rule.every test symbols
  | wrap _ kind _ rule => test kind none && rule.every test symbols
  | symbol s => symbols s
  | seq first next | alt first next | chain first next | fork first next =>
    first.every test symbols && next.every test symbols
  | many rule | commas rule | field _ rule | check _ rule | grow rule => rule.every test symbols
  | empty | fail | token _ => true

theorem every_oneOf (test : Kind → Option (Rule σ) → Bool) (symbols : σ → Bool) :
    ∀ spellings, (oneOf spellings).every test symbols = true
  | [] => rfl
  | [_] => rfl
  | _ :: s :: spellings => every_oneOf test symbols (s :: spellings)

section Yields

variable {grammar : σ → Rule σ} {rule : Rule σ} {left : Left} {whole i rest : Input}
  {nodes : List Node} {test : Kind → Option (Rule σ) → Bool} {symbols : σ → Bool} {p : Node → Prop}

/-- What the test ensures of each node that is read from some input holds of all of them. -/
theorem Yields.all (hg : ∀ s, symbols s = true → (grammar s).every test symbols = true)
    (hfield : ∀ n f, p n → p (n.withField f))
    (hbuilt : ∀ kind span children, test kind none = true → p (.mk kind none span children))
    (hnode : ∀ kind rule left i nodes rest, test kind (some rule) = true → whole.Leaves i →
      Yields grammar rule left i nodes rest → p (.mk kind none ⟨i.start, rest.last⟩ nodes))
    (h : Yields grammar rule left i nodes rest) (hi : whole.Leaves i)
    (hr : rule.every test symbols = true) (hl : All p left.nodes) : All p nodes := by
  induction h with
  | empty | token | manyNone | commasNone | commasLast => exact Node.all_nil
  | leaf => exact Node.all_singleton.2 ⟨hbuilt _ _ _ hr, Node.all_nil⟩
  | symbol _ ih => exact ih hi (hg _ hr) hl
  | altFirst _ ih => exact ih hi (Bool.and_eq_true_iff.1 hr).1 hl
  | altOther _ ih => exact ih hi (Bool.and_eq_true_iff.1 hr).2 hl
  | seq h₁ _ ih₁ ih₂ =>
    obtain ⟨hr₁, hr₂⟩ := Bool.and_eq_true_iff.1 hr
    exact (ih₁ hi hr₁ hl).append (ih₂ (hi.trans_joined h₁.leaves) hr₂ hl)
  | manyMore h₁ _ ih₁ ih₂ =>
    exact (ih₁ hi hr hl).append (ih₂ (hi.trans_joined h₁.leaves) hr hl)
  | commasMore h h₁ _ ih₁ ih₂ =>
    refine (ih₁ ?_ hr hl).append (ih₂ (.trans_joined ?_ h₁.leaves) hr hl) <;>
      exact hi.trans_joined (.next h)
  | node h ih =>
    obtain ⟨hk, hr⟩ := Bool.and_eq_true_iff.1 hr
    exact Node.all_singleton.2 ⟨hnode _ _ _ _ _ _ hk hi h, ih hi hr hl⟩
  | field _ ih => exact (ih hi hr hl).withField hfield _
  | check _ _ ih => exact ih hi hr hl
  | chain h₁ _ ih₁ ih₂ | fork h₁ _ ih₁ ih₂ =>
    obtain ⟨hr₁, hr₂⟩ := Bool.and_eq_true_iff.1 hr
    exact ih₂ (hi.trans_joined h₁.leaves) hr₂ (ih₁ hi hr₁ hl)
  | growNone => exact hl
  | growMore h₁ _ ih₁ ih₂ =>
    exact ih₂ (hi.trans_joined h₁.leaves) hr (ih₁ hi hr hl)
  | wrap _ _ ih =>
    obtain ⟨hk, hr⟩ := Bool.and_eq_true_iff.1 hr
    exact Node.all_singleton.2 ⟨hbuilt _ _ _ hk, (hl.elim hfield _).append (ih hi hr hl)⟩

/-- The rule builds no statement and no block, if the given symbols build none. -/
def isPlain (plain : σ → Bool) (rule : Rule σ) : Bool :=
  rule.every (fun kind _ => !kind.isStatement && kind != .block) plain

theorem Yields.plain {plain : σ → Bool}
    (hg : ∀ s, plain s = true → (grammar s).isPlain plain = true)
    (h : Yields grammar rule left i nodes rest) (hr : rule.isPlain plain = true)
    (hl : All Plain left.nodes) : All Plain nodes := by
  have built : ∀ {kind : Kind} {span : Span} {children : List Node},
      (!kind.isStatement && kind != .block) = true → Plain (.mk kind none span children) := by
    intro kind span children hk
    obtain ⟨hstatement, hblock⟩ := Bool.and_eq_true_iff.1 hk
    exact ⟨Bool.not_inj (hstatement : _ = !false), bne_iff_ne.1 hblock⟩
  exact h.all hg (fun _ => Node.plain_withField) (fun _ _ _ => built)
    (fun _ _ _ _ _ _ hk _ _ => built hk) (.refl i) hr hl

/-! ### Nodes that are not empty -/

/-- The nodes that the rule builds read something, unless they are blocks. -/
def isFilled : Rule σ → Bool
  | leaf kind e => kind == .block || e.isSolid
  | node kind rule | wrap _ kind _ rule => (kind == .block || rule.takes) && rule.isFilled
  | seq first next | alt first next | chain first next | fork first next =>
    first.isFilled && next.isFilled
  | many rule | commas rule | field _ rule | check _ rule | grow rule => rule.isFilled
  | empty | fail | token _ | symbol _ => true

/-- What was read to the left starts in front of the tokens. -/
def Left.Leads (left : Left) (i : Input) : Prop := ∀ t ∈ i.tokens, left.start ≤ t.span.start

theorem Left.Leads.mono {mid : Input} (h : left.Leads i) (hi : i.Leaves mid) : left.Leads mid :=
  fun t ht => h t (hi.subset ht)

theorem Left.leads_start (hi : i.Ordered) (nodes : List Node) : Left.Leads ⟨nodes, i.start⟩ i := by
  intro t ht
  have hinTurn := hi.inTurn
  unfold Input.start
  cases htokens : i.tokens with
  | nil =>
    rw [htokens] at ht
    cases ht
  | cons s ts =>
    rw [htokens] at ht hinTurn
    rcases List.mem_cons.1 ht with rfl | ht
    · exact Nat.le_refl _
    · exact Nat.le_trans hinTurn.2.1 (hinTurn.2.2.of_mem ht).1

/-- What was read to the left and something behind it is not empty. -/
theorem Left.Leads.start_lt (h : left.Leads i) (hp : i.Passes rest) : left.start < rest.last := by
  obtain ⟨t, ht, hwide, hstop⟩ := hp
  exact Nat.lt_of_le_of_lt (h t ht) (Nat.lt_of_lt_of_le hwide hstop)

theorem Yields.filled (ht : ∀ s, (grammar s).takes = true) (hg : ∀ s, (grammar s).isFilled = true)
    (h : Yields grammar rule left i nodes rest) (hi : i.Ordered) (hlead : left.Leads i)
    (hr : rule.isFilled = true) (hl : All Filled left.nodes) : All Filled nodes := by
  have built : ∀ {kind : Kind} {span : Span} {children : List Node} {reads : Bool},
      (kind == .block || reads) = true → (reads = true → span.start < span.stop) →
      Filled (.mk kind none span children) := by
    intro kind span children reads hk hspan hne
    exact hspan ((Bool.or_eq_true_iff.1 hk).resolve_left fun hb => hne (beq_iff_eq.1 hb))
  induction h with
  | empty | token | manyNone | commasNone | commasLast => exact Node.all_nil
  | @leaf left i rest kind e t h =>
    obtain ⟨htokens, -, hadmits⟩ := Input.next?_eq_some h
    refine Node.all_singleton.2 ⟨built hr fun he => ?_, Node.all_nil⟩
    obtain ⟨hmark, hstray⟩ := Expect.kind_of_admits he hadmits
    exact hi.wide t (by rw [htokens]; exact List.mem_cons_self) hmark hstray
  | symbol _ ih => exact ih hi hlead (hg _) hl
  | altFirst _ ih => exact ih hi hlead (Bool.and_eq_true_iff.1 hr).1 hl
  | altOther _ ih => exact ih hi hlead (Bool.and_eq_true_iff.1 hr).2 hl
  | seq h₁ _ ih₁ ih₂ =>
    obtain ⟨hr₁, hr₂⟩ := Bool.and_eq_true_iff.1 hr
    exact (ih₁ hi hlead hr₁ hl).append (ih₂ (h₁.leaves.ordered_joined hi)
      (hlead.mono (h₁.leaves.trans (.joined ..))) hr₂ hl)
  | manyMore h₁ _ ih₁ ih₂ =>
    exact (ih₁ hi hlead hr hl).append (ih₂ (h₁.leaves.ordered_joined hi)
      (hlead.mono (h₁.leaves.trans (.joined ..))) hr hl)
  | @commasMore left i first mid rest e t nodes more rule closed h h₁ _ ih₁ ih₂ =>
    have hfirst := (Input.Leaves.next h).trans (.joined first closed)
    refine (ih₁ (hfirst.ordered hi) (hlead.mono hfirst) hr hl).append ?_
    exact ih₂ (h₁.leaves.ordered_joined (hfirst.ordered hi))
      (hlead.mono (hfirst.trans (h₁.leaves.trans (.joined ..)))) hr hl
  | node h ih =>
    obtain ⟨hk, hr⟩ := Bool.and_eq_true_iff.1 hr
    refine Node.all_singleton.2 ⟨built hk fun htakes => ?_, ih hi hlead hr hl⟩
    exact (h.passes ht hi htakes).start_lt hi
  | field _ ih => exact (ih hi hlead hr hl).withField (fun _ => Node.filled_withField) _
  | check _ _ ih => exact ih hi hlead hr hl
  | chain h₁ _ ih₁ ih₂ | fork h₁ _ ih₁ ih₂ =>
    obtain ⟨hr₁, hr₂⟩ := Bool.and_eq_true_iff.1 hr
    exact ih₂ (h₁.leaves.ordered_joined hi)
      ((Left.leads_start hi _).mono (h₁.leaves.trans (.joined ..))) hr₂ (ih₁ hi hlead hr₁ hl)
  | growNone => exact hl
  | growMore h₁ _ ih₁ ih₂ =>
    -- what a step builds starts where the base does
    exact ih₂ (h₁.leaves.ordered_joined hi)
      (fun t ht => hlead t ((h₁.leaves.trans (.joined ..)).subset ht)) hr (ih₁ hi hlead hr hl)
  | wrap _ h ih =>
    obtain ⟨hk, hr⟩ := Bool.and_eq_true_iff.1 hr
    refine Node.all_singleton.2 ⟨built hk fun htakes => ?_, ?_⟩
    · exact hlead.start_lt (h.passes ht hi htakes)
    · exact (hl.elim (fun _ => Node.filled_withField) _).append (ih hi hlead hr hl)

/-! ### Calls -/

/-- The rule builds calls only where it builds no statement and no block. -/
def isTame (plain : σ → Bool) : Rule σ → Bool
  | leaf kind _ => kind != .call
  | node kind rule => kind != .call && rule.isTame plain
  | seq first next | alt first next => first.isTame plain && next.isTame plain
  | many rule | commas rule | field _ rule | check _ rule => rule.isTame plain
  | chain base steps => (chain base steps).isPlain plain
  | fork common ends => (fork common ends).isPlain plain
  | grow steps => (grow steps).isPlain plain
  | wrap test kind role rule => (wrap test kind role rule).isPlain plain
  | empty | fail | token _ | symbol _ => true

theorem Yields.callPlain {plain : σ → Bool}
    (hg : ∀ s, plain s = true → (grammar s).isPlain plain = true)
    (hg' : ∀ s, plain s = true ∨ (grammar s).isTame plain = true)
    (h : Yields grammar rule left i nodes rest) (hr : rule.isTame plain = true)
    (hl : All Plain left.nodes) : All CallPlain nodes := by
  have built : ∀ {kind : Kind} {span : Span} {children : List Node}, (kind != .call) = true →
      CallPlain (.mk kind none span children) := fun hk hc => absurd hc (bne_iff_ne.1 hk)
  induction h with
  | empty | token | manyNone | commasNone | commasLast => exact Node.all_nil
  | leaf => exact Node.all_singleton.2 ⟨built hr, Node.all_nil⟩
  | symbol h ih =>
    rcases hg' _ with hs | hs
    · exact (h.plain hg (hg _ hs) hl).callPlain
    · exact ih hs hl
  | altFirst _ ih => exact ih (Bool.and_eq_true_iff.1 hr).1 hl
  | altOther _ ih => exact ih (Bool.and_eq_true_iff.1 hr).2 hl
  | seq h₁ _ ih₁ ih₂ =>
    obtain ⟨hr₁, hr₂⟩ := Bool.and_eq_true_iff.1 hr
    exact (ih₁ hr₁ hl).append (ih₂ hr₂ hl)
  | manyMore h₁ _ ih₁ ih₂ =>
    exact (ih₁ hr hl).append (ih₂ hr hl)
  | commasMore h h₁ _ ih₁ ih₂ =>
    exact (ih₁ hr hl).append (ih₂ hr hl)
  | node _ ih =>
    obtain ⟨hk, hr⟩ := Bool.and_eq_true_iff.1 hr
    exact Node.all_singleton.2 ⟨built hk, ih hr hl⟩
  | field _ ih => exact (ih hr hl).withField (fun _ => Node.callPlain_withField) _
  | check _ _ ih => exact ih hr hl
  | chain h₁ h₂ => exact ((chain h₁ h₂).plain hg hr hl).callPlain
  | growNone => exact hl.callPlain
  | growMore h₁ h₂ => exact ((growMore h₁ h₂).plain hg hr hl).callPlain
  | fork h₁ h₂ => exact ((fork h₁ h₂).plain hg hr hl).callPlain
  | wrap ht h => exact ((wrap ht h).plain hg hr hl).callPlain

end Yields

end Rule

/-! ### The grammar -/

namespace Grammar

/-- The symbols that build no statement and no block. -/
def isPlainSymbol : Symbol → Bool
  | .statement | .simpleStatement | .simpleStatements | .definition | .elseClause
  | .finallyClause => false
  | _ => true

theorem takes_rule (s : Symbol) : (rule s).takes = true := by
  cases s with
  | binary level => cases level <;> rfl
  | _ => rfl

theorem every_binary {test : Kind → Option R → Bool} {symbols : Symbol → Bool}
    (ht : test .binaryOperator none = true) (hf : symbols .factor = true)
    (hb : ∀ level, symbols (.binary level) = true) (level : Nat) :
    (binary level).every test symbols = true := by
  cases level with
  | zero => exact hf
  | succ level =>
    simp [binary, Rule.around, Rule.seqs, Rule.every, Rule.every_oneOf, ht, hb]

theorem isFilled_oneOf : ∀ spellings, (Rule.oneOf spellings : R).isFilled = true
  | [] => rfl
  | [_] => rfl
  | _ :: s :: spellings => isFilled_oneOf (s :: spellings)

theorem isFilled_rule (s : Symbol) : (rule s).isFilled = true := by
  cases s with
  | binary level =>
    cases level with
    | zero => rfl
    | succ level => simp [rule, binary, Rule.around, Rule.seqs, Rule.isFilled, Rule.takes, isFilled_oneOf]
  | _ => rfl

theorem isPlain_rule {s : Symbol} (h : isPlainSymbol s = true) :
    (rule s).isPlain isPlainSymbol = true := by
  cases s with
  | binary level => exact every_binary rfl rfl (fun _ => rfl) level
  | _ => first | rfl | cases h

theorem isTame_rule (s : Symbol) :
    isPlainSymbol s = true ∨ (rule s).isTame isPlainSymbol = true := by
  cases s <;> first | exact .inl rfl | exact .inr rfl

end Grammar

/-! ### The tree of a text -/

namespace Tree

theorem ordered_tokens (t : Text) : Rule.Input.Ordered ⟨tokens t, 0⟩ :=
  ⟨inTurn_tokens t, fun _ => size_pos_of_mem_tokens, fun _ => size_zero_of_isMark⟩

/-- What holds of the nodes that each rule may build holds of all nodes below the root. -/
theorem all_of_every {t : Text} {p : Node → Prop} {test : Kind → Option Grammar.R → Bool}
    (hg : ∀ s, (Grammar.rule s).every test (fun _ => true) = true)
    (hfield : ∀ n f, p n → p (n.withField f))
    (hbuilt : ∀ kind span children, test kind none = true → p (.mk kind none span children))
    (hnode : ∀ kind rule left i nodes rest, test kind (some rule) = true →
      Rule.Input.Leaves ⟨tokens t, 0⟩ i → Rule.Yields Grammar.rule rule left i nodes rest →
        p (.mk kind none ⟨i.start, rest.last⟩ nodes)) :
    Node.All p (ofText t).root.children := by
  refine all_ofText fun statements hs => ?_
  obtain ⟨rest, h⟩ := yields_statements hs
  exact h.all (fun s _ => hg s) hfield hbuilt hnode (.refl _) rfl Node.all_nil

/-- The nodes below the root are not empty, blocks apart. -/
theorem filled_ofText (t : Text) : Node.All Node.Filled (ofText t).root.children := by
  refine all_ofText fun statements hs => ?_
  obtain ⟨rest, h⟩ := yields_statements hs
  exact h.filled Grammar.takes_rule Grammar.isFilled_rule (ordered_tokens t)
    (fun _ _ => Nat.zero_le _) rfl Node.all_nil

/-- No statement or block is part of a call. -/
theorem callPlain_ofText (t : Text) : Node.All Node.CallPlain (ofText t).root.children := by
  refine all_ofText fun statements hs => ?_
  obtain ⟨rest, h⟩ := yields_statements hs
  exact h.callPlain (fun _ => Grammar.isPlain_rule) Grammar.isTame_rule rfl Node.all_nil

end Tree

end RouteScript.Python

namespace RouteScript.Document

open Python (Node)

/-! ### The tree of a document -/

theorem kind_root (d : Document) : d.root.kind = .module := by
  rw [root, d.tree_eq]
  exact Python.Tree.kind_ofText d.text

/-- What holds of modules and below the root holds of all nodes. -/
theorem forall_descendants (d : Document) {p : Node → Prop}
    (h : Node.All p (Python.Tree.ofText d.text).root.children) (hroot : ∀ n, n.kind = .module → p n) :
    ∀ n ∈ d.root.descendants, p n := by
  intro n hn
  rw [Node.descendants_eq] at hn
  rcases List.mem_cons.1 hn with rfl | hn
  · exact hroot _ d.kind_root
  · rw [← d.tree_eq] at h
    exact h n hn

/-- Nodes below the root that are no blocks are not empty. -/
theorem filled_of_mem_children (d : Document) : Node.All Node.Filled d.root.children := by
  rw [root, d.tree_eq]
  exact Python.Tree.filled_ofText d.text

/-- A call is below the root. -/
theorem mem_children_of_call (d : Document) {call : Node} (hc : call ∈ d.root.descendants)
    (hk : call.kind = .call) : call ∈ Node.descendantsOf d.root.children := by
  rw [Node.descendants_eq] at hc
  rcases List.mem_cons.1 hc with rfl | hc
  · rw [d.kind_root] at hk
    cases hk
  · exact hc

/-- A call is not empty. -/
theorem start_lt_of_call (d : Document) {call : Node} (hc : call ∈ d.root.descendants)
    (hk : call.kind = .call) : call.span.start < call.span.stop :=
  d.filled_of_mem_children call (d.mem_children_of_call hc hk) (by rw [hk]; decide)

/-- The statements below the root are not empty. -/
theorem wide_of_mem_children (d : Document) : Node.All Node.Wide d.root.children :=
  fun n hn => (d.filled_of_mem_children n hn).wide

/-- No statement or block is part of a call. -/
theorem plain_of_call (d : Document) {call n : Node} (hc : call ∈ d.root.descendants)
    (hk : call.kind = .call) (hn : n ∈ Node.descendantsOf call.children) : n.Plain := by
  have hall := Python.Tree.callPlain_ofText d.text
  rw [← d.tree_eq] at hall
  exact hall call (d.mem_children_of_call hc hk) hk n hn

end RouteScript.Document
