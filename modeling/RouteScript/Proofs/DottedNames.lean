import RouteScript.Proofs.Spelling
import RouteScript.Text.Blank

/-!
# Names with dots

The tokens of a name with dots are its identifiers and a dot between any two of them; those of a
relative path have more dots in front.  So what the tokens spell tells the identifiers, however the
tokens are spaced.

* `Node.identifiers`, `Node.Names`: the identifiers in a node, and that its tokens spell them.
* `Node.Names.slice_eq_iff`, `Node.Names.squeeze_eq_iff`: when the text is what the tokens spell.
* `Grammar.names_of_dotted`, `Grammar.names_of_module`: how names and paths are read.
-/

namespace RouteScript

/-! ### Identifiers and dots -/

namespace Text

theorem joinWith_cons (sep : Char) (part : Text) (parts : List Text) :
    joinWith sep (part :: parts) = part ++ parts.flatMap (sep :: ·) := by
  induction parts generalizing part with
  | nil => rw [joinWith, List.flatMap_nil, List.append_nil]
  | cons next parts ih =>
    rw [joinWith, ih, List.flatMap_cons, List.cons_append]
    exact fun h => List.cons_ne_nil _ _ h

theorem mem_joinWith {sep c : Char} {parts : List Text} (h : c ∈ joinWith sep parts) :
    c = sep ∨ ∃ part ∈ parts, c ∈ part := by
  cases parts with
  | nil => cases h
  | cons part parts =>
    rw [joinWith_cons, List.mem_append, List.mem_flatMap] at h
    rcases h with h | ⟨next, hnext, h⟩
    · exact .inr ⟨part, List.mem_cons_self, h⟩
    · rcases List.mem_cons.1 h with rfl | h
      · exact .inl rfl
      · exact .inr ⟨next, List.mem_cons_of_mem part hnext, h⟩

theorem squeeze_append (a b : Text) : squeeze (a ++ b) = squeeze a ++ squeeze b :=
  List.filter_append ..

end Text

namespace Identifier

/-- No blank character stands in an identifier. -/
theorem isBlank_eq_false {c : Char} (h : isContinue c = true) : isBlank c = false := by
  -- the blank characters are few, and each is tried
  have hblanks : ∀ n ∈ [9, 10, 11, 12, 13, 0x20, 0x85, 0xA0, 0x1680, 0x2000, 0x2001, 0x2002, 0x2003,
      0x2004, 0x2005, 0x2006, 0x2007, 0x2008, 0x2009, 0x200A, 0x2028, 0x2029, 0x202F, 0x205F, 0x3000],
      isContinue (Char.ofNat n) = false := by
    decide +kernel
  by_contra hb
  have hmem := hblanks c.toNat (by
    simp only [isBlank, Bool.or_eq_true, Bool.and_eq_true, decide_eq_true_eq, beq_iff_eq,
      Bool.not_eq_false] at hb
    simp only [List.mem_cons, List.not_mem_nil, or_false]
    omega)
  rw [Char.ofNat_toNat, h] at hmem
  cases hmem

end Identifier

namespace Python

/-- The text is one that identifiers have. -/
structure IsIdentifier (text : Text) : Prop where
  ne_nil : text ≠ []
  chars : ∀ c ∈ text, Identifier.isContinue c = true

theorem IsIdentifier.dot {text : Text} (h : IsIdentifier text) : '.' ∉ text := fun hdot =>
  absurd (h.chars '.' hdot) (by decide +kernel)

/-- A word is an identifier. -/
theorem Token.Stands.isIdentifier {t : Text} {k : Token} (h : k.Stands 0 t) (hk : k.kind = .word) :
    IsIdentifier k.text := by
  obtain ⟨_, _, -, -, hword⟩ := h
  rw [hk] at hword
  obtain ⟨c, hc, -⟩ := hword.start
  exact ⟨List.ne_nil_of_mem (List.mem_of_mem_head? hc), hword.chars⟩

/-- A word in the text is an identifier. -/
theorem isIdentifier_of_word {t : Text} {k : Token} (hk : k ∈ tokens t) (hword : k.kind = .word) :
    IsIdentifier (t.slice k.span) := by
  have hstands := (stands_of_mem_tokens hk).resolve_left (not_isMark_of_word hword)
  rw [hstands.slice_eq.1]
  exact hstands.isIdentifier hword

namespace Node

/-- The identifiers in the node, in document order. -/
def identifiers (t : Text) (n : Node) : List Text :=
  (n.descendants.filter (·.kind == .identifier)).map (t.slice ·.span)

variable {t : Text} {n : Node} {dots : Nat}

theorem identifiers_of_identifier (hk : n.kind = .identifier) (hc : n.children = []) :
    n.identifiers t = [t.slice n.span] := by
  simp [identifiers, descendants_eq, hk, hc, descendantsOf]

theorem identifiers_eq (hk : n.kind ≠ .identifier) :
    n.identifiers t = n.children.flatMap (identifiers t) := by
  rw [identifiers, descendants_eq, List.filter_cons_of_neg (by simpa using hk)]
  induction n.children with
  | nil => rfl
  | cons c ns ih =>
    rw [descendantsOf, List.filter_append, List.map_append, ih, List.flatMap_cons]
    rfl

theorem identifiers_withField (f : Field) : (n.withField f).identifiers t = n.identifiers t := by
  by_cases hk : n.kind = .identifier
  · simp [identifiers, descendants_eq, hk]
  · rw [identifiers_eq hk, identifiers_eq (by rwa [kind_withField]), children_withField]

/-- The tokens of the node spell its identifiers, with dots between and some more in front. -/
structure Names (t : Text) (n : Node) (dots : Nat) : Prop where
  spelled_eq : n.spelled t = List.replicate dots '.' ++ Text.joinWith '.' (n.identifiers t)
  isIdentifier : ∀ name ∈ n.identifiers t, IsIdentifier name
  made : n.MadeOf t (n.tokensIn t)

namespace Names

theorem withField (h : n.Names t dots) (f : Field) : (n.withField f).Names t dots := by
  have htokens : (n.withField f).tokensIn t = n.tokensIn t := by rw [tokensIn, span_withField]; rfl
  refine ⟨?_, ?_, ?_⟩
  · rw [spelled, htokens, identifiers_withField]
    exact h.spelled_eq
  · rw [identifiers_withField]
    exact h.isIdentifier
  · rw [htokens]
    exact h.made.withField f

/-- The text is what the tokens spell just if nothing stands between them. -/
theorem slice_eq_iff (h : n.Names t dots) :
    t.slice n.span = n.spelled t ↔ ∀ g ∈ gaps t (n.tokensIn t), g = [] :=
  h.made.reading_eq_iff (f := id) (fun _ _ => rfl) fun _ _ => rfl

/-- The text without blanks is what the tokens spell just if only blanks stand between them. -/
theorem squeeze_eq_iff (h : n.Names t dots) : (t.slice n.span).squeeze = n.spelled t ↔
    ∀ g ∈ gaps t (n.tokensIn t), ∀ c ∈ g, isBlank c = true := by
  -- a token holds no blank: its characters are dots or those of identifiers
  have hkeep : ∀ k ∈ n.tokensIn t, Text.squeeze k.text = k.text := by
    intro k hk
    refine List.filter_eq_self.2 fun c hc => ?_
    have hmem : c ∈ n.spelled t := List.mem_flatMap.2 ⟨k, hk, hc⟩
    rw [h.spelled_eq, List.mem_append] at hmem
    have hdot : isBlank '.' = false := by decide
    rcases hmem with hc | hc
    · rw [List.eq_of_mem_replicate hc, hdot]
      rfl
    · rcases Text.mem_joinWith hc with rfl | ⟨name, hname, hc⟩
      · rw [hdot]
        rfl
      · rw [Identifier.isBlank_eq_false ((h.isIdentifier name hname).chars c hc)]
        rfl
  rw [h.made.reading_eq_iff Text.squeeze_append hkeep]
  simp only [Text.squeeze, List.filter_eq_nil_iff, Bool.not_eq_true, Bool.not_eq_false']

end Names

end Node

/-! ### How names are read -/

/-- The identifier that a word is. -/
def Token.identifier (k : Token) : Node := .mk .identifier none k.span []

/-- The tokens are words with a dot in front of each, and the nodes are these words. -/
inductive Trails : List Token → List Node → Prop where
  | nil : Trails [] []
  | cons {dot word : Token} {ks : List Token} {ns : List Node} (hdot : dot.text = ['.'])
      (hword : word.kind = .word) (h : Trails ks ns) :
      Trails (dot :: word :: ks) (word.identifier :: ns)

theorem Token.identifiers_identifier {t : Text} {k : Token} (h : k.Stands 0 t) :
    k.identifier.identifiers t = [k.text] := by
  rw [Node.identifiers_of_identifier rfl rfl, ← h.slice_eq.1]
  rfl

theorem Trails.spelled {t : Text} {ks : List Token} {ns : List Node} (h : Trails ks ns)
    (hs : ∀ k ∈ ks, k.Stands 0 t) :
    ks.flatMap (·.text) = (ns.flatMap (Node.identifiers t)).flatMap ('.' :: ·) ∧
      ∀ name ∈ ns.flatMap (Node.identifiers t), IsIdentifier name := by
  induction h with
  | nil => exact ⟨rfl, List.forall_mem_nil _⟩
  | @cons dot word ks ns hdot hword _ ih =>
    obtain ⟨-, hs⟩ := List.forall_mem_cons.1 hs
    obtain ⟨hw, hs⟩ := List.forall_mem_cons.1 hs
    obtain ⟨hspelled, hnames⟩ := ih hs
    rw [List.flatMap_cons, List.flatMap_cons, List.flatMap_cons, Token.identifiers_identifier hw,
      List.singleton_append, List.flatMap_cons, hdot, hspelled]
    exact ⟨rfl, List.forall_mem_cons.2 ⟨hw.isIdentifier hword, hnames⟩⟩

/-- A name with dots, read from its tokens. -/
theorem Node.names_of_madeOf {t : Text} {n : Node} {word : Token} {ks : List Token} {ns : List Node}
    (hk : n.kind = .dottedName) (hm : n.MadeOf t (word :: ks)) (hword : word.kind = .word)
    (hc : n.children = word.identifier :: ns) (h : Trails ks ns) :
    n.Names t 0 ∧ n.identifiers t ≠ [] := by
  have hstands : ∀ k ∈ word :: ks, k.Stands 0 t := by
    rw [← hm.tokensIn_eq]
    exact fun k => stands_of_mem_tokensIn
  obtain ⟨hw, hs⟩ := List.forall_mem_cons.1 hstands
  obtain ⟨hspelled, hnames⟩ := h.spelled hs
  have hids : n.identifiers t = word.text :: ns.flatMap (identifiers t) := by
    rw [identifiers_eq (by rw [hk]; decide), hc, List.flatMap_cons, Token.identifiers_identifier hw,
      List.singleton_append]
  refine ⟨⟨?_, ?_, by rwa [hm.tokensIn_eq]⟩, by rw [hids]; exact List.cons_ne_nil _ _⟩
  · rw [hids, Text.joinWith_cons, ← hspelled, spelled, hm.tokensIn_eq, List.flatMap_cons]
    rfl
  · rw [hids]
    exact List.forall_mem_cons.2 ⟨hw.isIdentifier hword, hnames⟩

/-- A path with dots in front, read from its tokens. -/
theorem Node.names_of_relative {t : Text} {n front : Node} {names : List Node} {ds : List Token}
    (hk : n.kind = .relativeImport) (hc : n.children = front :: names)
    (hfront : front.identifiers t = []) (hm : n.MadeOf t (ds ++ names.flatMap (tokensIn t)))
    (hdots : ∀ k ∈ ds, ∀ c ∈ k.text, c = '.')
    (hnames : names = [] ∨ ∃ name, names = [name] ∧ name.Names t 0) : ∃ dots, n.Names t dots := by
  have hids : n.identifiers t = names.flatMap (identifiers t) := by
    rw [identifiers_eq (by rw [hk]; decide), hc, List.flatMap_cons, hfront, List.nil_append]
  have hds : ds.flatMap (·.text) = List.replicate (ds.flatMap (·.text)).length '.' := by
    refine List.eq_replicate_of_mem fun c hc => ?_
    obtain ⟨k, hk, hc⟩ := List.mem_flatMap.1 hc
    exact hdots k hk c hc
  have hspelled : n.spelled t = ds.flatMap (·.text) ++ names.flatMap (spelled t) := by
    rw [spelled, hm.tokensIn_eq, List.flatMap_append, List.flatMap_assoc]
    rfl
  refine ⟨(ds.flatMap (·.text)).length, ?_, ?_, by rwa [hm.tokensIn_eq]⟩
  · rw [hspelled, ← hds, hids]
    rcases hnames with rfl | ⟨name, rfl, hname⟩
    · rfl
    · simp [hname.spelled_eq]
  · rw [hids]
    rcases hnames with rfl | ⟨name, rfl, hname⟩
    · exact List.forall_mem_nil _
    · simpa using hname.isIdentifier

namespace Grammar

open Rule (Yields Input Left)

variable {t : Text} {rule : R} {left : Left} {i rest : Input} {nodes : List Node}

/-- What is asked for is a word. -/
def isWordy : Expect → Bool
  | .identifier | .kind .word => true
  | _ => false

/-- What is asked for is a dot. -/
def isDot : Expect → Bool
  | .text spelling => spelling == ['.']
  | _ => false

theorem next_of_isWordy {e : Expect} {k : Token} (he : isWordy e = true)
    (h : i.next? e = some (k, rest)) : e.isSolid = true ∧ k.kind = .word := by
  have hadmits := (Input.next?_eq_some h).2.2
  unfold isWordy at he
  split at he
  · exact ⟨rfl, beq_iff_eq.1 (Bool.and_eq_true_iff.1 hadmits).1⟩
  · exact ⟨rfl, beq_iff_eq.1 hadmits⟩
  · cases he

theorem next_of_text {spelling : Text} {k : Token}
    (h : i.next? (.text spelling) = some (k, rest)) : k.text = spelling :=
  beq_iff_eq.1 (Bool.and_eq_true_iff.1 (Input.next?_eq_some h).2.2).2

/-- What is read behind the first word of a name. -/
theorem trails_of_yields {d e : Expect} (hd : isDot d = true) (he : isWordy e = true)
    (h : Yields Grammar.rule (.many (.seq (.token d) (.leaf .identifier e))) left i nodes rest) :
    ∃ ks, i.Reads ks rest ∧ Trails ks nodes := by
  generalize hr : Rule.many _ = r at h
  induction h with
  | manyNone => exact ⟨[], .nil, .nil⟩
  | manyMore h₁ _ _ ih =>
    cases hr
    obtain ⟨ks, hreads, htrails⟩ := ih rfl
    obtain ⟨dot, mid, closed, hdot, h₁⟩ := h₁.seq_token_inv
    obtain ⟨word, hword, rfl⟩ := h₁.leaf_inv
    obtain ⟨hsolid, hkind⟩ := next_of_isWordy he hword
    unfold isDot at hd
    split at hd
    · have htext := (next_of_text hdot).trans (beq_iff_eq.1 hd)
      exact ⟨dot :: word :: ks, .next rfl hdot (.joined (.next hsolid hword (.joined hreads))),
        .cons htext hkind htrails⟩
    · cases hd
  | _ => cases hr

/-- The rule reads a name with dots. -/
def readsName : R → Bool
  | .node .dottedName (.seq (.leaf .identifier e) (.many (.seq (.token d) (.leaf .identifier e')))) =>
    isWordy e && isDot d && isWordy e'
  | _ => false

/-- A name with dots, and the tokens that it is read from. -/
theorem names_of_dotted (hi : Input.Leaves ⟨tokens t, 0⟩ i) (hr : readsName rule = true)
    (h : Yields Grammar.rule rule left i nodes rest) :
    ∃ n k ks, nodes = [n] ∧ n.field = none ∧ n.kind = .dottedName ∧ n.Names t 0 ∧
      n.identifiers t ≠ [] ∧ i.Reads (k :: ks) rest ∧ n.tokensIn t = k :: ks := by
  unfold readsName at hr
  split at hr
  · rename_i e d e'
    simp only [Bool.and_eq_true] at hr
    obtain ⟨ns, hns, rfl⟩ := h.node_inv
    obtain ⟨mid, closed, _, tail, rfl, hfirst, htail⟩ := hns.seq_inv
    obtain ⟨word, hword, rfl⟩ := hfirst.leaf_inv
    obtain ⟨hsolid, hkind⟩ := next_of_isWordy hr.1.1 hword
    obtain ⟨ks, hreads, htrails⟩ := trails_of_yields hr.1.2 hr.2 htail
    have hreads : i.Reads (word :: ks) rest := .next hsolid hword (.joined hreads)
    have hmade := Node.madeOf_of_reads hi hreads (Input.head?_of_next? hword)
      (n := .mk .dottedName none ⟨i.start, rest.last⟩ (word.identifier :: tail)) rfl
    obtain ⟨hnames, hne⟩ := Node.names_of_madeOf rfl hmade hkind rfl htrails
    exact ⟨_, word, ks, rfl, rfl, rfl, hnames, hne, hreads, hmade.tokensIn_eq⟩
  · cases hr

/-- The rule reads a token of dots. -/
def readsDots : R → Bool
  | .token (.text spelling) => spelling.all (· == '.')
  | .alt first other => readsDots first && readsDots other
  | _ => false

theorem next_of_readsDots (hr : readsDots rule = true)
    (h : Yields Grammar.rule rule left i nodes rest) : nodes = [] ∧ ∃ e k, e.isSolid = true ∧
      i.next? e = some (k, rest) ∧ ∀ c ∈ k.text, c = '.' := by
  induction rule with
  | token e =>
    obtain ⟨rfl, k, hk⟩ := h.token_inv
    cases e with
    | text spelling =>
      refine ⟨rfl, _, k, rfl, hk, fun c hc => ?_⟩
      rw [next_of_text hk] at hc
      exact beq_iff_eq.1 (List.all_eq_true.1 hr c hc)
    | _ => cases hr
  | alt first other ih₁ ih₂ =>
    obtain ⟨hr₁, hr₂⟩ := Bool.and_eq_true_iff.1 hr
    cases h with
    | altFirst h => exact ih₁ hr₁ h
    | altOther h => exact ih₂ hr₂ h
  | _ => cases hr

/-- Tokens of dots, as many as there are. -/
theorem dots_of_many (hr : readsDots rule = true)
    (h : Yields Grammar.rule (.many rule) left i nodes rest) :
    nodes = [] ∧ ∃ ks, i.Reads ks rest ∧ ∀ k ∈ ks, ∀ c ∈ k.text, c = '.' := by
  generalize hm : Rule.many rule = r at h
  induction h with
  | manyNone => exact ⟨rfl, [], .nil, List.forall_mem_nil _⟩
  | manyMore h₁ _ _ ih =>
    cases hm
    obtain ⟨rfl, ks, hreads, hdots⟩ := ih rfl
    obtain ⟨rfl, e, k, he, hk, hdot⟩ := next_of_readsDots hr h₁
    exact ⟨rfl, k :: ks, .next he hk (.joined hreads), List.forall_mem_cons.2 ⟨hdot, hdots⟩⟩
  | _ => cases hm

/-- The dots in front of a path. -/
theorem front_of_dots {first next : R} (hfirst : readsDots first = true) (hnext : readsDots next = true)
    (h : Yields Grammar.rule (.node .importPrefix (.seq first (.many next))) left i nodes rest) :
    ∃ n k ks, nodes = [n] ∧ n.identifiers t = [] ∧ i.tokens.head? = some k ∧
      i.Reads (k :: ks) rest ∧ ∀ d ∈ k :: ks, ∀ c ∈ d.text, c = '.' := by
  obtain ⟨_, hdots, rfl⟩ := h.node_inv
  obtain ⟨_, _, _, _, rfl, hdot, hmore⟩ := hdots.seq_inv
  obtain ⟨rfl, e, k, he, hk, hdot⟩ := next_of_readsDots hfirst hdot
  obtain ⟨rfl, ks, hreads, hmore⟩ := dots_of_many hnext hmore
  exact ⟨_, k, ks, rfl, rfl, Input.head?_of_next? hk, .next he hk (.joined hreads),
    List.forall_mem_cons.2 ⟨hdot, hmore⟩⟩

/-- The rule reads the path of a module: dots and perhaps a name, or only a name. -/
def readsModule : R → Bool
  | .alt (.node .relativeImport (.seq (.node .importPrefix (.seq first (.many next)))
      (.alt name .empty))) other =>
    readsDots first && readsDots next && readsName name && readsName other
  | _ => false

/-- The path of a module. -/
theorem names_of_module (hi : Input.Leaves ⟨tokens t, 0⟩ i) (hr : readsModule rule = true)
    (h : Yields Grammar.rule rule left i nodes rest) :
    ∃ n dots, nodes = [n] ∧ n.field = none ∧ n.kind ≠ .wildcardImport ∧ n.Names t dots := by
  unfold readsModule at hr
  split at hr
  · simp only [Bool.and_eq_true] at hr
    obtain ⟨⟨⟨hfirst, hnext⟩, hname⟩, hother⟩ := hr
    cases h with
    | altFirst h =>
      obtain ⟨_, hparts, rfl⟩ := h.node_inv
      obtain ⟨mid, closed, _, names, rfl, hfront, hrest⟩ := hparts.seq_inv
      obtain ⟨front, k, ds, rfl, hids, hhead, hreads, hdots⟩ := front_of_dots hfirst hnext hfront
      -- the name may be missing, and then only a line end is passed over
      have hnames : (names = [] ∨ ∃ name, names = [name] ∧ name.Names t 0) ∧
          i.Reads (k :: (ds ++ names.flatMap (Node.tokensIn t))) rest := by
        rcases hrest.opt_inv with h | ⟨rfl, rfl⟩
        · obtain ⟨n, k', ks, rfl, -, -, hnames, -, hreads', htokens⟩ :=
            names_of_dotted (hi.trans_joined hreads.leaves) hname h
          rw [← htokens, ← List.flatMap_singleton (Node.tokensIn t) n] at hreads'
          exact ⟨.inr ⟨n, rfl, hnames⟩, hreads.append (.joined hreads')⟩
        · exact ⟨.inl rfl, hreads.append (.joined .nil)⟩
      have hmade := Node.madeOf_of_reads hi hnames.2 hhead
        (n := .mk .relativeImport none ⟨i.start, rest.last⟩ (front :: names)) rfl
      obtain ⟨dots, hnames⟩ := Node.names_of_relative rfl rfl hids hmade hdots hnames.1
      exact ⟨_, dots, rfl, rfl, nofun, hnames⟩
    | altOther h =>
      obtain ⟨n, _, _, rfl, hfield, hkind, hnames, -⟩ := names_of_dotted hi hother h
      exact ⟨n, 0, rfl, hfield, by rw [hkind]; decide, hnames⟩
  · cases hr

end Grammar

end Python

end RouteScript
