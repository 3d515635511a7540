import Mathlib.Data.List.Find
import RouteScript.Proofs.CalledNames
import RouteScript.Proofs.DottedNames
import RouteScript.Proofs.ImportResolution

/-!
# How imports are spelled

The names in an import are words and dots, and blanks may stand between any two of them.  The path in
a `from` statement is read without blanks, but all other names are read as they stand: so a name with
anything between its tokens is bound under a spelling that no call has, since the path in front of a
called name is put together from its identifiers.

* `Node.IsImported`, `Node.HasImports`: what the grammar makes of imports.
* `ImportedName`, `Reading`: the names that are imported, and how they can be read.
* `ImportedName.IsExact`, `ImportedName.binding_eq_iff`: when the text is as good as the tokens.
* `CallSite.isPathOf_of_dottedPath?`: the path in front of a called name.
* `Document.bindings_ofTokens_iff`: all of it together.
-/

namespace RouteScript

open Python (Node IsIdentifier gaps)

/-! ### What the grammar makes of imports -/

namespace Python

/-- The node is a name with dots. -/
structure Node.IsName (t : Text) (n : Node) : Prop where
  names : n.Names t 0
  ne_nil : n.identifiers t ≠ []

/-- The node is a name with dots, perhaps with another name given to it. -/
inductive Node.IsImported (t : Text) : Node → Prop where
  | plain {n : Node} (hf : n.field = some .name) (hk : n.kind = .dottedName) (h : n.IsName t) :
      IsImported t n
  | aliased {n target given : Node} (hf : n.field = some .name) (hk : n.kind = .aliasedImport)
      (ht : n.child? .name = some target) (hg : n.child? .newName = some given) (h : target.IsName t)
      (hgiven : IsIdentifier (t.slice given.span)) : IsImported t n

/-- The nodes are one star, or names. -/
def Node.AreMembers (t : Text) (names : List Node) : Prop :=
  (∃ star, names = [star] ∧ star.kind = .wildcardImport ∧ gaps t (star.tokensIn t) = []) ∨
    ∀ c ∈ names, c.IsImported t

/-- The names of an `import` statement; the path and the members of a `from` statement. -/
structure Node.HasImports (t : Text) (n : Node) : Prop where
  whole : n.kind = .importStatement → ∀ c ∈ n.children, c.IsImported t
  members : n.kind = .importFromStatement → ∃ module dots names, n.children = module :: names ∧
    module.field = some .moduleName ∧ module.kind ≠ .wildcardImport ∧ module.Names t dots ∧
    AreMembers t names

theorem Node.IsName.withField {t : Text} {n : Node} (h : n.IsName t) (f : Field) :
    (n.withField f).IsName t := by
  refine ⟨h.names.withField f, ?_⟩
  rw [identifiers_withField]
  exact h.ne_nil

theorem Node.hasImports_withField {t : Text} {n : Node} (f : Field) (h : n.HasImports t) :
    (n.withField f).HasImports t := by
  constructor
  · simpa only [kind_withField, children_withField] using h.whole
  · simpa only [kind_withField, children_withField] using h.members

theorem Node.hasImports_of_kind {t : Text} {n : Node} (h : n.kind ≠ .importStatement)
    (h' : n.kind ≠ .importFromStatement) : n.HasImports t :=
  ⟨fun hk => absurd hk h, fun hk => absurd hk h'⟩

namespace Grammar

open Rule (Yields Input Left)

variable {t : Text} {left : Left} {i rest : Input} {nodes : List Node}

theorem importedName_inv (hi : Input.Leaves ⟨tokens t, 0⟩ i)
    (h : Yields rule importedName left i nodes rest) : ∀ n ∈ nodes, n.IsImported t := by
  obtain ⟨_, hchain, rfl⟩ := h.field_inv
  -- what has another name is no name with dots, and cannot be given one more
  obtain ⟨mid, closed, ns, hname, hnodes⟩ := hchain.chain_inv_once fun h₁ h₂ => by
    obtain ⟨-, _, -, rfl⟩ := h₁.wrap_inv
    exact Bool.false_ne_true h₂.wrap_inv.1
  obtain ⟨n, _, _, rfl, hfield, hkind, hnames, hne, -⟩ := names_of_dotted hi rfl hname
  rcases hnodes with ⟨rfl, -⟩ | ⟨_, _, hgiven, -⟩
  · refine List.forall_mem_singleton.2 (.plain (Node.field_withField hfield _) ?_ ?_)
    · rwa [Node.kind_withField]
    · exact Node.IsName.withField ⟨hnames, hne⟩ _
  · obtain ⟨-, _, hparts, rfl⟩ := hgiven.wrap_inv
    obtain ⟨_, mid', closed', has, hgiven⟩ := hparts.seq_token_inv
    obtain ⟨_, hleaf, rfl⟩ := hgiven.field_inv
    obtain ⟨word, hword, rfl⟩ := hleaf.leaf_inv
    obtain ⟨htokens, -, hadmits⟩ := Input.next?_eq_some hword
    have hleaves : Input.Leaves ⟨tokens t, 0⟩ (mid'.joined closed') :=
      (hi.trans_joined hname.leaves).trans_joined (.next has)
    have hmem : word ∈ tokens t := hleaves.subset (by rw [htokens]; exact List.mem_cons_self)
    have hfield := Node.field_withField hfield .name
    refine List.forall_mem_singleton.2 (@Node.IsImported.aliased t _ (n.withField .name)
      (word.identifier.withField .newName) rfl rfl ?_ ?_
      (Node.IsName.withField ⟨hnames, hne⟩ _) (isIdentifier_of_word hmem (beq_iff_eq.1 hadmits)))
    · exact List.find?_cons_of_pos (by rw [hfield]; rfl)
    · exact (List.find?_cons_of_neg (by rw [hfield]; decide)).trans rfl

theorem importList_inv (hi : Input.Leaves ⟨tokens t, 0⟩ i)
    (h : Yields rule (.symbol .importList) left i nodes rest) : ∀ n ∈ nodes, n.IsImported t :=
  h.symbol_inv.forall_listedEnd importedName_inv hi

/-- A star, or names that may be in parentheses. -/
theorem members_inv {spelling : Text} {opening closing : Expect} (hi : Input.Leaves ⟨tokens t, 0⟩ i)
    (h : Yields rule (.alt (.node .wildcardImport (.token (.text spelling))) (.alt (.seq
      (.token opening) (.seq (.symbol .importList) (.token closing))) (.symbol .importList)))
      left i nodes rest) : Node.AreMembers t nodes := by
  cases h with
  | altFirst h =>
    obtain ⟨_, hstar, rfl⟩ := h.node_inv
    obtain ⟨rfl, k, hk⟩ := hstar.token_inv
    have hmade := Node.madeOf_of_reads hi (.next rfl hk .nil) (Input.head?_of_next? hk)
      (n := .mk .wildcardImport none ⟨i.start, rest.last⟩ []) rfl
    exact .inl ⟨_, rfl, rfl, by rw [hmade.tokensIn_eq]; rfl⟩
  | altOther h =>
    cases h with
    | altFirst h =>
      obtain ⟨_, _, _, hopen, hinside⟩ := h.seq_token_inv
      obtain ⟨_, _, _, _, rfl, hlist, hclose⟩ := hinside.seq_inv
      obtain ⟨rfl, -⟩ := hclose.token_inv
      rw [List.append_nil]
      exact .inr (importList_inv (hi.trans_joined (.next hopen)) hlist)
    | altOther h => exact .inr (importList_inv hi h)

/-- The rules by which import statements are built. -/
def isImport : Kind → Option R → Bool
  | .importStatement, some (.seq (.token _) (.symbol .importList)) => true
  | .importFromStatement, some (.seq (.token _) (.seq (.field .moduleName module) (.seq (.token _)
      (.alt (.node .wildcardImport (.token (.text _))) (.alt (.seq (.token _)
        (.seq (.symbol .importList) (.token _))) (.symbol .importList)))))) => readsModule module
  | .importStatement, _ | .importFromStatement, _ => false
  | _, _ => true

theorem every_isImport (s : Symbol) : (rule s).every isImport (fun _ => true) = true := by
  cases s with
  | binary level => exact every_binary rfl rfl (fun _ => rfl) level
  | _ => rfl

end Grammar

open Rule (Yields)

theorem Node.hasImports_of_yields {t : Text} {kind : Kind} {rule : Grammar.R} {left : Rule.Left}
    {i rest : Rule.Input} {nodes : List Node} {span : Span}
    (htest : Grammar.isImport kind (some rule) = true) (hi : Rule.Input.Leaves ⟨tokens t, 0⟩ i)
    (h : Yields Grammar.rule rule left i nodes rest) :
    (Node.mk kind none span nodes).HasImports t := by
  unfold Grammar.isImport at htest
  split at htest
  · rename_i heq
    obtain rfl := Option.some.inj heq
    obtain ⟨_, _, _, hword, h⟩ := h.seq_token_inv
    exact ⟨fun _ => Grammar.importList_inv (hi.trans_joined (.next hword)) h, nofun⟩
  · rename_i heq
    obtain rfl := Option.some.inj heq
    obtain ⟨_, mid, closed, hfrom, hparts⟩ := h.seq_token_inv
    obtain ⟨mid', closed', _, names, rfl, hmodule, hrest⟩ := hparts.seq_inv
    obtain ⟨_, last, closed'', himport, hmembers⟩ := hrest.seq_token_inv
    have hi : Rule.Input.Leaves ⟨tokens t, 0⟩ (mid.joined closed) := hi.trans_joined (.next hfrom)
    have hi' : Rule.Input.Leaves ⟨tokens t, 0⟩ (last.joined closed'') :=
      (hi.trans_joined hmodule.leaves).trans_joined (.next himport)
    obtain ⟨_, hpath, rfl⟩ := hmodule.field_inv
    obtain ⟨module, dots, rfl, hfield, hkind, hnames⟩ := Grammar.names_of_module hi htest hpath
    exact ⟨nofun, fun _ => ⟨_, dots, names, rfl, field_withField hfield _, by rwa [kind_withField],
      hnames.withField _, Grammar.members_inv hi' hmembers⟩⟩
  · cases htest
  · cases htest
  · rename_i hstatement hfrom _ _
    exact hasImports_of_kind hstatement hfrom

/-- The import statements below the root have their names. -/
theorem Tree.hasImports_ofText (t : Text) :
    Node.All (Node.HasImports t) (ofText t).root.children := by
  refine all_of_every Grammar.every_isImport (fun _ => Node.hasImports_withField) ?_
    (fun kind rule left i nodes rest htest => Node.hasImports_of_yields htest)
  intro kind span children htest
  refine Node.hasImports_of_kind ?_ ?_ <;> rintro rfl <;> cases htest

end Python

/-! ### Imported names -/

/-- A name in an import statement. -/
structure ImportedName where
  statement : Node
  node : Node

namespace ImportedName

/-- What is imported, without another name given to it. -/
def target (x : ImportedName) : Node :=
  if x.node.kind == .aliasedImport then (x.node.child? .name).getD x.node else x.node

/-- The other name given to it. -/
def given? (t : Text) (x : ImportedName) : Option String :=
  if x.node.kind == .aliasedImport then (x.node.child? .newName).map (·.textIn t) else none

/-- The path in a `from` statement. -/
def module? (x : ImportedName) : Option Node := x.statement.child? .moduleName

/-- The identifiers by which the importing document names what is imported. -/
def accessed (t : Text) (x : ImportedName) : List Text :=
  match x.given? t with
  | some given => [given.toList]
  | none => x.target.identifiers t

/-- Nothing stands between the tokens of the name, and only blanks between those of the path. -/
structure IsExact (t : Text) (x : ImportedName) : Prop where
  name : ∀ g ∈ gaps t (x.target.tokensIn t), g = []
  module : ∀ m, x.module? = some m → ∀ g ∈ gaps t (m.tokensIn t), ∀ c ∈ g, isBlank c = true

/-- The tokens of the name spell its identifiers with dots between, and those of the path some more
dots in front. -/
structure IsSpelled (t : Text) (x : ImportedName) : Prop where
  name : x.node.kind ≠ .wildcardImport → x.target.IsName t
  module : ∀ m, x.module? = some m → ∃ dots, m.Names t dots

end ImportedName

/-- How the nodes of imports are read: paths, names and the first identifiers of names. -/
structure Reading where
  module : Node → String
  name : Node → String
  first : Node → String

namespace Reading

/-- Names as they stand, and paths without blanks. -/
def ofText (t : Text) : Reading where
  module n := .ofList (t.slice n.span).squeeze
  name n := n.textIn t
  first n := .ofList ((n.textIn t).toList.takeWhile (· != '.'))

/-- What the tokens spell. -/
def ofTokens (t : Text) : Reading where
  module n := .ofList (n.spelled t)
  name n := .ofList (n.spelled t)
  first n := .ofList ((n.identifiers t).headD [])

end Reading

/-- The binding that an imported name makes, in a reading. -/
def ImportedName.binding (t : Text) (r : Reading) (x : ImportedName) : Binding :=
  let name := r.name x.target
  match x.module? with
  | none => { Binding.ofNode t x.node ((x.given? t).getD (r.first x.target)) .whole name with
      accessPath := (x.given? t).getD name }
  | some m =>
    if x.node.kind == .wildcardImport then .ofNode t x.node "*" .everything (r.module m)
    else .ofNode t x.node ((x.given? t).getD name) (.member name) (r.module m)

/-- The names in a node, if it is an import statement. -/
def ImportedName.ofNode (n : Node) : List ImportedName :=
  if n.kind == .importStatement || n.kind == .importFromStatement then
    (n.children.filter fun c => c.field == some .name || c.kind == .wildcardImport).map (⟨n, ·⟩)
  else []

/-- The names imported into a document, in document order. -/
def Document.importedNames (d : Document) : List ImportedName :=
  d.root.descendants.flatMap ImportedName.ofNode

namespace ImportedName

variable {t : Text} {x : ImportedName} {s n : Node}

/-- What is known of a name in an import. -/
theorem parts_of_isImported (h : n.IsImported t) :
    n.field = some .name ∧ n.kind ≠ .wildcardImport ∧ (⟨s, n⟩ : ImportedName).target.IsName t ∧
      ∀ given, (⟨s, n⟩ : ImportedName).given? t = some given → IsIdentifier given.toList := by
  cases h with
  | plain hf hk h => simp [target, given?, hf, hk, h]
  | aliased hf hk ht hg h hgiven =>
    simp [target, given?, hf, hk, ht, hg, h, Node.textIn, Text.sliceString, hgiven]

theorem ofModuleName?_eq (h : n.IsImported t) (hs : s.child? .moduleName = none) :
    Binding.ofModuleName? t n = some (binding t (.ofText t) ⟨s, n⟩) := by
  cases h with
  | plain _ hk =>
    simp [Binding.ofModuleName?, binding, module?, target, given?, hk, hs, Reading.ofText]
  | aliased _ hk ht hg =>
    simp [Binding.ofModuleName?, Binding.aliased?, Binding.ofNode, binding, module?, target, given?,
      hk, hs, ht, hg, Reading.ofText]

theorem ofMemberName?_eq (h : n.IsImported t) {m : Node} (hs : s.child? .moduleName = some m) :
    Binding.ofMemberName? t ((Reading.ofText t).module m) n =
      some (binding t (.ofText t) ⟨s, n⟩) := by
  cases h with
  | plain _ hk =>
    simp [Binding.ofMemberName?, binding, module?, target, given?, hk, hs, Reading.ofText]
  | aliased _ hk ht hg =>
    simp [Binding.ofMemberName?, Binding.aliased?, binding, module?, target, given?, hk, hs, ht, hg,
      Reading.ofText]

/-- An imported name in a tree. -/
structure Stands (t : Text) (x : ImportedName) : Prop extends IsSpelled t x where
  star : x.node.kind = .wildcardImport → (∃ m, x.module? = some m) ∧ gaps t (x.target.tokensIn t) = []
  given : ∀ given, x.given? t = some given → IsIdentifier given.toList

theorem stands_of_isImported (h : n.IsImported t)
    (hm : ∀ m, s.child? .moduleName = some m → ∃ dots, m.Names t dots) : Stands t ⟨s, n⟩ := by
  obtain ⟨-, hk, htarget, hgiven⟩ := parts_of_isImported h
  exact ⟨⟨fun _ => htarget, hm⟩, fun hw => absurd hw hk, hgiven⟩

theorem filter_of_isImported {names : List Node} (h : ∀ c ∈ names, c.IsImported t) :
    names.filter (·.field == some .name) = names ∧
      names.filter (fun c => c.field == some .name || c.kind == .wildcardImport) = names := by
  have hfield : ∀ c ∈ names, (c.field == some .name) = true := fun c hc => by
    rw [(parts_of_isImported (s := c) (h c hc)).1]
    rfl
  exact ⟨List.filter_eq_self.2 hfield,
    List.filter_eq_self.2 fun c hc => by rw [hfield c hc, Bool.true_or]⟩

/-- The bindings of an `import` statement are those of its names as they stand in the text. -/
theorem ofStatement_whole (hk : s.kind = .importStatement) (h : ∀ c ∈ s.children, c.IsImported t) :
    (∀ x ∈ ofNode s, x.Stands t) ∧
      Binding.ofStatement t s = (ofNode s).map (binding t (.ofText t)) := by
  obtain ⟨hnames, hall⟩ := filter_of_isImported h
  have hmodule : s.child? .moduleName = none := by
    refine List.find?_eq_none.2 fun c hc => ?_
    rw [(parts_of_isImported (s := s) (h c hc)).1]
    decide
  have hofNode : ofNode s = s.children.map (⟨s, ·⟩) := by
    rw [ofNode, hk, hall]
    rfl
  rw [hofNode, List.forall_mem_map, List.map_map, Binding.ofStatement, hk, hnames]
  refine ⟨fun c hc => stands_of_isImported (h c hc) (by rw [hmodule]; nofun), ?_⟩
  exact List.filterMap_eq_map_iff_forall_eq_some.2 fun c hc => ofModuleName?_eq (h c hc) hmodule

/-- Those of a `from` statement, with its path without blanks. -/
theorem ofStatement_members {module : Node} {names : List Node} {dots : Nat}
    (hk : s.kind = .importFromStatement) (hc : s.children = module :: names)
    (hf : module.field = some .moduleName) (hm : module.kind ≠ .wildcardImport)
    (hpath : module.Names t dots) (h : Node.AreMembers t names) :
    (∀ x ∈ ofNode s, x.Stands t) ∧
      Binding.ofStatement t s = (ofNode s).map (binding t (.ofText t)) := by
  have hmodule : s.child? .moduleName = some module := by
    rw [Node.child?, hc, List.find?_cons_of_pos (by rw [hf]; rfl)]
  have hpaths : ∀ m, s.child? .moduleName = some m → ∃ dots, m.Names t dots := by
    rintro m hm
    cases hmodule.symm.trans hm
    exact ⟨dots, hpath⟩
  rcases h with ⟨star, rfl, hstar, hgaps⟩ | h
  · have hofNode : ofNode s = [⟨s, star⟩] := by
      simp [ofNode, hk, hc, hf, hm, hstar]
    rw [hofNode, List.forall_mem_singleton]
    constructor
    · refine ⟨⟨fun hne => absurd hstar hne, hpaths⟩, fun _ => ⟨⟨module, hmodule⟩, ?_⟩, ?_⟩
      · simpa [target, hstar] using hgaps
      · simp [given?, hstar]
    · simp [Binding.ofStatement, hk, hmodule, hc, hm, hstar, binding, module?, Reading.ofText]
  · obtain ⟨hnames, hall⟩ := filter_of_isImported h
    have hofNode : ofNode s = names.map (⟨s, ·⟩) := by
      rw [ofNode, hk, hc, List.filter_cons_of_neg (by simp [hf, hm]), hall]
      rfl
    have hstar : (module :: names).find? (·.kind == .wildcardImport) = none := by
      refine List.find?_eq_none.2 (List.forall_mem_cons.2 ⟨by simpa using hm, fun c hc => ?_⟩)
      simpa using (parts_of_isImported (s := s) (h c hc)).2.1
    rw [hofNode, List.forall_mem_map, List.map_map]
    refine ⟨fun c hc => stands_of_isImported (h c hc) hpaths, ?_⟩
    simp only [Binding.ofStatement, hk, hmodule, hc, hstar]
    rw [List.filter_cons_of_neg (by rw [hf]; decide), hnames]
    exact List.filterMap_eq_map_iff_forall_eq_some.2 fun c hc => ofMemberName?_eq (h c hc) hmodule

/-- The bindings of any node are those of its names as they stand in the text. -/
theorem ofStatement_eq (h : s.HasImports t) :
    (∀ x ∈ ofNode s, x.Stands t) ∧
      Binding.ofStatement t s = (ofNode s).map (binding t (.ofText t)) := by
  by_cases hk : s.kind = .importStatement
  · exact ofStatement_whole hk (h.whole hk)
  · by_cases hk' : s.kind = .importFromStatement
    · obtain ⟨module, dots, names, hc, hf, hm, hpath, hnames⟩ := h.members hk'
      exact ofStatement_members hk' hc hf hm hpath hnames
    · have hofNode : ofNode s = [] := by simp [ofNode, hk, hk']
      rw [hofNode]
      refine ⟨List.forall_mem_nil _, ?_⟩
      unfold Binding.ofStatement
      split
      · exact absurd ‹_› hk
      · exact absurd ‹_› hk'
      · rfl

/-! ### When the text is as good as the tokens -/

theorem takeWhile_joinWith {first : Text} (h : IsIdentifier first) (rest : List Text) :
    (Text.joinWith '.' (first :: rest)).takeWhile (· != '.') = first := by
  have hfirst : ∀ c ∈ first, (c != '.') = true := fun c hc =>
    bne_iff_ne.2 fun heq => h.dot (heq ▸ hc)
  rw [Text.joinWith_cons, List.takeWhile_append_of_pos hfirst]
  cases rest <;> simp

/-- A name that is read as its tokens spell it starts with its first identifier. -/
theorem first_eq (h : n.IsName t)
    (hname : (Reading.ofText t).name n = (Reading.ofTokens t).name n) :
    (Reading.ofText t).first n = (Reading.ofTokens t).first n := by
  obtain ⟨first, rest, hids⟩ := List.exists_cons_of_ne_nil h.ne_nil
  have hfirst : IsIdentifier first :=
    h.names.isIdentifier first (by rw [hids]; exact List.mem_cons_self)
  have hspelled : n.spelled t = Text.joinWith '.' (first :: rest) := by
    rw [h.names.spelled_eq, hids]
    rfl
  simp only [Reading.ofText, Reading.ofTokens] at hname ⊢
  rw [hname, hspelled, String.toList_ofList, takeWhile_joinWith hfirst, hids]
  rfl

theorem name_eq_iff (h : n.IsName t) : (Reading.ofText t).name n = (Reading.ofTokens t).name n ↔
    ∀ g ∈ gaps t (n.tokensIn t), g = [] := by
  rw [← h.names.slice_eq_iff]
  exact String.ofList_inj

theorem module_eq_iff {dots : Nat} (h : n.Names t dots) :
    (Reading.ofText t).module n = (Reading.ofTokens t).module n ↔
      ∀ g ∈ gaps t (n.tokensIn t), ∀ c ∈ g, isBlank c = true := by
  rw [← h.squeeze_eq_iff]
  exact String.ofList_inj

/-- The binding says what the tokens say if and only if the name is exact. -/
theorem binding_eq_iff (h : x.Stands t) :
    binding t (.ofText t) x = binding t (.ofTokens t) x ↔ x.IsExact t := by
  have hexact : x.IsExact t ↔ (∀ g ∈ gaps t (x.target.tokensIn t), g = []) ∧
      ∀ m, x.module? = some m → ∀ g ∈ gaps t (m.tokensIn t), ∀ c ∈ g, isBlank c = true :=
    ⟨fun h => ⟨h.name, h.module⟩, fun h => ⟨h.1, h.2⟩⟩
  rw [hexact]
  cases hm : x.module? with
  | none =>
    -- no star stands here, and a name as it is spelled starts with its first identifier
    have hname := h.name fun hstar => by
      obtain ⟨⟨m, hsome⟩, -⟩ := h.star hstar
      cases hm.symm.trans hsome
    rw [← name_eq_iff hname]
    constructor
    · intro heq
      have hpath := congrArg Binding.modulePath heq
      simp only [binding, hm] at hpath
      exact ⟨hpath, nofun⟩
    · rintro ⟨heq, -⟩
      simp only [binding, hm, heq, first_eq hname heq]
  | some m =>
    obtain ⟨dots, hmodule⟩ := h.module m hm
    by_cases hstar : x.node.kind = .wildcardImport
    · rw [(h.star hstar).2]
      simp [binding, hm, hstar, Binding.ofNode, module_eq_iff hmodule]
    · have hname := h.name hstar
      rw [← name_eq_iff hname]
      simp only [Option.some.injEq, forall_eq', ← module_eq_iff hmodule]
      constructor
      · intro heq
        have hpath := congrArg Binding.modulePath heq
        have htarget := congrArg Binding.target heq
        simp only [binding, hm, beq_eq_false_iff_ne.2 hstar, Binding.ofNode, Bool.false_eq_true,
          if_false, Imported.member.injEq] at hpath htarget
        exact ⟨htarget, hpath⟩
      · rintro ⟨heq, heq'⟩
        simp only [binding, hm, heq, heq']

end ImportedName

/-! ### Calls through imports -/

theorem Text.joinWith_append_singleton (sep : Char) {parts : List Text} (hne : parts ≠ [])
    (last : Text) : joinWith sep (parts ++ [last]) = joinWith sep parts ++ sep :: last := by
  obtain ⟨part, parts, rfl⟩ := List.exists_cons_of_ne_nil hne
  rw [List.cons_append, joinWith_cons, joinWith_cons, List.flatMap_append, List.flatMap_singleton,
    List.append_assoc]

namespace CallSite

open EngineCall (shaped_below)

/-- The path is put together from the identifiers in the node. -/
structure IsPathOf (t : Text) (n : Node) (path : String) : Prop where
  eq : path = .ofList (Text.joinWith '.' (n.identifiers t))
  ne_nil : n.identifiers t ≠ []
  isIdentifier : ∀ name ∈ n.identifiers t, IsIdentifier name

/-- The path in front of a called name is that of its identifiers. -/
theorem isPathOf_of_dottedPath? {t : Text} {n : Node} {path : String}
    (hs : ∀ k ∈ n.descendants, k.Shaped (Python.tokens t)) (h : dottedPath? t n = some path) :
    IsPathOf t n path := by
  match n with
  | .mk kind field span children =>
    have hshape := hs _ (Node.mem_descendants_self _)
    -- the path goes down through the objects, which are children
    have ih : ∀ object ∈ children, ∀ front, dottedPath? t object = some front →
        IsPathOf t object front := fun object hmem front hfront =>
      isPathOf_of_dottedPath? (shaped_below hs hmem) hfront
    rw [dottedPath?] at h
    split at h
    · rename_i hk
      obtain rfl := beq_iff_eq.1 hk
      obtain ⟨hc, word, hword, hkind, hspan⟩ := hshape
      have hids := Node.identifiers_of_identifier (t := t) (n := .mk .identifier field span children)
        rfl hc
      cases h
      refine ⟨by rw [hids]; rfl, by rw [hids]; exact List.cons_ne_nil _ _, ?_⟩
      rw [hids, List.forall_mem_singleton, ← hspan]
      exact Python.isIdentifier_of_word hword hkind
    · split at h
      · rename_i hk
        obtain rfl := beq_iff_eq.1 hk
        obtain ⟨object, member, hc, hobject, hid, hmember⟩ := hshape
        obtain rfl : children = [object, member] := hc
        obtain ⟨front, hfront, h⟩ := Option.bind_eq_some_iff.1 h
        obtain ⟨last, hlast, h⟩ := Option.bind_eq_some_iff.1 h
        cases h
        rw [objectPath?, if_pos (by rw [hobject]; rfl)] at hfront
        obtain ⟨rfl, hne, hnames⟩ := ih object List.mem_cons_self front hfront
        -- the member is the second part of the attribute, a word
        rw [Node.child?, Node.children, List.find?_cons_of_neg (by rw [hobject]; decide)] at hlast
        obtain rfl := List.mem_singleton.1 (List.mem_of_find?_eq_some hlast)
        have hword := hs last (Node.mem_descendants_of_mem_children (by simp [Node.children]))
        rw [Node.Shaped, hid] at hword
        obtain ⟨hc, word, hword, hkind, hspan⟩ := hword
        have hids : (Node.mk .attribute field span [object, last]).identifiers t =
            object.identifiers t ++ [t.slice last.span] := by
          rw [Node.identifiers_eq (by rintro ⟨⟩), ← Node.identifiers_of_identifier hid hc]
          simp [Node.children]
        refine ⟨String.toList_injective ?_, by simp [hids], ?_⟩
        · rw [hids, Text.joinWith_append_singleton '.' hne]
          simp [Node.textIn, Text.sliceString]
        · rw [hids, List.forall_mem_append, List.forall_mem_singleton, ← hspan]
          exact ⟨hnames, Python.isIdentifier_of_word hword hkind⟩
      · cases h
termination_by sizeOf n
decreasing_by
  have := List.sizeOf_lt_of_mem hmem
  simp only [Node.mk.sizeOf_spec]
  omega

/-- The site is a call of a name behind the object. -/
def IsThrough (d : Document) (s : CallSite) (object : Node) : Prop :=
  ∃ call ∈ d.root.descendants, call.kind = .call ∧ call.span = s.span ∧
    ∃ function, call.child? .function = some function ∧ function.kind = .attribute ∧
      function.child? .object = some object

theorem exists_isThrough {d : Document} {s : CallSite} {path : String} (h : s ∈ d.callSites)
    (hq : s.qualifier = some path) : ∃ object, s.IsThrough d object ∧
      dottedPath? d.text object = some path := by
  obtain ⟨⟨scope, call⟩, hcall, h⟩ := List.mem_filterMap.1 h
  simp only [ofNode?, Option.bind_eq_bind, Option.bind_eq_some_iff, Option.guard_eq_some',
    exists_const, beq_iff_eq] at h
  obtain ⟨hk, function, hfunction, ⟨name, qualifier⟩, hname, h⟩ := h
  cases h
  unfold callee? at hname
  split at hname
  · cases hname
    cases hq
  · split at hname
    · rename_i hattribute
      obtain ⟨object, hobject, hname⟩ := Option.bind_eq_some_iff.1 hname
      obtain ⟨member, -, hname⟩ := Option.bind_eq_some_iff.1 hname
      obtain ⟨path', hpath, hname⟩ := Option.bind_eq_some_iff.1 hname
      refine ⟨object, ⟨call, Node.mem_descendants_of_mem_withScopes hcall, hk, rfl, function,
        hfunction, beq_iff_eq.1 hattribute, hobject⟩, ?_⟩
      split_ifs at hname <;> cases hname
      · cases hq
      · cases hq
        exact hpath
    · cases hname

end CallSite

namespace ImportedName

variable {t : Text} {x : ImportedName}

theorem isIdentifier_of_mem_accessed (h : x.Stands t) (hstar : x.node.kind ≠ .wildcardImport) :
    x.accessed t ≠ [] ∧ ∀ name ∈ x.accessed t, IsIdentifier name := by
  unfold accessed
  split
  · rename_i given hgiven
    exact ⟨List.cons_ne_nil _ _, List.forall_mem_singleton.2 (h.given given hgiven)⟩
  · exact ⟨(h.name hstar).ne_nil, (h.name hstar).names.isIdentifier⟩

/-- The importing document names what is imported by identifiers with dots between. -/
theorem accessPath_binding (h : x.Stands t) (hstar : x.node.kind ≠ .wildcardImport) :
    (binding t (.ofTokens t) x).accessPath = .ofList (Text.joinWith '.' (x.accessed t)) := by
  have hspelled : x.target.spelled t = Text.joinWith '.' (x.target.identifiers t) :=
    (h.name hstar).names.spelled_eq
  have haccess : (binding t (.ofTokens t) x).accessPath =
      (x.given? t).getD (.ofList (x.target.spelled t)) := by
    unfold binding
    simp only
    split
    · rfl
    · rw [if_neg (by simpa using hstar)]
      rfl
  rw [haccess, accessed, hspelled]
  cases x.given? t with
  | none => rfl
  | some given => exact String.ofList_toList.symm

/-- No import of all names becomes one of a module. -/
theorem isModule_bind_star (h : x.Stands t) (hstar : x.node.kind = .wildcardImport)
    (known : String → Bool) (roots : List Path) (importer : String) (r : Reading) :
    (Resolution.bind known roots importer (binding t r x)).isModule = false := by
  obtain ⟨m, hm⟩ := (h.star hstar).1
  have htarget : (binding t r x).target = .everything := by
    simp [binding, hm, hstar, Binding.ofNode]
  have hnone : ∀ name, ¬ Resolution.Nests known roots importer (binding t r x) name := fun name hn =>
    by cases htarget.symm.trans hn.target
  rw [Binding.isModule, ((Resolution.settles_bind _).other hnone).1, htarget]
  rfl

end ImportedName

theorem joinWith_inj_of_isIdentifier {names names' : List Text} (hne : names ≠ [])
    (hne' : names' ≠ []) (h : ∀ name ∈ names, IsIdentifier name)
    (h' : ∀ name ∈ names', IsIdentifier name) :
    Text.joinWith '.' names = Text.joinWith '.' names' ↔ names = names' := by
  refine ⟨fun heq => ?_, congrArg _⟩
  rw [← Text.splitOn_joinWith hne fun name hname => (h name hname).dot, heq,
    Text.splitOn_joinWith hne' fun name hname => (h' name hname).dot]

namespace Document

open ImportedName Resolution

theorem hasImports_of_mem (d : Document) : ∀ n ∈ d.root.descendants, n.HasImports d.text := by
  refine d.forall_descendants (Python.Tree.hasImports_ofText d.text) fun n hk => ?_
  refine Node.hasImports_of_kind ?_ ?_ <;> rw [hk] <;> decide

/-- The imported names of a document stand in it. -/
theorem stands_of_mem (d : Document) {x : ImportedName} (h : x ∈ d.importedNames) :
    x.Stands d.text := by
  obtain ⟨n, hn, hx⟩ := List.mem_flatMap.1 h
  exact (ofStatement_eq (d.hasImports_of_mem n hn)).1 x hx

/-- The bindings of a document are those of its imported names as they stand in the text. -/
theorem bindings_eq (d : Document) :
    d.bindings = d.importedNames.map (binding d.text (.ofText d.text)) := by
  rw [bindings, importedNames, List.map_flatMap]
  exact List.flatMap_congr fun n hn => (ofStatement_eq (d.hasImports_of_mem n hn)).2

/-- The bindings are those of the tokens just if all imported names are exact. -/
theorem bindings_eq_iff (d : Document) :
    d.bindings = d.importedNames.map (binding d.text (.ofTokens d.text)) ↔
      ∀ x ∈ d.importedNames, x.IsExact d.text := by
  rw [bindings_eq, List.map_inj_left]
  exact forall₂_congr fun x hx => binding_eq_iff (d.stands_of_mem hx)

/-- Where all imported names are exact, a path of identifiers leads to the first module that is
imported by the same identifiers. -/
theorem module?_eq {d : Document} (h : ∀ x ∈ d.importedNames, x.IsExact d.text)
    (known : String → Bool) (roots : List Path) {names : List Text} (hne : names ≠ [])
    (hnames : ∀ name ∈ names, IsIdentifier name) :
    let settle (x : ImportedName) :=
      Resolution.bind known roots d.uri (x.binding d.text (.ofTokens d.text))
    Resolution.module? (d.bindings.map (Resolution.bind known roots d.uri))
        (.ofList (Text.joinWith '.' names)) =
      (d.importedNames.find? fun x => (settle x).isModule && x.accessed d.text == names).bind
        fun x => (settle x).resolved := by
  intro settle
  -- no star becomes a module, and all else is named by identifiers, which dots keep apart
  have hsame : ∀ x ∈ d.importedNames,
      ((settle x).isModule && (settle x).accessPath == .ofList (Text.joinWith '.' names)) =
        ((settle x).isModule && x.accessed d.text == names) := by
    intro x hx
    have hstands := d.stands_of_mem hx
    by_cases hstar : x.node.kind = .wildcardImport
    · rw [isModule_bind_star hstands hstar known roots d.uri, Bool.false_and, Bool.false_and]
    · obtain ⟨hne', hnames'⟩ := isIdentifier_of_mem_accessed hstands hstar
      rw [(settles_bind _).accessPath, accessPath_binding hstands hstar, Bool.eq_iff_iff]
      simp only [Bool.and_eq_true, beq_iff_eq, String.ofList_inj,
        joinWith_inj_of_isIdentifier hne' hne hnames' hnames]
  rw [d.bindings_eq_iff.2 h, Resolution.module?, List.map_map, List.find?_map]
  simp only [Option.bind_eq_bind, Option.bind_map]
  exact congrArg (Option.bind · _) (List.find?_congr hsame)

/-- **Imports depend on tokens, blanks apart.**  The tokens of an import spell identifiers with dots
between, and more dots in front of a path.  The bindings of a document say what these tokens spell
if and only if nothing stands between the tokens of a name, and only blanks between those of a path.
The path in front of a called name is that of its identifiers in any case; where the imports are
exact, it leads to the first module that is imported by the same identifiers. -/
theorem bindings_ofTokens_iff (d : Document) :
    (∀ x ∈ d.importedNames, x.IsSpelled d.text) ∧
    (d.bindings = d.importedNames.map (binding d.text (.ofTokens d.text)) ↔
      ∀ x ∈ d.importedNames, x.IsExact d.text) ∧
    ∀ s ∈ d.callSites, ∀ path, s.qualifier = some path → ∃ object, s.IsThrough d object ∧
      path = .ofList (Text.joinWith '.' (object.identifiers d.text)) ∧
      ((∀ x ∈ d.importedNames, x.IsExact d.text) → ∀ known roots,
        let settle (x : ImportedName) :=
          Resolution.bind known roots d.uri (x.binding d.text (.ofTokens d.text))
        Resolution.module? (d.bindings.map (Resolution.bind known roots d.uri)) path =
          (d.importedNames.find? fun x => (settle x).isModule &&
            x.accessed d.text == object.identifiers d.text).bind fun x => (settle x).resolved) := by
  refine ⟨fun x hx => (d.stands_of_mem hx).toIsSpelled, d.bindings_eq_iff, fun s hs path hq => ?_⟩
  obtain ⟨object, hobject, hpath⟩ := CallSite.exists_isThrough hs hq
  obtain ⟨call, hcall, -, -, function, hfunction, -, hchild⟩ := id hobject
  have hshape : ∀ k ∈ object.descendants, k.Shaped (Python.tokens d.text) := by
    have hbelow := EngineCall.shaped_below (shaped_placed_of_mem hcall).1
      (List.mem_of_find?_eq_some hfunction)
    exact EngineCall.shaped_below hbelow (List.mem_of_find?_eq_some hchild)
  obtain ⟨rfl, hne, hnames⟩ := CallSite.isPathOf_of_dottedPath? hshape hpath
  exact ⟨object, hobject, rfl, fun hexact known roots => module?_eq hexact known roots hne hnames⟩

/-- A blank on both sides of the dot is part of the path. -/
theorem bindings_ne_ofTokens_spacedDot :
    let d := Document.ofText "file:///route.py" "import os . path\n".toList 0
    d.bindings ≠ d.importedNames.map (binding d.text (.ofTokens d.text)) := by
  decide +kernel

end Document

end RouteScript
