import Mathlib.Data.List.Forall2
import RouteScript.Proofs.Inversion
import RouteScript.Proofs.Statements
import RouteScript.Script.Routine

/-!
# The parameters of routines

A function definition has a name, perhaps parameters that are types, and a list of parameters.  Each
of these is a separator or declares one name, in one of a few forms.  A routine has the names of all
forms but one: a name behind stars that has a type stands one level further down than where names
are looked for, and so it is lost.

* `Declares`, `Names`: the forms of parameters and the names that a list of them declares.
* `Node.HasParts`, `Tree.hasParts_ofText`: the parts of definitions and of lists of parameters.
* `Document.routines_complete_iff`: when the routines of a document have all their parameters.
-/

namespace RouteScript

open Python (Node)
open Python.Grammar (isStarred)

namespace Routine

/-! ### The forms of parameters -/

/-- The names that a parameter declares: one, or none if it only separates others. -/
inductive Declares (t : Text) : Node → List String → Prop where
  | separator {n : Node} (hk : n.kind = .positionalSeparator ∨ n.kind = .keywordSeparator)
      (hc : n.children = []) : Declares t n []
  | plain {n : Node} (hk : n.kind = .identifier) : Declares t n [n.textIn t]
  | starred {n name : Node} (hk : isStarred n = true) (hc : n.children = [name])
      (hn : name.kind = .identifier) : Declares t n [name.textIn t]
  | typed {n name type : Node} (hk : n.kind = .typedParameter) (hc : n.children = [name, type])
      (hn : name.kind = .identifier) (ht : type.field = some .type) :
      Declares t n [name.textIn t]
  | starredTyped {n star name type : Node} (hk : n.kind = .typedParameter)
      (hc : n.children = [star, type]) (hs : isStarred star = true) (hf : star.field = none)
      (hc' : star.children = [name]) (hn : name.kind = .identifier) (ht : type.kind = .type)
      (ht' : type.field = some .type) : Declares t n [name.textIn t]
  | defaulted {n name : Node} {rest : List Node}
      (hk : n.kind = .defaultParameter ∨ n.kind = .typedDefaultParameter)
      (hc : n.children = name :: rest) (hf : name.field = some .name) (hn : name.kind = .identifier) :
      Declares t n [name.textIn t]

/-- The names that a list of parameters declares, in order. -/
def Names (t : Text) (parameters : List Node) (names : List String) : Prop :=
  ∃ declared, List.Forall₂ (Declares t) parameters declared ∧ names = declared.flatten

/-- The parameter is a name behind stars that has a type. -/
def isStarredTyped (n : Node) : Bool :=
  n.kind == .typedParameter && n.children.head?.any isStarred

section Declares

variable {t : Text} {n : Node} {names : List String}

theorem kind_of_isStarred (h : isStarred n = true) :
    n.kind = .listSplatPattern ∨ n.kind = .dictionarySplatPattern := by
  simpa [isStarred] using h

/-- A name is found in all forms but that of a name behind stars that has a type. -/
theorem parameterName?_eq (h : Declares t n names) :
    (parameterName? t n).toList = if isStarredTyped n then [] else names := by
  cases h with
  | separator hk hc =>
    have hnot : n.kind ≠ .identifier ∧ n.kind ≠ .typedParameter := by
      rcases hk with hk | hk <;> rw [hk] <;> decide
    simp [parameterName?, isStarredTyped, Node.child?, hc, hnot]
  | plain hk => simp [parameterName?, isStarredTyped, hk]
  | @starred name hk hc hn =>
    have hnot : n.kind ≠ .identifier ∧ n.kind ≠ .typedParameter := by
      rcases kind_of_isStarred hk with hk | hk <;> rw [hk] <;> decide
    by_cases hf : name.field = some .name <;>
      simp [parameterName?, isStarredTyped, Node.child?, hc, hn, hf, hnot]
  | @typed name type hk hc hn ht =>
    have hnot : isStarred name = false := by simp [isStarred, hn]
    by_cases hf : name.field = some .name <;>
      simp [parameterName?, isStarredTyped, Node.child?, hk, hc, hn, hf, ht, hnot]
  | @starredTyped star name type hk hc hs hf hc' hn ht ht' =>
    have hnot : star.kind ≠ .identifier := by
      rcases kind_of_isStarred hs with hs | hs <;> rw [hs] <;> decide
    simp [parameterName?, isStarredTyped, Node.child?, hk, hc, hs, hf, ht, ht', hnot]
  | @defaulted name rest hk hc hf hn =>
    have hnot : n.kind ≠ .identifier ∧ n.kind ≠ .typedParameter := by
      rcases hk with hk | hk <;> rw [hk] <;> decide
    simp [parameterName?, isStarredTyped, Node.child?, hc, hf, hnot]

/-- A name behind stars that has a type declares one name, too. -/
theorem length_of_isStarredTyped (h : Declares t n names) (hs : isStarredTyped n = true) :
    names.length = 1 := by
  have hk : n.kind = .typedParameter := beq_iff_eq.1 (Bool.and_eq_true_iff.1 hs).1
  cases h with
  | separator hk' =>
    rw [hk] at hk'
    rcases hk' with hk' | hk' <;> cases hk'
  | _ => rfl

end Declares

theorem exists_names {t : Text} {parameters : List Node}
    (h : ∀ p ∈ parameters, ∃ names, Declares t p names) : ∃ names, Names t parameters names := by
  induction parameters with
  | nil => exact ⟨[], [], .nil, rfl⟩
  | cons p parameters ih =>
    obtain ⟨⟨names, hp⟩, hrest⟩ := List.forall_mem_cons.1 h
    obtain ⟨_, declared, hdeclared, rfl⟩ := ih hrest
    exact ⟨_, names :: declared, .cons hp hdeclared, rfl⟩

theorem filterMap_parameterName? (t : Text) (n : Node) (parameters : List Node) :
    (n :: parameters).filterMap (parameterName? t) =
      (parameterName? t n).toList ++ parameters.filterMap (parameterName? t) := by
  rw [List.filterMap_eq_flatMap_toList, List.flatMap_cons, ← List.filterMap_eq_flatMap_toList]

/-- The names that are found are those of the parameters in the other forms. -/
theorem names_filterMap {t : Text} {parameters : List Node}
    (h : ∀ n ∈ parameters, ∃ names, Declares t n names) :
    Names t (parameters.filter fun n => !isStarredTyped n)
      (parameters.filterMap (parameterName? t)) := by
  induction parameters with
  | nil => exact ⟨[], .nil, rfl⟩
  | cons n parameters ih =>
    obtain ⟨⟨names, hn⟩, hrest⟩ := List.forall_mem_cons.1 h
    obtain ⟨declared, hdeclared, heq⟩ := ih hrest
    rw [filterMap_parameterName?, parameterName?_eq hn, heq]
    cases hs : isStarredTyped n with
    | true =>
      rw [List.filter_cons_of_neg (by simp [hs]), if_pos rfl]
      exact ⟨declared, hdeclared, rfl⟩
    | false =>
      rw [List.filter_cons_of_pos (by simp [hs]), if_neg Bool.false_ne_true]
      exact ⟨names :: declared, .cons hn hdeclared, rfl⟩

/-- One name is lost for each parameter in that form. -/
theorem length_names {t : Text} {parameters : List Node} {names : List String}
    (h : Names t parameters names) : names.length =
      parameters.countP isStarredTyped + (parameters.filterMap (parameterName? t)).length := by
  obtain ⟨declared, h, rfl⟩ := h
  induction h with
  | nil => rfl
  | @cons n names parameters declared hn _ ih =>
    rw [filterMap_parameterName?, parameterName?_eq hn, List.flatten_cons, List.length_append,
      List.length_append, ih, List.countP_cons]
    cases hs : isStarredTyped n with
    | true =>
      rw [length_of_isStarredTyped hn hs, if_pos rfl, if_pos rfl, List.length_nil]
      omega
    | false =>
      rw [if_neg Bool.false_ne_true, if_neg Bool.false_ne_true]
      omega

end Routine

/-! ### What the grammar makes of parameters -/

namespace Python.Grammar

open Rule (Yields Input Left)
open Routine (Declares)

variable {t : Text} {left : Left} {i rest : Input} {nodes : List Node}

theorem starred_inv (h : Yields rule (Rule.alts starred) left i nodes rest) :
    ∃ n name, nodes = [n] ∧ isStarred n = true ∧ n.field = none ∧ n.children = [name] ∧
      name.kind = .identifier := by
  obtain ⟨form, hform, h⟩ := h.alts_inv
  simp only [starred, List.mem_cons, List.not_mem_nil, or_false] at hform
  rcases hform with rfl | rfl <;>
    obtain ⟨ns, hns, rfl⟩ := h.node_inv <;>
    obtain ⟨_, _, _, _, hname⟩ := hns.seq_token_inv <;>
    obtain ⟨_, _, rfl⟩ := hname.leaf_inv <;>
    exact ⟨_, _, rfl, rfl, rfl, rfl, rfl⟩

theorem typeField_inv (h : Yields rule (.field .type (.symbol .type)) left i nodes rest) :
    ∃ type, nodes = [type] ∧ type.kind = .type ∧ type.field = some .type := by
  obtain ⟨ns, hns, rfl⟩ := h.field_inv
  have htype := hns.symbol_inv
  obtain ⟨_, _, rfl⟩ := htype.node_inv
  exact ⟨_, rfl, rfl, rfl⟩

/-- A parameter is one node in one of the forms. -/
theorem parameter_inv (h : Yields rule (.symbol .parameter) left i nodes rest) :
    ∀ n ∈ nodes, ∃ names, Declares t n names := by
  obtain ⟨form, hform, h⟩ := h.symbol_inv.alts_inv
  simp only [List.mem_cons, List.not_mem_nil, or_false] at hform
  rcases hform with rfl | rfl | rfl | rfl
  · obtain ⟨_, _, rfl⟩ := h.leaf_inv
    exact List.forall_mem_singleton.2 ⟨[], .separator (.inl rfl) rfl⟩
  · obtain ⟨mid, closed, ns, hstar, hnodes⟩ := h.chain_inv_once fun h₁ h₂ => by
      obtain ⟨-, _, -, rfl⟩ := h₁.wrap_inv
      exact Bool.false_ne_true h₂.wrap_inv.1
    obtain ⟨star, name, rfl, hs, hf, hc, hn⟩ := starred_inv hstar
    rcases hnodes with ⟨rfl, -⟩ | ⟨_, _, htyped, -⟩
    · exact List.forall_mem_singleton.2 ⟨_, .starred hs hc hn⟩
    · obtain ⟨-, _, hparts, rfl⟩ := htyped.wrap_inv
      obtain ⟨_, _, _, _, htype⟩ := hparts.seq_token_inv
      obtain ⟨type, rfl, ht, ht'⟩ := typeField_inv htype
      exact List.forall_mem_singleton.2 ⟨_, .starredTyped rfl rfl hs hf hc hn ht ht'⟩
  · obtain ⟨_, _, rfl⟩ := h.leaf_inv
    exact List.forall_mem_singleton.2 ⟨[], .separator (.inr rfl) rfl⟩
  · obtain ⟨mid, closed, ns, hname, hnodes⟩ := h.chain_inv_once fun h₁ h₂ => by
      obtain ⟨form, hform, h₁⟩ := h₁.alts_inv
      obtain ⟨form', hform', h₂⟩ := h₂.alts_inv
      simp only [List.mem_cons, List.not_mem_nil, or_false] at hform hform'
      rcases hform with rfl | rfl | rfl <;> rcases hform' with rfl | rfl | rfl <;>
        obtain ⟨-, _, -, rfl⟩ := h₁.wrap_inv <;> exact Bool.false_ne_true h₂.wrap_inv.1
    obtain ⟨_, -, rfl⟩ := hname.leaf_inv
    rcases hnodes with ⟨rfl, -⟩ | ⟨_, _, hstep, -⟩
    · exact List.forall_mem_singleton.2 ⟨_, .plain rfl⟩
    · obtain ⟨form, hform, hstep⟩ := hstep.alts_inv
      simp only [List.mem_cons, List.not_mem_nil, or_false] at hform
      rcases hform with rfl | rfl | rfl <;> obtain ⟨-, _, hparts, rfl⟩ := hstep.wrap_inv
      · exact List.forall_mem_singleton.2 ⟨_, .defaulted (.inr rfl) rfl rfl rfl⟩
      · obtain ⟨_, _, _, _, htype⟩ := hparts.seq_token_inv
        obtain ⟨type, rfl, -, ht⟩ := typeField_inv htype
        exact List.forall_mem_singleton.2 ⟨_, .typed rfl rfl rfl ht⟩
      · exact List.forall_mem_singleton.2 ⟨_, .defaulted (.inl rfl) rfl rfl rfl⟩

/-- The rules by which definitions and their lists of parameters are built. -/
def isSignature : Kind → Option R → Bool
  | .functionDefinition, some (.seq (.alt (.token _) .empty) (.seq (.token _)
      (.seq (.field .name (.leaf .identifier _)) (.seq (.alt (.node .typeParameter _) .empty)
        (.seq (.field .parameters (.node .parameters _)) _))))) => true
  | .parameters, some (.seq (.token _) (.seq (.alt (.seq (.symbol .parameter)
      (.commas (.symbol .parameter))) .empty) (.token _))) => true
  | .functionDefinition, _ | .parameters, _ => false
  | _, _ => true

theorem every_isSignature (s : Symbol) : (rule s).every isSignature (fun _ => true) = true := by
  cases s with
  | binary level => exact every_binary rfl rfl (fun _ => rfl) level
  | _ => rfl

end Python.Grammar

namespace Python

open Rule (Yields)
open Routine (Declares)

/-- A definition has a name and a list of parameters, and each of these is in one of the forms. -/
structure Node.HasParts (t : Text) (n : Node) : Prop where
  definition : n.kind = .functionDefinition → ∃ name generic parameters rest,
    n.children = name :: (generic ++ parameters :: rest) ∧ name.field = some .name ∧
      name.kind = .identifier ∧ (∀ g ∈ generic, g.field = none) ∧
      parameters.field = some .parameters ∧ parameters.kind = .parameters
  parameters : n.kind = .parameters → ∀ p ∈ n.children, ∃ names, Declares t p names

theorem Node.hasParts_withField {t : Text} {n : Node} (f : Field) (h : n.HasParts t) :
    (n.withField f).HasParts t := by
  constructor
  · simpa only [kind_withField, children_withField] using h.definition
  · simpa only [kind_withField, children_withField] using h.parameters

theorem Node.hasParts_of_kind {t : Text} {n : Node} (h : n.kind ≠ .functionDefinition)
    (h' : n.kind ≠ .parameters) : n.HasParts t :=
  ⟨fun hk => absurd hk h, fun hk => absurd hk h'⟩

theorem Node.hasParts_of_yields {t : Text} {kind : Kind} {rule : Grammar.R} {left : Rule.Left}
    {i rest : Rule.Input} {nodes : List Node} {span : Span}
    (htest : Grammar.isSignature kind (some rule) = true)
    (h : Yields Grammar.rule rule left i nodes rest) :
    (Node.mk kind none span nodes).HasParts t := by
  unfold Grammar.isSignature at htest
  split at htest
  · rename_i heq
    obtain rfl := Option.some.inj heq
    obtain ⟨_, _, _, _, rfl, hasync, h⟩ := h.seq_inv
    obtain ⟨_, _, _, _, h⟩ := h.seq_token_inv
    obtain ⟨_, _, _, _, rfl, hname, h⟩ := h.seq_inv
    obtain ⟨_, _, generic, _, rfl, hgeneric, h⟩ := h.seq_inv
    obtain ⟨_, _, _, body, rfl, hparameters, -⟩ := h.seq_inv
    obtain rfl : _ = [] := by
      rcases hasync.opt_inv with h | ⟨h, -⟩
      · exact h.token_inv.1
      · exact h
    obtain ⟨_, hleaf, rfl⟩ := hname.field_inv
    obtain ⟨_, -, rfl⟩ := hleaf.leaf_inv
    obtain ⟨_, hlist, rfl⟩ := hparameters.field_inv
    obtain ⟨_, -, rfl⟩ := hlist.node_inv
    refine ⟨fun _ => ⟨_, generic, _, body, rfl, rfl, rfl, fun g hg => ?_, rfl, rfl⟩, nofun⟩
    rcases hgeneric.opt_inv with h | ⟨rfl, -⟩
    · obtain ⟨_, -, rfl⟩ := h.node_inv
      rw [List.mem_singleton.1 hg]
      rfl
    · cases hg
  · rename_i heq
    obtain rfl := Option.some.inj heq
    refine ⟨nofun, fun _ => ?_⟩
    obtain ⟨_, mid, closed, -, h⟩ := h.seq_token_inv
    obtain ⟨_, _, ns, ms, rfl, hlist, hclose⟩ := h.seq_inv
    obtain ⟨rfl, -⟩ := hclose.token_inv
    rw [List.append_nil]
    rcases hlist.opt_inv with h | ⟨rfl, -⟩
    · exact h.forall_listedEnd (fun _ => Grammar.parameter_inv) (.refl _)
    · exact List.forall_mem_nil _
  · cases htest
  · cases htest
  · rename_i hdefinition hparameters _ _
    exact hasParts_of_kind hdefinition hparameters

/-- The definitions below the root and their lists of parameters have their parts. -/
theorem Tree.hasParts_ofText (t : Text) :
    Node.All (Node.HasParts t) (ofText t).root.children := by
  refine all_of_every Grammar.every_isSignature (fun _ => Node.hasParts_withField) ?_
    (fun kind rule left i nodes rest htest _ => Node.hasParts_of_yields htest)
  intro kind span children htest
  refine Node.hasParts_of_kind ?_ ?_ <;> rintro rfl <;> cases htest

end Python

/-! ### The routines of a document -/

namespace Routine

variable {t : Text} {n : Node}

/-- The routine tells where the definition stands, its name, and the names of those parameters that
pass a test. -/
def Describes (t : Text) (keep : Node → Bool) (n : Node) (r : Routine) : Prop :=
  r.span = n.span ∧ ∃ name parameters, n.child? .name = some name ∧ name.kind = .identifier ∧
    r.name = name.textIn t ∧ r.nameSpan = name.span ∧ n.child? .parameters = some parameters ∧
    (∃ all, Names t parameters.children all) ∧ Names t (parameters.children.filter keep) r.parameters

/-- What is read of a definition. -/
theorem ofNode?_eq (hk : n.kind = .functionDefinition) (hp : n.HasParts t) :
    ∃ name parameters, n.child? .name = some name ∧ name.kind = .identifier ∧
      n.child? .parameters = some parameters ∧ parameters ∈ n.children ∧
      parameters.kind = .parameters ∧ ofNode? t n = some ⟨name.textIn t, n.span, name.span,
        parameters.children.filterMap (parameterName? t)⟩ := by
  obtain ⟨name, generic, parameters, rest, hc, hname, hid, hgeneric, hfield, hkind⟩ :=
    hp.definition hk
  have hnone : generic.find? (·.field == some .parameters) = none := by
    refine List.find?_eq_none.2 fun g hg => ?_
    rw [hgeneric g hg]
    decide
  have hfirst : n.child? .name = some name := by
    rw [Node.child?, hc, List.find?_cons_of_pos (by rw [hname]; rfl)]
  have hlist : n.child? .parameters = some parameters := by
    rw [Node.child?, hc, List.find?_cons_of_neg (by rw [hname]; decide), List.find?_append, hnone,
      List.find?_cons_of_pos (by rw [hfield]; rfl)]
    rfl
  refine ⟨name, parameters, hfirst, hid, hlist, by simp [hc], hkind, ?_⟩
  rw [ofNode?, beq_iff_eq.2 hk, hfirst, hlist]
  rfl

theorem isSome_ofNode? (hp : n.HasParts t) :
    (ofNode? t n).isSome = (n.kind == .functionDefinition) := by
  by_cases hk : n.kind = .functionDefinition
  · obtain ⟨_, _, -, -, -, -, -, h⟩ := ofNode?_eq hk hp
    rw [h, hk]
    rfl
  · rw [ofNode?, beq_eq_false_iff_ne.2 hk]
    rfl

end Routine

theorem forall₂_filter_filterMap {α β : Type} {r : α → β → Prop} {p : α → Bool} {f : α → Option β}
    {l : List α} (hp : ∀ a ∈ l, (f a).isSome = p a) :
    List.Forall₂ r (l.filter p) (l.filterMap f) ↔ ∀ a ∈ l, ∀ b, f a = some b → r a b := by
  induction l with
  | nil => simp
  | cons a l ih =>
    obtain ⟨ha, hl⟩ := List.forall_mem_cons.1 hp
    rw [List.forall_mem_cons, ← ih hl]
    cases hf : f a with
    | none =>
      rw [hf] at ha
      rw [List.filter_cons_of_neg (by simp [← ha]), List.filterMap_cons_none hf]
      simp
    | some b =>
      rw [hf] at ha
      rw [List.filter_cons_of_pos (by simp [← ha]), List.filterMap_cons_some hf]
      simp

namespace Document

open Routine

theorem hasParts_of_mem (d : Document) : ∀ n ∈ d.root.descendants, n.HasParts d.text := by
  refine d.forall_descendants (Python.Tree.hasParts_ofText d.text) fun n hk => ?_
  refine Node.hasParts_of_kind ?_ ?_ <;> rw [hk] <;> decide

/-- The function definitions of a document, in document order. -/
def definitions (d : Document) : List Node :=
  d.root.descendants.filter (·.kind == .functionDefinition)

/-- The routines are those of the definitions, with the names of some of their parameters. -/
def RoutinesHave (d : Document) (keep : Node → Bool) : Prop :=
  List.Forall₂ (Describes d.text keep) d.definitions d.routines

theorem routinesHave_iff (d : Document) (keep : Node → Bool) : d.RoutinesHave keep ↔
    ∀ n ∈ d.root.descendants, ∀ r, ofNode? d.text n = some r → Describes d.text keep n r :=
  forall₂_filter_filterMap fun _ hn => isSome_ofNode? (d.hasParts_of_mem _ hn)

/-- What is read of a definition, in a document. -/
theorem parts_of_ofNode? {d : Document} {n : Node} {r : Routine} (hn : n ∈ d.root.descendants)
    (h : ofNode? d.text n = some r) : n.kind = .functionDefinition ∧
      ∃ name parameters, n.child? .name = some name ∧ name.kind = .identifier ∧
        n.child? .parameters = some parameters ∧
        (∀ p ∈ parameters.children, ∃ names, Declares d.text p names) ∧
        r = ⟨name.textIn d.text, n.span, name.span,
          parameters.children.filterMap (parameterName? d.text)⟩ := by
  have hp := d.hasParts_of_mem _ hn
  have hk : n.kind = .functionDefinition := by
    simpa [h] using (isSome_ofNode? hp).symm
  obtain ⟨name, parameters, hname, hid, hlist, hmem, hkind, heq⟩ := ofNode?_eq hk hp
  refine ⟨hk, name, parameters, hname, hid, hlist, ?_, Option.some.inj (h.symm.trans heq)⟩
  exact (d.hasParts_of_mem _ (Node.descendants_trans hn
    (Node.mem_descendants_of_mem_children hmem))).parameters hkind

/-- The routines have the names of the parameters that are not lost. -/
theorem routinesHave_found (d : Document) : d.RoutinesHave fun p => !isStarredTyped p := by
  refine (d.routinesHave_iff _).2 fun n hn r hr => ?_
  obtain ⟨-, name, parameters, hname, hid, hlist, hforms, rfl⟩ := parts_of_ofNode? hn hr
  exact ⟨rfl, name, parameters, hname, hid, rfl, rfl, hlist, exists_names hforms,
    names_filterMap hforms⟩

/-- Where the routines have the names of all parameters, none is lost. -/
theorem isStarredTyped_of_routinesHave {d : Document} (h : d.RoutinesHave fun _ => true)
    {n parameters p : Node} (hn : n ∈ d.definitions) (hlist : n.child? .parameters = some parameters)
    (hp : p ∈ parameters.children) : isStarredTyped p = false := by
  obtain ⟨hn, hk⟩ := List.mem_filter.1 hn
  obtain ⟨_, _, -, -, hlist', -, -, hread⟩ := ofNode?_eq (beq_iff_eq.1 hk) (d.hasParts_of_mem _ hn)
  obtain ⟨-, _, _, -, -, -, -, hlist'', -, hnames⟩ := (d.routinesHave_iff _).1 h n hn _ hread
  cases hlist.symm.trans hlist'
  cases hlist.symm.trans hlist''
  -- as many names are found as are declared
  rw [List.filter_eq_self.2 fun _ _ => rfl] at hnames
  have hzero := Nat.add_eq_right.1 (length_names hnames).symm
  exact Bool.eq_false_iff.2 (List.countP_eq_zero.1 hzero p hp)

/-- **The parameters of routines.**  The routines of a document are its function definitions, in
document order and each once, with their names and the names of their parameters in order, but for
names behind stars that have a type.  So they have all their parameters if and only if no definition
has a parameter in that form. -/
theorem routines_complete_iff (d : Document) :
    d.RoutinesHave (fun p => !isStarredTyped p) ∧
    (d.RoutinesHave (fun _ => true) ↔ ∀ n ∈ d.definitions, ∀ parameters,
      n.child? .parameters = some parameters →
        ∀ p ∈ parameters.children, isStarredTyped p = false) := by
  refine ⟨d.routinesHave_found, fun h n hn parameters hlist p hp =>
    isStarredTyped_of_routinesHave h hn hlist hp, fun hnone => ?_⟩
  refine (d.routinesHave_iff _).2 fun n hn r hr => ?_
  obtain ⟨hspan, name, parameters, hname, hid, hr₁, hr₂, hlist, hall, hnames⟩ :=
    (d.routinesHave_iff _).1 d.routinesHave_found n hn r hr
  refine ⟨hspan, name, parameters, hname, hid, hr₁, hr₂, hlist, hall, ?_⟩
  have hmem : n ∈ d.definitions :=
    List.mem_filter.2 ⟨hn, beq_iff_eq.2 (parts_of_ofNode? hn hr).1⟩
  have hfilter : parameters.children.filter (fun p => !isStarredTyped p) =
      parameters.children.filter fun _ => true :=
    List.filter_congr fun p hp => by rw [hnone n hmem parameters hlist p hp, Bool.not_false]
  rwa [hfilter] at hnames

/-- The one parameter has a type and is lost. -/
theorem not_routinesHave_starredTyped :
    ¬ (Document.ofText "file:///route.py" "def f(*args: int):\n    pass\n".toList 0).RoutinesHave
      fun _ => true := by
  intro h
  have hlost : (Document.ofText "file:///route.py" "def f(*args: int):\n    pass\n".toList 0
      ).definitions.any (fun n => (n.child? .parameters).any (·.children.any isStarredTyped)) =
        true := by
    decide +kernel
  obtain ⟨n, hn, hlost⟩ := List.any_eq_true.1 hlost
  obtain ⟨parameters, hlist, hlost⟩ := (Option.any_eq_true ..).1 hlost
  obtain ⟨p, hp, hlost⟩ := List.any_eq_true.1 hlost
  rw [isStarredTyped_of_routinesHave h hn hlist hp] at hlost
  cases hlost

end Document

end RouteScript
