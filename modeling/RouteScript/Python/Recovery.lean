import RouteScript.Python.Node
import RouteScript.Text.Position

/-!
# Trees of texts that are no modules

While a script is being typed its text is mostly no module, and the parser makes what it can of it:
some of the tree is as in a module, some stands in nodes for errors, and a token that is missing may
have been put in as an empty node.  Which tree that is, is up to the parser, so it is a parameter
here, a `Recovery`.  What holds of the tree of every text, and what the analyses rely on, is
`Node.IsTreeOf`.

* `Text.Apart`: spans that no position can confuse.
* `Node.name?`: the name in a definition or a call.
* `Node.IsTreeOf`: spans are well placed, functions are named by identifiers, and names are apart.
* `Recovery`: a parser's way to recover from errors; unless another one is given, nothing is kept of
  a text that is no module.
-/

namespace RouteScript

namespace Text

theorem isBoundary_zero (t : Text) : t.isBoundary 0 = true := by cases t <;> rfl

theorem isBoundary_bytes (t : Text) : t.isBoundary t.bytes = true := by
  induction t with
  | nil => rfl
  | cons c t ih =>
    unfold Text.isBoundary
    split <;> simp_all

/-- The second span starts behind the first one, and so does the place where it is shown. -/
def EndsBefore (t : Text) (a b : Span) : Prop := ∃ n, t.IsFirm n ∧ a.stop < n ∧ n ≤ b.start

/-- One of the spans ends before the other one. -/
def Apart (t : Text) (a b : Span) : Prop := t.EndsBefore a b ∨ t.EndsBefore b a

end Text

namespace Python

namespace Node

/-- The name that the function of a call ends with. -/
def lastName? (function : Node) : Option Node :=
  if function.kind == .identifier then some function
  else if function.kind == .attribute then function.child? .attribute
  else none

/-- The name that a definition defines or a call calls. -/
def name? (n : Node) : Option Node :=
  if n.kind == .functionDefinition then n.child? .name
  else if n.kind == .call then (n.child? .function).bind lastName?
  else none

/-- The names in two nodes, if both have one, are apart. -/
def NamesApart (t : Text) (n m : Node) : Prop :=
  ∀ a b, n.name? = some a → m.name? = some b → t.Apart a.span b.span

/-- The tree may be that of the text, be it a module or not. -/
structure IsTreeOf (t : Text) (root : Node) : Prop where
  /-- Nodes start and end between characters, inside their parents and one behind the other. -/
  placed : root.isPlaced t = true
  /-- The name of a function is an identifier. -/
  named : ∀ n ∈ root.descendants, n.kind = .functionDefinition →
    ∀ name, n.child? .name = some name → name.kind = .identifier
  /-- An identifier, unless it is a missing one, is written in letters, digits and underscores. -/
  word : ∀ n ∈ root.descendants, n.kind = .identifier →
    ∀ c ∈ t.slice n.span, c.isAlphanum = true ∨ c = '_' ∨ 0x80 ≤ c.toNat
  /-- The name in a definition or a call does not touch another such name: something stands between
  them, such as an opening parenthesis. -/
  apart : root.descendants.Pairwise (NamesApart t)

end Node

/-- What tree a parser makes of a text that is no module. -/
class Recovery where
  root : Text → Node
  isTreeOf_root (t : Text) : (root t).IsTreeOf t

namespace Recovery

/-- Nothing is kept of a text that is no module. -/
instance (priority := low) nothingKept : Recovery where
  root t := .mk .module none ⟨0, t.bytes⟩ []
  isTreeOf_root t := by
    have alone : ∀ n ∈ (Node.mk .module none ⟨0, t.bytes⟩ []).descendants, n.kind = .module := by
      simp [Node.descendants, Node.descendantsOf, Node.kind]
    constructor
    · simp [Node.isPlaced, Node.inOrder, Text.isBoundary_zero, Text.isBoundary_bytes]
    · intro n hn hk
      cases (alone n hn).symm.trans hk
    · intro n hn hk
      cases (alone n hn).symm.trans hk
    · exact List.pairwise_singleton ..

end Recovery

end Python

end RouteScript
