import RouteScript.Python.Grammar
import RouteScript.Python.Layout
import RouteScript.Python.Recovery

/-!
# Modules of Python as trees

`Tree.ofText` reads a text as a module.  A text that is no module has a syntax error and the tree
that is recovered from it.  Either way the spans of the tree are well placed in the text.

* `isPlaced_ofText`: the tree of a text is well placed in it.
-/

namespace RouteScript.Python

/-- The tree of a text, and whether the text is no module. -/
structure Tree where
  root : Node
  hasError : Bool

namespace Tree

/-- A bound on the depth to which a rule is read, for a text of `n` tokens: no rule of the grammar
goes through so many others without reading a token. -/
def fuelFor (n : Nat) : Nat := 256 * (n + 2)

/-- The statements of a module that consists of the given tokens. -/
def statements? (ts : List Token) : Option (List Node) := do
  let (nodes, rest) ← Rule.read Grammar.rule (fuelFor ts.length) (.many (.symbol .statement)) false
    ⟨[], 0⟩ ⟨ts, 0⟩
  if rest.tokens.isEmpty then some nodes else none

/-- The module with the given statements. -/
def module (t : Text) (statements : List Node) : Node :=
  .mk .module none ⟨0, t.bytes⟩ statements

variable [Recovery]

/-- What is left of a text that is no module. -/
def recovered (t : Text) : Tree := ⟨Recovery.root t, true⟩

/-- The tree of a text. -/
def ofText (t : Text) : Tree :=
  match statements? (tokens t) with
  | some statements =>
    if (module t statements).isPlaced t then ⟨module t statements, false⟩ else recovered t
  | none => recovered t

theorem isPlaced_ofText (t : Text) : (ofText t).root.isPlaced t = true := by
  unfold ofText
  split
  · split
    · assumption
    · exact (Recovery.isTreeOf_root t).placed
  · exact (Recovery.isTreeOf_root t).placed

end Tree

end RouteScript.Python
