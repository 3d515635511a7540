import RouteScript.Python.Tree
import RouteScript.Text.Position

/-!
# Documents

A document is a text under a URI, with the version its editor gave it and the tree of its text.
-/

namespace RouteScript

variable [Python.Recovery]

/-- A text under a URI. -/
structure Document where
  uri : String
  text : Text
  version : Int
  tree : Python.Tree
  /-- The tree is that of the text. -/
  tree_eq : tree = .ofText text

namespace Document

/-- The document with the given text. -/
def ofText (uri : String) (text : Text) (version : Int) : Document :=
  ⟨uri, text, version, .ofText text, rfl⟩

/-- The root of the tree. -/
def root (d : Document) : Python.Node := d.tree.root

/-- The text is no Python module. -/
def hasError (d : Document) : Bool := d.tree.hasError

theorem isPlaced_root (d : Document) : d.root.isPlaced d.text = true := by
  rw [root, d.tree_eq]
  exact Python.Tree.isPlaced_ofText d.text

theorem ext_iff {d e : Document} :
    d = e ↔ d.uri = e.uri ∧ d.text = e.text ∧ d.version = e.version := by
  constructor
  · rintro rfl
    exact ⟨rfl, rfl, rfl⟩
  · obtain ⟨_, _, _, _, rfl⟩ := d
    obtain ⟨_, _, _, _, rfl⟩ := e
    rintro ⟨h₁, h₂, h₃⟩
    simp only at h₁ h₂ h₃
    subst h₁ h₂ h₃
    rfl

end Document

end RouteScript
