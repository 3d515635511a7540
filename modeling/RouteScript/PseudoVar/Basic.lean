import RouteScript.PseudoVar.Category
import RouteScript.Text.Blank

/-!
# Pseudo-variables

A pseudo-variable as it stands in a text: its class, the payload in parentheses, the subscript in
brackets and its place.  Occurrences with equal `key` name the same variable.
-/

namespace RouteScript

/-- A pseudo-variable found in a text. -/
structure PseudoVar where
  /-- The characters of the match, from the dollar sign on. -/
  matched : Text
  /-- The class, as in `$class(inner)`. -/
  cls : Text
  /-- What stands between the parentheses. -/
  inner : Option Text
  /-- The subscript of the bracketed form. -/
  index : Option Text
  /-- Offset of the dollar sign. -/
  offset : Nat
deriving DecidableEq, Repr

namespace PseudoVar

/-- The class as a string. -/
def className (v : PseudoVar) : String := String.ofList v.cls

/-- No payload is given. -/
def isBare (v : PseudoVar) : Bool := v.inner.isNone

/-- Size of the match in bytes. -/
def size (v : PseudoVar) : Nat := v.matched.bytes

/-- The bytes of the match. -/
def span (v : PseudoVar) : Span := ⟨v.offset, v.offset + v.size⟩

/-- The category of the class. -/
def category (v : PseudoVar) : Category := .ofClass v.className

/-- The identity of the variable: its class, and its payload after a colon if it has one. -/
def key (v : PseudoVar) : String :=
  match v.inner with
  | none => v.className
  | some inner => String.ofList (v.cls ++ ':' :: inner)

/-- The table named by a payload such as `table=>key`, blanks around it left out. -/
def tableName? (v : PseudoVar) : Option Text := do
  let table := (Text.before ['=', '>'] (← v.inner)).trim
  if table.isEmpty then none else some table

end PseudoVar

end RouteScript
