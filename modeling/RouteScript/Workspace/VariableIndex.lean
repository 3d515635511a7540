import RouteScript.Script.Occurrence

/-!
# The variable index

The occurrences of a document, by position and by the identity of their variables.  Those by position
are kept in the order of their starts, so that the place of an occurrence, and the occurrence at a
place, are found by halving.
-/

namespace RouteScript

/-- Occurrences by position and by identity. -/
structure VariableIndex where
  /-- All occurrences in ascending order of their starts. -/
  byPosition : List Occurrence
  /-- The occurrences of each variable as they were added, the variables as they were first
  seen. -/
  byKey : List (String × List Occurrence)
deriving DecidableEq, Repr

namespace VariableIndex

/-- The number of elements that pass a test, in a list where those that do come first.  The list is
halved until one element is left, `steps` times at most. -/
def partitionFrom {α : Type} (test : α → Bool) : (steps : Nat) → List α → Nat
  | _, [] => 0
  | _, [x] => if test x then 1 else 0
  | 0, _ => 0
  | steps + 1, l =>
    let half := l.length / 2
    if l[half]?.any test then half + partitionFrom test steps (l.drop half)
    else partitionFrom test steps (l.take (l.length - half))

/-- The number of elements that pass a test, in a list where those that do come first. -/
def partitionPoint {α : Type} (test : α → Bool) (l : List α) : Nat :=
  partitionFrom test l.length l

/-- The index without occurrences. -/
def empty : VariableIndex := ⟨[], []⟩

/-- The occurrences with `o` behind those that start no later. -/
def insertByStart (o : Occurrence) (os : List Occurrence) : List Occurrence :=
  os.insertIdx (partitionPoint (·.span.start ≤ o.span.start) os) o

/-- The groups with `o` at the end of its own. -/
def insertByKey (o : Occurrence) : List (String × List Occurrence) → List (String × List Occurrence)
  | [] => [(o.key, [o])]
  | (k, os) :: groups =>
    if k = o.key then (k, os ++ [o]) :: groups else (k, os) :: insertByKey o groups

/-- The index with one more occurrence. -/
def add (index : VariableIndex) (o : Occurrence) : VariableIndex :=
  ⟨insertByStart o index.byPosition, insertByKey o index.byKey⟩

/-- The index of the given occurrences. -/
def ofList (os : List Occurrence) : VariableIndex := os.foldl add empty

/-- The last occurrence that starts no later than the offset, if it contains it. -/
def findAt? (index : VariableIndex) (offset : Nat) : Option Occurrence :=
  match partitionPoint (·.span.start ≤ offset) index.byPosition with
  | 0 => none
  | i + 1 => index.byPosition[i]?.filter fun o => o.span.Contains offset

/-- The occurrences of a variable. -/
def withKey (index : VariableIndex) (key : String) : List Occurrence :=
  ((index.byKey.find? (·.1 == key)).map (·.2)).getD []

/-- The writes of a variable. -/
def writes (index : VariableIndex) (key : String) : List Occurrence :=
  (index.withKey key).filter (·.isWrite)

/-- The first write of a variable. -/
def firstWrite? (index : VariableIndex) (key : String) : Option Occurrence :=
  (index.writes key).head?

/-- The identities of the variables, as they were first seen. -/
def keys (index : VariableIndex) : List String := index.byKey.map (·.1)

/-- The number of occurrences. -/
def size (index : VariableIndex) : Nat := index.byPosition.length

end VariableIndex

end RouteScript
