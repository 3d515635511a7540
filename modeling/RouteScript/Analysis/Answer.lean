import RouteScript.Text.Position
import RouteScript.Uri.Reference

/-!
# Answers to an editor

What an analysis says about a document: diagnostics, locations, hovers, completions and tokens.
-/

namespace RouteScript

/-- How grave a diagnostic is. -/
inductive Severity where
  | error
  | warning
  | information
  | hint
deriving DecidableEq, Repr

/-- The code of a diagnostic. -/
inductive Code where
  | name (text : String)
  | number (value : Int)
deriving DecidableEq, Repr

/-- A finding in a document. -/
structure Diagnostic where
  range : Range
  severity : Option Severity
  code : Option Code
  source : Option String
  message : String
deriving DecidableEq, Repr

namespace Diagnostic

/-- The source that all findings of this library name. -/
def producer : String := "kemi-pv"

/-- A finding of this library. -/
def ofFinding (range : Range) (severity : Severity) (code message : String) : Diagnostic :=
  ⟨range, some severity, some (.name code), some producer, message⟩

/-- The finding is an error. -/
def isError (d : Diagnostic) : Bool := d.severity == some .error

end Diagnostic

/-- A range of a document. -/
structure Location where
  uri : String
  range : Range
deriving DecidableEq, Repr

/-- The location, if its URI is one. -/
def Location.of? (uri : String) (range : Range) : Option Location :=
  if Uri.isReference uri then some ⟨uri, range⟩ else none

/-- A text in Markdown about a range. -/
structure Hover where
  value : String
  range : Range
deriving DecidableEq, Repr

/-- What a completion stands for. -/
inductive CompletionKind where
  | variable
  | function
  | struct
  | constant
deriving DecidableEq, Repr

/-- A text that may be typed next. -/
structure Completion where
  label : String
  kind : Option CompletionKind
  detail : Option String
deriving DecidableEq, Repr

/-- A part of a line with a meaning. -/
structure SemanticToken where
  line : Nat
  character : Nat
  length : Nat
  type : String
  modifiers : List String
deriving DecidableEq, Repr

namespace SemanticToken

/-- The token of a range that is not empty and lies on one line. -/
def of? (range : Range) (type : String) (modifiers : List String) : Option SemanticToken :=
  if range.start.line = range.stop.line ∧ range.start.character < range.stop.character then
    some ⟨range.start.line, range.start.character, range.stop.character - range.start.character,
      type, modifiers⟩
  else none

/-- Lexicographic order of lists of words. -/
def compareWords : List String → List String → Ordering
  | [], [] => .eq
  | [], _ :: _ => .lt
  | _ :: _, [] => .gt
  | a :: as, b :: bs => (compare a b).then (compareWords as bs)

/-- The order by place, then by length, type and modifiers. -/
def order (a b : SemanticToken) : Ordering :=
  (compare a.line b.line).then <| (compare a.character b.character).then <|
    (compare a.length b.length).then <| (compare a.type b.type).then <|
      compareWords a.modifiers b.modifiers

/-- The first token comes no later than the second. -/
def le (a b : SemanticToken) : Bool := a.order b != .gt

/-- The tokens start at the same place. -/
def sameStart (a b : SemanticToken) : Bool := a.line == b.line && a.character == b.character

/-- The tokens without those that start where the last one kept before them does. -/
def firstAtStart : (last : Option SemanticToken) → List SemanticToken → List SemanticToken
  | _, [] => []
  | last, t :: ts =>
    if last.any (sameStart t) then firstAtStart last ts else t :: firstAtStart (some t) ts

/-- The tokens in order, of those that start at one place only the first. -/
def merge (ts : List SemanticToken) : List SemanticToken := firstAtStart none (ts.mergeSort le)

end SemanticToken

end RouteScript
