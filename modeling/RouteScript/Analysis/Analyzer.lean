import RouteScript.Analysis.Answer
import RouteScript.Document.Store

/-!
# Analyzers

An analyzer keeps what it knows in a state that all analyzers share, brings it up to date when a
document changes or goes away, and answers questions from it.  Each of its operations may fail.  One
that fails while it brings the state up to date may have changed part of it.
-/

namespace RouteScript

variable [Python.Recovery]

/-- How an operation of an analyzer ends. -/
inductive Outcome (α : Type) where
  | value (a : α)
  | error
  | crash
deriving DecidableEq, Repr

/-- The value, if the operation did not fail. -/
def Outcome.value? {α : Type} : Outcome α → Option α
  | value a => some a
  | error | crash => none

/-- What an analyzer may look at besides the document it is given. -/
structure View where
  store : Store
  /-- Where imported modules are looked up, in this order. -/
  roots : List Path

/-- A place in a document. -/
structure Query where
  document : Document
  offset : Nat

/-- An analyzer over the state `σ`. -/
structure Analyzer (σ : Type) where
  id : String
  /-- The state after a document has changed. -/
  analyze : View → Document → σ → Outcome σ
  /-- The state after the document under a URI has gone. -/
  removed : View → String → σ → Outcome σ := fun _ _ state => .value state
  /-- What `analyze` leaves of the state where it fails. -/
  analyzePartly : View → Document → σ → σ := fun _ _ state => state
  /-- What `removed` leaves of the state where it fails. -/
  removedPartly : View → String → σ → σ := fun _ _ state => state
  diagnostics : σ → Document → Outcome (List Diagnostic) := fun _ _ => .value []
  definitions : σ → Query → Outcome (List Location) := fun _ _ => .value []
  references : σ → Query → Outcome (List Location) := fun _ _ => .value []
  hover : σ → Query → Outcome (Option Hover) := fun _ _ => .value none
  completions : σ → Query → Outcome (List Completion) := fun _ _ => .value []
  tokens : σ → Document → Outcome (List SemanticToken) := fun _ _ => .value []

end RouteScript
