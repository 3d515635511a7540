import RouteScript.Analysis.Analyzer

/-!
# The dispatcher

The dispatcher passes events and questions on to its analyzers, in the order in which they were
registered.  An analyzer that fails is passed over for that one time; the others are asked all the
same.  Every operation also tells which analyzers it called.
-/

namespace RouteScript

variable [Python.Recovery]

/-- Analyzers with different ids, as they were registered. -/
structure Dispatcher (σ : Type) where
  analyzers : List (Analyzer σ)
  ids_nodup : (analyzers.map (·.id)).Nodup

/-- A result and the ids of the analyzers called for it. -/
structure Reply (α : Type) where
  result : α
  called : List String
deriving DecidableEq, Repr

/-- Why an analyzer is not registered. -/
inductive RegistrationError where
  | duplicate (id : String)
deriving DecidableEq, Repr

/-- The message for the user. -/
def RegistrationError.message : RegistrationError → String
  | duplicate id => "analyzer `" ++ id ++ "` is already registered"

namespace Dispatcher

variable {σ : Type} {α : Type}

/-- The dispatcher without analyzers. -/
def empty : Dispatcher σ := ⟨[], .nil⟩

/-- The ids, in the order of registration. -/
def ids (d : Dispatcher σ) : List String := d.analyzers.map (·.id)

/-- The dispatcher with one more analyzer behind the others. -/
def register (d : Dispatcher σ) (a : Analyzer σ) : Except RegistrationError (Dispatcher σ) :=
  if h : a.id ∈ d.ids then .error (.duplicate a.id)
  else .ok ⟨d.analyzers ++ [a], by
    simp only [List.map_append, List.map_cons, List.map_nil]
    refine List.nodup_append.2 ⟨d.ids_nodup, by simp, fun x hx y hy hxy => ?_⟩
    simp only [List.mem_singleton] at hy
    subst hxy hy
    exact h hx⟩

/-- The dispatcher after registering analyzers one after the other, up to the first that is
refused. -/
def registerAll : List (Analyzer σ) → Dispatcher σ → Dispatcher σ × Option RegistrationError
  | [], d => (d, none)
  | a :: as, d =>
    match d.register a with
    | .ok d => registerAll as d
    | .error e => (d, some e)

/-- The state after every analyzer has had its turn, and the ids of those that failed.  Where a turn
fails, the next analyzer finds the state as `partly` leaves it. -/
def update (turn : Analyzer σ → σ → Outcome σ) (partly : Analyzer σ → σ → σ) :
    List (Analyzer σ) → σ → σ × Reply (List String)
  | [], state => (state, ⟨[], []⟩)
  | a :: as, state =>
    match (turn a state).value? with
    | some state =>
      let (state, reply) := update turn partly as state
      (state, ⟨reply.result, a.id :: reply.called⟩)
    | none =>
      let (state, reply) := update turn partly as (partly a state)
      (state, ⟨a.id :: reply.result, a.id :: reply.called⟩)

/-- A document has changed; the result names the analyzers that failed. -/
def analyze (d : Dispatcher σ) (view : View) (document : Document) (state : σ) :
    σ × Reply (List String) :=
  update (fun a => a.analyze view document) (fun a => a.analyzePartly view document) d.analyzers state

/-- The document under a URI has gone. -/
def removed (d : Dispatcher σ) (view : View) (uri : String) (state : σ) : σ × Reply Unit :=
  let (state, reply) :=
    update (fun a => a.removed view uri) (fun a => a.removedPartly view uri) d.analyzers state
  (state, ⟨(), reply.called⟩)

/-- The answers of those that do not fail, one behind the other. -/
def answers (ask : Analyzer σ → Outcome (List α)) : List (Analyzer σ) → Reply (List α)
  | [] => ⟨[], []⟩
  | a :: as =>
    let reply := answers ask as
    match (ask a).value? with
    | some answer => ⟨answer ++ reply.result, a.id :: reply.called⟩
    | none => ⟨reply.result, a.id :: reply.called⟩

/-- The answers of all analyzers that do not fail, one behind the other. -/
def collect (d : Dispatcher σ) (ask : Analyzer σ → Outcome (List α)) : Reply (List α) :=
  answers ask d.analyzers

/-- All findings in a document. -/
def diagnostics (d : Dispatcher σ) (state : σ) (document : Document) : Reply (List Diagnostic) :=
  d.collect fun a => a.diagnostics state document

/-- Where the thing at a place is defined. -/
def definitions (d : Dispatcher σ) (state : σ) (q : Query) : Reply (List Location) :=
  d.collect fun a => a.definitions state q

/-- Where the thing at a place is used. -/
def references (d : Dispatcher σ) (state : σ) (q : Query) : Reply (List Location) :=
  d.collect fun a => a.references state q

/-- What may be typed at a place. -/
def completions (d : Dispatcher σ) (state : σ) (q : Query) : Reply (List Completion) :=
  d.collect fun a => a.completions state q

/-- The first answer that is not empty; nobody is asked after it. -/
def firstAnswer (ask : Analyzer σ → Outcome (Option α)) : List (Analyzer σ) → Reply (Option α)
  | [] => ⟨none, []⟩
  | a :: as =>
    match ask a with
    | .value (some answer) => ⟨some answer, [a.id]⟩
    | _ =>
      let reply := firstAnswer ask as
      ⟨reply.result, a.id :: reply.called⟩

/-- What is to be said about a place. -/
def hover (d : Dispatcher σ) (state : σ) (q : Query) : Reply (Option Hover) :=
  firstAnswer (fun a => a.hover state q) d.analyzers

/-- The tokens of a document. -/
def tokens (d : Dispatcher σ) (state : σ) (document : Document) : Reply (List SemanticToken) :=
  let reply := d.collect fun a => a.tokens state document
  ⟨SemanticToken.merge reply.result, reply.called⟩

end Dispatcher

end RouteScript
