import RouteScript.Analysis.Analyzer
import RouteScript.Script.EngineCall

/-!
# Completing a literal

The call of the routing engine whose literal the cursor stands in, and the part of the literal in
front of the cursor.
-/

namespace RouteScript

variable [Python.Recovery]

namespace Text

/-- The first `n` bytes, if they end between characters. -/
def front? (n : Nat) (t : Text) : Option Text :=
  if t.isBoundary n then some (t.takeBytes n) else none

end Text

namespace Query

/-- The call whose literal the place is in. -/
def engineCall? (q : Query) : Option EngineCall := q.document.engineCallAt? q.offset

/-- The literal up to the place, if that is between two of its characters. -/
def typed? (q : Query) (call : EngineCall) : Option Text :=
  Text.front? (q.offset - call.contentSpan.start) call.content

/-- The literal up to the place, or nothing if that is inside a character. -/
def typed (q : Query) (call : EngineCall) : Text := (q.typed? call).getD []

end Query

/-- The name goes on from what was typed. -/
def startsWith (typed : Text) (name : String) : Bool := (Text.stripFront? typed name.toList).isSome

end RouteScript
