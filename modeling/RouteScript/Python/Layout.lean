import RouteScript.Python.Lexer

/-!
# Layout of Python

The second reading of a module: where lines of statements end and where blocks begin and end.

* A colon at the end of a line opens a block, if the next token stands further to the right than
  the block around it.
* A block ends before the first token further to the left.  The comments between belong to the
  block up to the first that stands further to the left.
* The marks `newline`, `indent` and `dedent` stand behind the last token or comment.
-/

namespace RouteScript.Python.Layout

/-- The indentation of the next token; the end of the text stands at the margin. -/
def nextIndent : List Placed → Nat
  | [] => 0
  | ⟨.token _, indent⟩ :: _ => indent.getD 0
  | _ :: rest => nextIndent rest

/-- Where the second reading stands. -/
structure State where
  /-- The indentations of the blocks around, the innermost first. -/
  indents : List Nat
  /-- The end of the last token or comment. -/
  last : Nat
  /-- The line holds a token already. -/
  started : Bool
  /-- The last token is a colon. -/
  opening : Bool

/-- A mark of the given kind behind what was read last. -/
def State.mark (s : State) (kind : TokenKind) : Token := ⟨kind, [], ⟨s.last, s.last⟩⟩

/-- The indentation of the innermost block. -/
def State.current (s : State) : Nat := s.indents.headD 0

/-- The blocks that end before a token or comment in column `column`, and the state behind
their marks. -/
def closeBlocks (column : Nat) (s : State) : List Token × State :=
  let ended := s.indents.takeWhile (column < ·)
  (ended.map fun _ => s.mark .dedent, ⟨s.indents.drop ended.length, s.last, s.started, s.opening⟩)

/-- The marks at the end of a line, in front of the lexemes `rest`. -/
def endLine (rest : List Placed) (s : State) : List Token × State :=
  if !s.started then ([], s)
  else if s.opening && s.current < nextIndent rest then
    ([s.mark .indent], ⟨nextIndent rest :: s.indents, s.last, false, false⟩)
  else ([s.mark .newline], ⟨s.indents, s.last, false, false⟩)

/-- The tokens of a module from a state on. -/
def arrange (s : State) : List Placed → List Token
  | [] =>
    let (marks, s) := endLine [] s
    marks ++ (closeBlocks 0 s).1
  | ⟨.lineEnd, _⟩ :: rest =>
    let (marks, s) := endLine rest s
    marks ++ arrange s rest
  | ⟨.comment span, indent⟩ :: rest =>
    let (marks, s) := if s.started then ([], s)
      else closeBlocks (max (nextIndent rest) (indent.getD 0)) s
    marks ++ arrange ⟨s.indents, span.stop, s.started, s.opening⟩ rest
  | ⟨.token t, indent⟩ :: rest =>
    let (marks, s) := if s.started then ([], s) else closeBlocks (indent.getD 0) s
    let opening := t.kind == .operator && t.text == [':']
    marks ++ t :: arrange ⟨s.indents, t.span.stop, true, opening⟩ rest

end RouteScript.Python.Layout

namespace RouteScript.Python

/-- The tokens of a module. -/
def tokens (t : Text) : List Token := Layout.arrange ⟨[0], 0, false, false⟩ (lex t)

end RouteScript.Python
