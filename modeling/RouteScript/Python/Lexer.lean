import RouteScript.Python.Token
import RouteScript.Text.Blank
import RouteScript.Text.Identifier

/-!
# Lexemes of Python

The first reading of a module: its tokens, its comments and its line ends, in order.  A line end
inside brackets is blank.  The body of a string literal is one lexeme, but that of a formatted
literal is cut at its interpolations, whose expressions are read like any other; a stack of
`Frame`s tells which closing character is waited for.
-/

namespace RouteScript.Python

/-- How a string literal was opened. -/
structure Quote where
  mark : Char
  triple : Bool
  formatted : Bool
  raw : Bool
  bytes : Bool
  isMark : mark = '\'' ∨ mark = '"'
deriving DecidableEq, Repr

/-- What encloses the place reached. -/
inductive Frame where
  /-- Brackets of any kind. -/
  | brackets
  /-- The body of a literal. -/
  | literal (quote : Quote)
  /-- An interpolation of a literal, in front of its format specifier. -/
  | field (quote : Quote)
  /-- The format specifier of an interpolation. -/
  | specifier (quote : Quote)
deriving DecidableEq, Repr

/-- A lexeme. -/
inductive Lexeme where
  | token (token : Token)
  | comment (span : Span)
  | lineEnd
deriving DecidableEq, Repr

/-- A lexeme and, if it is the first on its line, the width of the blanks in front of it. -/
structure Placed where
  lexeme : Lexeme
  indent : Option Nat
deriving DecidableEq, Repr

namespace Lexer

/-- The longest front part whose characters satisfy `p`, and the rest. -/
def run (p : Char → Bool) (t : Text) : Text × Text := (t.takeWhile p, t.dropWhile p)

/-! ### Numbers -/

/-- A digit of a base, or the underscore that groups digits. -/
def isDigitOf (base : Nat) (c : Char) : Bool :=
  c == '_' || (c.isDigit && c.toNat - 48 < base) || (base == 16 && "abcdefABCDEF".toList.contains c)

/-- The base that a leading zero and the letter behind it announce. -/
def baseOf? (c : Char) : Option Nat :=
  if c == 'x' || c == 'X' then some 16
  else if c == 'o' || c == 'O' then some 8
  else if c == 'b' || c == 'B' then some 2
  else none

/-- The text without one character in front, if it is one of those given. -/
def optionalChar (chars : List Char) : Text → Text × Text
  | c :: t => if chars.contains c then ([c], t) else ([], c :: t)
  | [] => ([], [])

/-- Decimal digits and underscores. -/
def digits (t : Text) : Text × Text := run (isDigitOf 10) t

/-- The exponent of a floating-point number, if one stands here. -/
def exponent? (t : Text) : Option (Text × Text) :=
  match t with
  | e :: t =>
    if e == 'e' || e == 'E' then
      let (sign, t) := optionalChar ['+', '-'] t
      match t with
      | d :: _ =>
        if d.isDigit then
          let (ds, rest) := digits t
          some (e :: sign ++ ds, rest)
        else none
      | [] => none
    else none
  | [] => none

/-- A number: its kind, its characters and the rest. -/
def decimal (t : Text) : TokenKind × Text × Text :=
  let (whole, t) := digits t
  let (point, t) := optionalChar ['.'] t
  let (fraction, t) := if point.isEmpty then ([], t) else digits t
  let (power, t) := (exponent? t).getD ([], t)
  let isFloat := !point.isEmpty || !power.isEmpty
  let (suffix, t) := optionalChar (if isFloat then ['j', 'J'] else ['l', 'L', 'j', 'J']) t
  (if isFloat then .float else .integer, whole ++ point ++ fraction ++ power ++ suffix, t)

/-- A number, with the bases 16, 8 and 2. -/
def number (t : Text) : TokenKind × Text × Text :=
  match t with
  | '0' :: b :: d :: rest =>
    match baseOf? b with
    | some base =>
      if isDigitOf base d then
        let (ds, t) := run (isDigitOf base) (d :: rest)
        let (suffix, t) := optionalChar ['l', 'L'] t
        (.integer, '0' :: b :: ds ++ suffix, t)
      else decimal t
    | none => decimal t
  | _ => decimal t

/-- A number starts here. -/
def startsNumber : Text → Bool
  | '.' :: d :: _ => d.isDigit
  | d :: _ => d.isDigit
  | [] => false

/-! ### Words and operators -/

/-- The operator that stands here. -/
def operator? (t : Text) : Option (Text × Text) :=
  operators.findSome? fun op => (Text.stripFront? op.toList t).map fun rest => (op.toList, rest)

/-- A letter in front of the quotes of a literal. -/
def isLiteralLetter (c : Char) : Bool := "fFrRbBuU".toList.contains c

/-- The opening of a string literal. -/
def quote? (t : Text) : Option (Quote × Text × Text) :=
  let (letters, t) := run isLiteralLetter t
  let has (a b : Char) : Bool := letters.contains a || letters.contains b
  match t with
  | m :: t =>
    if h : m = '\'' ∨ m = '"' then
      let (triple, t) := match t with
        | a :: b :: rest => if a == m && b == m then (true, rest) else (false, t)
        | _ => (false, t)
      let marks := if triple then [m, m, m] else [m]
      some (⟨m, triple, has 'f' 'F', has 'r' 'R', has 'b' 'B', h⟩, letters ++ marks, t)
    else none
  | [] => none

/-! ### Bodies of literals -/

/-- The literal ends here. -/
def closes (q : Quote) (t : Text) : Bool :=
  if q.triple then (Text.stripFront? [q.mark, q.mark, q.mark] t).isSome else t.head? == some q.mark

/-- The characters of a literal up to its end, to an interpolation or to a place where neither may
stand, and the rest.  `named` holds inside the braces of a character name. -/
def body (q : Quote) : (named : Bool) → Text → Text × Text
  | _, [] => ([], [])
  | true, c :: t =>
    let (read, rest) := body q (c != '\x7d') t
    (c :: read, rest)
  | false, '\\' :: 'N' :: '\x7b' :: t =>
    if q.formatted && !q.raw && !q.bytes then
      let (read, rest) := body q true t
      ('\\' :: 'N' :: '\x7b' :: read, rest)
    else
      let (read, rest) := body q false ('N' :: '\x7b' :: t)
      ('\\' :: read, rest)
  | false, '\\' :: '\r' :: '\n' :: t =>
    let (read, rest) := body q false t
    ('\\' :: '\r' :: '\n' :: read, rest)
  | false, '\\' :: c :: t =>
    if c == '\'' || c == '"' || c == '\\' || c == '\n' then
      let (read, rest) := body q false t
      ('\\' :: c :: read, rest)
    else
      let (read, rest) := body q false (c :: t)
      ('\\' :: read, rest)
  | false, c :: d :: t =>
    if closes q (c :: d :: t) || (c == '\n' && !q.triple) then ([], c :: d :: t)
    else if q.formatted && (c == '\x7b' || c == '\x7d') then
      if c == d then
        let (read, rest) := body q false t
        (c :: d :: read, rest)
      else ([], c :: d :: t)
    else
      let (read, rest) := body q false (d :: t)
      (c :: read, rest)
  | false, c :: [] =>
    if closes q [c] || (c == '\n' && !q.triple)
        || (q.formatted && (c == '\x7b' || c == '\x7d')) then
      ([], [c])
    else ([c], [])

/-- The characters of a format specifier up to a brace, ends of lines among them. -/
def formatText (t : Text) : Text × Text := run (fun c => c != '\x7b' && c != '\x7d') t

/-! ### The loop -/

/-- What was read: the lexemes with their characters, the enclosing frames and the rest. -/
structure Step where
  read : List (Option TokenKind × Text)
  frames : List Frame
  rest : Text

/-- The characters that a step reads. -/
def Step.text (s : Step) : Text := (s.read.map (·.2)).flatten

/-- One step inside the body of a literal. -/
def literalStep (q : Quote) (frames : List Frame) (t : Text) : Step :=
  let (content, t) := body q false t
  let contents := if content.isEmpty then [] else [(some TokenKind.stringContent, content)]
  if closes q t then
    let marks := if q.triple then [q.mark, q.mark, q.mark] else [q.mark]
    ⟨contents ++ [(some .stringEnd, marks)], frames, t.drop marks.length⟩
  else match t with
    | '\x7b' :: rest =>
      ⟨contents ++ [(some .operator, ['\x7b'])], .field q :: .literal q :: frames, rest⟩
    | c :: rest => ⟨contents ++ [(some .stray, [c])], frames, rest⟩
    | [] => ⟨contents ++ [(some .stray, [])], frames, []⟩

/-- One step inside a format specifier. -/
def specifierStep (q : Quote) (frames : List Frame) (t : Text) : Step :=
  let (content, t) := formatText t
  let contents := if content.isEmpty then [] else [(some TokenKind.formatText, content)]
  match t with
  | '\x7b' :: rest =>
    ⟨contents ++ [(some .operator, ['\x7b'])], .field q :: .specifier q :: frames, rest⟩
  | '\x7d' :: rest => ⟨contents ++ [(some .operator, ['\x7d'])], frames, rest⟩
  | _ => ⟨contents ++ [(some .stray, [])], frames, []⟩

/-- The frames after an operator. -/
def framesAfter (op : Text) (frames : List Frame) : List Frame :=
  if op == ['('] || op == ['['] || op == ['\x7b'] then .brackets :: frames
  else if op == [')'] || op == [']'] || op == ['\x7d'] then frames.drop 1
  else frames

/-- One step in code, in front of a character that is neither blank nor starts a comment. -/
def codeStep (frames : List Frame) (t : Text) : Step :=
  match frames, t with
  | .field q :: outer, ':' :: rest => ⟨[(some .operator, [':'])], .specifier q :: outer, rest⟩
  | .field q :: outer, '!' :: c :: rest =>
    if c == '=' then ⟨[(some .operator, ['!', c])], .field q :: outer, rest⟩
    else ⟨[(some .conversion, ['!', c])], .field q :: outer, rest⟩
  | _, _ =>
    match quote? t with
    | some (q, opening, rest) => ⟨[(some .stringStart, opening)], .literal q :: frames, rest⟩
    | none =>
      match t with
      | [] => ⟨[], frames, []⟩
      | c :: more =>
        if Identifier.isStart c then
          let (word, rest) := run Identifier.isContinue t
          ⟨[(some .word, word)], frames, rest⟩
        else if startsNumber t then
          let (kind, text, rest) := number t
          ⟨[(some kind, text)], frames, rest⟩
        else match operator? t with
          | some (op, rest) => ⟨[(some .operator, op)], framesAfter op frames, rest⟩
          | none => ⟨[(some .stray, [c])], frames, more⟩

/-- Characters that only separate tokens. -/
def isSeparator (c : Char) : Bool :=
  isBlank c || c == '\uFEFF' || c == '\u2060' || c == '\u200B'

/-- The width of the blanks in front of a line, after one more of them. -/
def widthAfter (width : Nat) (c : Char) : Nat :=
  if c == ' ' then width + 1
  else if c == '\t' then width + 8
  else if c == '\r' || c == '\x0c' then 0
  else width

/-- The tokens of a step, one behind the other from `offset` on. -/
def place : (offset : Nat) → List (Option TokenKind × Text) → (indent : Option Nat) → List Placed
  | _, [], _ => []
  | offset, (kind, text) :: more, indent =>
    let stop := offset + text.bytes
    let lexeme : Lexeme := match kind with
      | some kind => .token ⟨kind, text, ⟨offset, stop⟩⟩
      | none => .comment ⟨offset, stop⟩
    ⟨lexeme, indent⟩ :: place stop more none

/-- The lexemes of the rest of a text.  Every step reads a character at least, so `fuel` need not
exceed the number of characters left; `indent` is the width of the blanks read since the line
began, if nothing else was. -/
def lexemes :
    (fuel : Nat) → (offset : Nat) → List Frame → (indent : Option Nat) → Text → List Placed
  | 0, _, _, _, _ => []
  | fuel + 1, offset, frames, indent, t =>
    let proceed (s : Step) : List Placed :=
      place offset s.read indent
        ++ lexemes fuel (offset + s.text.bytes) s.frames none s.rest
    match frames, t with
    | .literal q :: outer, t => if t.isEmpty then [] else proceed (literalStep q outer t)
    | .specifier q :: outer, t => if t.isEmpty then [] else proceed (specifierStep q outer t)
    | _, [] => []
    | frames, '\\' :: '\r' :: '\n' :: t => lexemes fuel (offset + 3) frames indent t
    | frames, '\\' :: '\n' :: t => lexemes fuel (offset + 2) frames indent t
    | frames, c :: t =>
      if c == '\n' then
        let rest := lexemes fuel (offset + 1) frames (some 0) t
        if frames.isEmpty then ⟨.lineEnd, none⟩ :: rest else rest
      else if isSeparator c then
        lexemes fuel (offset + c.utf8Size) frames (indent.map (widthAfter · c)) t
      else if c == '#' then
        let (comment, rest) := run (· != '\n') (c :: t)
        proceed ⟨[(none, comment)], frames, rest⟩
      else proceed (codeStep frames (c :: t))

end Lexer

/-- The lexemes of a module. -/
def lex (t : Text) : List Placed := Lexer.lexemes (t.length + 1) 0 [] (some 0) t

end RouteScript.Python
