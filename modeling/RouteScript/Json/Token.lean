import RouteScript.Json.Basic
import RouteScript.Text.Basic

/-!
# JSON texts as tokens

A text is cut into tokens up to its end or up to the first place where no token can be read.  A
string is kept as it is written between its quotes: what its escapes stand for is settled by
`content` when somebody wants to know.

* `Stream.ofText`: the tokens of a text.
* `content`: the characters a written string stands for.
-/

namespace RouteScript.Json

/-- What is wrong with a text. -/
inductive Cause where
  | endInList
  | endInObject
  | endInString
  | endInValue
  | noColon
  | noListComma
  | noObjectComma
  | noWord
  | noValue
  | badEscape
  | badNumber
  | numberTooLarge
  | loneSurrogate
  | openEscape
  | controlCharacter
  | keyNotString
  | trailingComma
  | trailingCharacters
deriving DecidableEq, Repr

/-- The message for the user. -/
def Cause.message : Cause → String
  | endInList => "EOF while parsing a list"
  | endInObject => "EOF while parsing an object"
  | endInString => "EOF while parsing a string"
  | endInValue => "EOF while parsing a value"
  | noColon => "expected `:`"
  | noListComma => "expected `,` or `]`"
  | noObjectComma => "expected `,` or `\x7d`"
  | noWord => "expected ident"
  | noValue => "expected value"
  | badEscape => "invalid escape"
  | badNumber => "invalid number"
  | numberTooLarge => "number out of range"
  | loneSurrogate => "lone leading surrogate in hex escape"
  | openEscape => "unexpected end of hex escape"
  | controlCharacter => "control character (\\u0000-\\u001F) found while parsing a string"
  | keyNotString => "key must be a string"
  | trailingComma => "trailing comma"
  | trailingCharacters => "trailing characters"

/-- What is wrong and the offset up to which the text was read. -/
structure Fault where
  cause : Cause
  offset : Nat
deriving DecidableEq, Repr

/-- What a token is. -/
inductive TokenKind where
  | openList
  | closeList
  | openObject
  | closeObject
  | comma
  | colon
  | null
  | bool (value : Bool)
  /-- A number, unless it is too large to be one. -/
  | number (value : Option Number)
  /-- A string as it is written between the quotes. -/
  | string (written : Text)
deriving DecidableEq, Repr

/-- A piece of the text. -/
structure Token where
  kind : TokenKind
  span : Span
deriving DecidableEq, Repr

/-- Why there are no more tokens. -/
inductive Ending where
  | done
  /-- A character that starts no token. -/
  | other
  /-- A string that goes wrong. -/
  | string (fault : Fault)
  /-- A word or number that goes wrong. -/
  | broken (fault : Fault)
deriving DecidableEq, Repr

/-- The tokens of a text. -/
inductive Stream where
  | next (token : Token) (rest : Stream)
  | stop (ending : Ending) (offset : Nat)
deriving Repr

namespace Stream

/-- Where the next token starts. -/
def start : Stream → Nat
  | next token _ => token.span.start
  | stop _ offset => offset

end Stream

/-- A piece read from a text, and what follows it. -/
structure Piece (α : Type) where
  value : α
  stop : Nat
  rest : Text

/-! ### Words -/

/-- The rest of a word whose first character has been read. -/
def word : (letters : Text) → (offset : Nat) → Text → Except Fault (Piece Unit)
  | [], offset, t => .ok ⟨(), offset, t⟩
  | _ :: _, offset, [] => .error ⟨.endInValue, offset⟩
  | letter :: letters, offset, c :: t =>
    if c = letter then word letters (offset + 1) t else .error ⟨.noWord, offset + 1⟩

/-! ### Numbers -/

/-- The value of a decimal digit. -/
def digit (c : Char) : Nat := c.toNat - 0x30

/-- A whole number of 64 bits lies below this. -/
def wordSize : Nat := Nat.pow 2 64

/-- The digits of a number as far as 64 bits hold them, and how many were left out. -/
structure Significand where
  value : Nat
  omitted : Nat

/-- One more digit before the point; once one does not fit, none does. -/
def Significand.push (s : Significand) (c : Char) : Significand :=
  let value := s.value * 10 + digit c
  if s.omitted = 0 ∧ value < wordSize then ⟨value, 0⟩ else ⟨s.value, s.omitted + 1⟩

/-- The digits before the point. -/
def Significand.ofDigits (digits : Text) : Significand := digits.foldl push ⟨0, 0⟩

/-- The digits behind the point up to the first that does not fit, and how many they are. -/
def appendFraction (value : Nat) : (digits : Text) → Nat × Nat
  | [] => (value, 0)
  | c :: digits =>
    if value * 10 + digit c < wordSize then
      let (value, count) := appendFraction (value * 10 + digit c) digits
      (value, count + 1)
    else (value, 0)

/-- The number with the given digits and exponent. -/
def Number.ofDecimal (isNegative : Bool) (whole : Text) (fraction : Option Text)
    (exponent : Option Int) : Option Number :=
  let s := Significand.ofDigits whole
  let float (value : Nat) (power : Int) : Option Number :=
    (Double.ofParts? value power).map (Number.float isNegative)
  match fraction, exponent with
  | none, none =>
    if 0 < s.omitted then float s.value s.omitted
    else if !isNegative then some (.natural s.value)
    else if s.value = 0 ∨ wordSize < 2 * s.value then float s.value 0
    else some (.negative s.value)
  | _, _ =>
    let (value, count) := appendFraction s.value (fraction.getD [])
    float value (s.omitted - count + exponent.getD 0)

/-- The digits at the front of a text. -/
def digits (offset : Nat) (t : Text) : Piece Text :=
  let read := t.takeWhile Char.isDigit
  ⟨read, offset + read.length, t.drop read.length⟩

/-- The digits before the point: one zero, or digits that do not start with it. -/
def wholeDigits (offset : Nat) : Text → Except Fault (Piece Text)
  | [] => .error ⟨.endInValue, offset⟩
  | '0' :: t =>
    match t with
    | c :: _ => if c.isDigit then .error ⟨.badNumber, offset + 2⟩ else .ok ⟨['0'], offset + 1, t⟩
    | [] => .ok ⟨['0'], offset + 1, t⟩
  | c :: t => if c.isDigit then .ok (digits offset (c :: t)) else .error ⟨.badNumber, offset + 1⟩

/-- The point and the digits behind it, if there is a point. -/
def fractionDigits (offset : Nat) : Text → Except Fault (Piece (Option Text))
  | '.' :: t =>
    let read := digits (offset + 1) t
    if !read.value.isEmpty then .ok ⟨some read.value, read.stop, read.rest⟩
    else if t.isEmpty then .error ⟨.endInValue, offset + 1⟩
    else .error ⟨.badNumber, offset + 2⟩
  | t => .ok ⟨none, offset, t⟩

/-- The digits of an exponent behind its sign. -/
def exponentDigits (isNegative : Bool) (offset : Nat) (t : Text) :
    Except Fault (Piece (Option Int)) :=
  let read := digits offset t
  if !read.value.isEmpty then
    let size : Int := read.value.foldl (fun n c => n * 10 + digit c) 0
    .ok ⟨some (if isNegative then -size else size), read.stop, read.rest⟩
  else if t.isEmpty then .error ⟨.endInValue, offset⟩
  else .error ⟨.badNumber, offset + 1⟩

/-- An exponent, if there is one. -/
def exponentOf (offset : Nat) : Text → Except Fault (Piece (Option Int))
  | c :: t =>
    if c = 'e' ∨ c = 'E' then
      match t with
      | '+' :: t => exponentDigits false (offset + 2) t
      | '-' :: t => exponentDigits true (offset + 2) t
      | t => exponentDigits false (offset + 1) t
    else .ok ⟨none, offset, c :: t⟩
  | [] => .ok ⟨none, offset, []⟩

/-- A number behind its sign. -/
def unsigned (isNegative : Bool) (offset : Nat) (t : Text) :
    Except Fault (Piece (Option Number)) := do
  let whole ← wholeDigits offset t
  let fraction ← fractionDigits whole.stop whole.rest
  let exponent ← exponentOf fraction.stop fraction.rest
  return ⟨Number.ofDecimal isNegative whole.value fraction.value exponent.value, exponent.stop,
    exponent.rest⟩

/-! ### Strings -/

/-- The value of a hexadecimal digit. -/
def hexValue? (c : Char) : Option Nat :=
  let n := c.toNat
  if c.isDigit then some (n - 0x30)
  else if 0x41 ≤ n ∧ n ≤ 0x46 then some (n - 0x37)
  else if 0x61 ≤ n ∧ n ≤ 0x66 then some (n - 0x57)
  else none

/-- Four hexadecimal digits. -/
def hexQuad? (a b c d : Char) : Option Nat := do
  return ((((← hexValue? a) * 16 + (← hexValue? b)) * 16 + (← hexValue? c)) * 16) + (← hexValue? d)

/-- The character a one-letter escape stands for. -/
def simpleEscape? (c : Char) : Option Char :=
  match c with
  | '"' => some '"'
  | '\\' => some '\\'
  | '/' => some '/'
  | 'b' => some '\x08'
  | 'f' => some '\x0c'
  | 'n' => some '\n'
  | 'r' => some '\r'
  | 't' => some '\t'
  | _ => none

/-- What is wrong where four digits should come. -/
def quadFault (offset : Nat) (t : Text) : Fault :=
  if t.bytes < 4 then ⟨.endInString, offset + t.bytes⟩ else ⟨.badEscape, offset + 4⟩

/-- A string behind its opening quote, as it is written up to its closing one. -/
def quoted (offset : Nat) : Text → Except Fault (Piece Text)
  | [] => .error ⟨.endInString, offset⟩
  | '"' :: t => .ok ⟨[], offset + 1, t⟩
  | '\\' :: t =>
    match t with
    | [] => .error ⟨.endInString, offset + 1⟩
    | 'u' :: t =>
      match t with
      | a :: b :: c :: d :: t =>
        if (hexQuad? a b c d).isSome then
          (quoted (offset + 6) t).map fun p =>
            { p with value := ['\\', 'u', a, b, c, d] ++ p.value }
        else .error (quadFault (offset + 2) (a :: b :: c :: d :: t))
      | t => .error (quadFault (offset + 2) t)
    | c :: t =>
      if (simpleEscape? c).isSome then
        (quoted (offset + 2) t).map fun p => { p with value := '\\' :: c :: p.value }
      else .error ⟨.badEscape, offset + 2⟩
  | c :: t =>
    if c.toNat < 0x20 then .error ⟨.controlCharacter, offset + 1⟩
    else (quoted (offset + c.utf8Size) t).map fun p => { p with value := c :: p.value }

/-- The first half of a pair that stands for one character. -/
def isHighSurrogate (n : Nat) : Bool := 0xD800 ≤ n && n ≤ 0xDBFF

/-- The second half of such a pair. -/
def isLowSurrogate (n : Nat) : Bool := 0xDC00 ≤ n && n ≤ 0xDFFF

/-- The character of a pair. -/
def ofSurrogates (high low : Nat) : Char :=
  Char.ofNat (0x10000 + (high - 0xD800) * 0x400 + (low - 0xDC00))

/-- The characters a string stands for, as it is written from `offset` on. -/
def content (offset : Nat) : (written : Text) → Except Fault Text
  | '\\' :: 'u' :: a :: b :: c :: d :: t =>
    let n := (hexQuad? a b c d).getD 0
    if isLowSurrogate n then .error ⟨.loneSurrogate, offset + 6⟩
    else if isHighSurrogate n then
      match t with
      | '\\' :: 'u' :: e :: f :: g :: h :: t =>
        let m := (hexQuad? e f g h).getD 0
        if isLowSurrogate m then (content (offset + 12) t).map (ofSurrogates n m :: ·)
        else .error ⟨.loneSurrogate, offset + 12⟩
      | '\\' :: _ => .error ⟨.openEscape, offset + 8⟩
      | _ => .error ⟨.openEscape, offset + 7⟩
    else (content (offset + 6) t).map (Char.ofNat n :: ·)
  | '\\' :: c :: t => (content (offset + 2) t).map ((simpleEscape? c).getD c :: ·)
  | c :: t => (content (offset + c.utf8Size) t).map (c :: ·)
  | [] => .ok []

/-! ### Tokens -/

/-- The blanks between tokens. -/
def isSpace (c : Char) : Bool := c == ' ' || c == '\n' || c == '\t' || c == '\r'

/-- The kind of a token of one character. -/
def mark? (c : Char) : Option TokenKind :=
  match c with
  | '[' => some .openList
  | ']' => some .closeList
  | '\x7b' => some .openObject
  | '\x7d' => some .closeObject
  | ',' => some .comma
  | ':' => some .colon
  | _ => none

/-- A token of more than one character, or why there is none. -/
def longToken (offset : Nat) (c : Char) (t : Text) : Except Ending (Piece TokenKind) :=
  let named (letters : String) (kind : TokenKind) : Except Ending (Piece TokenKind) :=
    match word letters.toList (offset + 1) t with
    | .ok p => .ok ⟨kind, p.stop, p.rest⟩
    | .error f => .error (.broken f)
  let numeric (p : Except Fault (Piece (Option Number))) : Except Ending (Piece TokenKind) :=
    match p with
    | .ok p => .ok ⟨.number p.value, p.stop, p.rest⟩
    | .error f => .error (.broken f)
  if c = 'n' then named "ull" .null
  else if c = 't' then named "rue" (.bool true)
  else if c = 'f' then named "alse" (.bool false)
  else if c = '-' then numeric (unsigned true (offset + 1) t)
  else if c.isDigit then numeric (unsigned false offset (c :: t))
  else if c = '"' then
    match quoted (offset + 1) t with
    | .ok p => .ok ⟨.string p.value, p.stop, p.rest⟩
    | .error f => .error (.string f)
  else .error .other

/-- The token at the start of a text. -/
def tokenAt (offset : Nat) (c : Char) (t : Text) : Except Ending (Piece TokenKind) :=
  match mark? c with
  | some kind => .ok ⟨kind, offset + 1, t⟩
  | none => longToken offset c t

/-- The tokens of a text that starts at `offset`.  Every token takes a character, so as many steps
as there are characters suffice. -/
def tokens : (steps offset : Nat) → Text → Stream
  | 0, offset, _ => .stop .done offset
  | _ + 1, offset, [] => .stop .done offset
  | steps + 1, offset, c :: t =>
    if isSpace c then tokens steps (offset + 1) t
    else match tokenAt offset c t with
      | .error ending => .stop ending offset
      | .ok p => .next ⟨p.value, ⟨offset, p.stop⟩⟩ (tokens steps p.stop p.rest)

/-- The tokens of a text. -/
def Stream.ofText (t : Text) : Stream := tokens (t.length + 1) 0 t

end RouteScript.Json
