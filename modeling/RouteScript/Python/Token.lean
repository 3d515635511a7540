import RouteScript.Text.Basic

/-!
# Tokens of Python

A token has a kind, its characters and its place.  The kinds `newline`, `indent` and `dedent` have
no characters: they mark where a line of statements ends and where blocks begin and end.
-/

namespace RouteScript.Python

/-- The kind of a token. -/
inductive TokenKind where
  /-- A keyword or an identifier. -/
  | word
  | integer
  | float
  /-- An operator or a delimiter. -/
  | operator
  /-- The letters and quotes that open a string literal. -/
  | stringStart
  | stringContent
  | stringEnd
  /-- `!r` and the like behind an interpolated expression. -/
  | conversion
  /-- The characters of a format specifier. -/
  | formatText
  | newline
  | indent
  | dedent
  /-- A character that no token starts with. -/
  | stray
deriving DecidableEq, Repr

/-- A token and its place. -/
structure Token where
  kind : TokenKind
  text : Text
  span : Span
deriving DecidableEq, Repr

/-- The words that are never identifiers. -/
def keywords : List String :=
  ["False", "None", "True", "and", "as", "assert", "break", "class", "continue", "def", "del",
    "elif", "else", "except", "finally", "for", "from", "global", "if", "import", "in", "is",
    "lambda", "nonlocal", "not", "or", "pass", "raise", "return", "try", "while", "with", "yield"]

/-- The operators and delimiters, longer ones before their own beginnings. -/
def operators : List String :=
  ["**=", "//=", ">>=", "<<=", "...", "**", "//", ">>", "<<", "<=", ">=", "==", "!=", "<>", "->",
    ":=", "+=", "-=", "*=", "/=", "%=", "@=", "&=", "|=", "^=", "+", "-", "*", "/", "%", "@", "&",
    "|", "^", "~", "<", ">", "=", "(", ")", "[", "]", "\x7b", "\x7d", ",", ":", ".", ";"]

end RouteScript.Python
