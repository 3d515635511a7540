import RouteScript.PseudoVar.Basic

/-!
# Scanning for pseudo-variables

A dollar sign starts a pseudo-variable in one of these forms:

* `$(class(inner)[index])`, where the payload and the subscript may be missing,
* `$class(inner)`, or `$class` if no balanced payload follows,
* `$@path`, a select alias of class `sel`.

Two dollar signs in a row stand for one and start nothing.  A match is passed over as a whole, so
nothing is found inside a payload.
-/

namespace RouteScript.PseudoVar

/-- What was read after a dollar sign, and the text behind it. -/
structure Form where
  cls : Text
  inner : Option Text
  index : Option Text
  rest : Text
deriving DecidableEq, Repr

/-- A character an identifier may start with. -/
def isWordStart (c : Char) : Bool := c.isAlpha || c == '_'

/-- A character an identifier may go on with. -/
def isWordChar (c : Char) : Bool := c.isAlpha || c.isDigit || c == '_'

/-- A character of the path of a select alias. -/
def isAliasChar (c : Char) : Bool := isWordChar c || c == '.'

/-- The identifier at the start of a text, as long as it goes, and the text behind it. -/
def word? : Text → Option (Text × Text)
  | [] => none
  | c :: t =>
    if isWordStart c then some (c :: t.takeWhile isWordChar, t.dropWhile isWordChar) else none

/-- The text up to the parenthesis that closes the one opened before it, and the text behind that;
`depth` more parentheses are open in between. -/
def closing? : (depth : Nat) → Text → Option (Text × Text)
  | _, [] => none
  | depth, c :: t =>
    if c = ')' then
      match depth with
      | 0 => some ([], t)
      | depth + 1 => (closing? depth t).map fun (inner, rest) => (c :: inner, rest)
    else
      (closing? (if c = '(' then depth + 1 else depth) t).map fun (inner, rest) =>
        (c :: inner, rest)

/-- A payload in balanced parentheses. -/
def payload? : Text → Option (Text × Text)
  | '(' :: t => closing? 0 t
  | _ => none

/-- A subscript up to the first closing bracket. -/
def subscript? : Text → Option (Text × Text)
  | '[' :: t =>
    match t.dropWhile (· != ']') with
    | _ :: rest => some (t.takeWhile (· != ']'), rest)
    | [] => none
  | _ => none

/-- An optional part: it must be well-formed if its opening character stands there. -/
def optional (opening : Char) (read? : Text → Option (Text × Text)) (t : Text) :
    Option (Option Text × Text) :=
  if t.head? = some opening then (read? t).map fun (part, rest) => (some part, rest)
  else some (none, t)

/-- `(class(inner)[index])` after a dollar sign. -/
def bracketed? : Text → Option Form
  | '(' :: t => do
    let (cls, t) ← word? t
    let (inner, t) ← optional '(' payload? t
    let (index, t) ← optional '[' subscript? t
    match t with
    | ')' :: rest => some ⟨cls, inner, index, rest⟩
    | _ => none
  | _ => none

/-- `class(inner)` after a dollar sign, or `class` alone if no payload is closed. -/
def named? (t : Text) : Option Form := do
  let (cls, t) ← word? t
  match payload? t with
  | some (inner, rest) => some ⟨cls, some inner, none, rest⟩
  | none => some ⟨cls, none, none, t⟩

/-- `@path` after a dollar sign. -/
def selectAlias? : Text → Option Form
  | '@' :: t =>
    match t.takeWhile isAliasChar with
    | [] => none
    | path => some ⟨"sel".toList, some path, none, t.dropWhile isAliasChar⟩
  | _ => none

/-- The form at the start of the text behind a dollar sign. -/
def form? (t : Text) : Option Form := bracketed? t <|> named? t <|> selectAlias? t

/-- The pseudo-variables of a text that starts at `offset` and whose first `skip` characters are
settled already. -/
def scanFrom : (skip offset : Nat) → Text → List PseudoVar
  | _, _, [] => []
  | skip + 1, offset, c :: t => scanFrom skip (offset + c.utf8Size) t
  | 0, offset, c :: t =>
    if c = '$' then
      if t.head? = some '$' then scanFrom 1 (offset + 1) t
      else match form? t with
        | some f =>
          let used := t.length - f.rest.length
          ⟨c :: t.take used, f.cls, f.inner, f.index, offset⟩ :: scanFrom used (offset + 1) t
        | none => scanFrom 0 (offset + 1) t
    else scanFrom 0 (offset + c.utf8Size) t

/-- The pseudo-variables of a text, in order. -/
def scan (t : Text) : List PseudoVar := scanFrom 0 0 t

end RouteScript.PseudoVar
