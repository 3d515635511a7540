import RouteScript.Text.Width

/-!
# Lines of a shown text

A report shows lines as a terminal breaks them: at every character that ends a line for Unicode,
with a carriage return and the line feed behind it as one ending.  A line keeps its ending.

* `spotAt`: the line and the column of an offset.
-/

namespace RouteScript.Report

/-- The character ends a line. -/
def isBreak (c : Char) : Bool :=
  let n := c.toNat
  (0x0A ≤ n && n ≤ 0x0D) || n == 0x85 || n == 0x2028 || n == 0x2029

/-- The lines of a text that is not empty. -/
def breakLines : Text → List Text
  | [] => []
  | '\r' :: '\n' :: t => ['\r', '\n'] :: breakLines t
  | c :: t =>
    if isBreak c then [c] :: breakLines t
    else match breakLines t with
      | [] => [[c]]
      | line :: lines => (c :: line) :: lines

/-- The lines of a text; an empty text is one empty line. -/
def shownLines (t : Text) : List Text := if t.isEmpty then [[]] else breakLines t

/-- A place in a text: the number of lines before it, its line, and the bytes of the line before
it. -/
structure Spot where
  index : Nat
  line : Text
  bytes : Nat
deriving DecidableEq, Repr

/-- The place of an offset in the given lines, of which `index` come before; the last line takes
all that is left. -/
def spotIn (index : Nat) : List Text → (offset : Nat) → Spot
  | [], offset => ⟨index, [], offset⟩
  | [line], offset => ⟨index, line, offset⟩
  | line :: lines, offset =>
    if offset < line.bytes then ⟨index, line, offset⟩
    else spotIn (index + 1) lines (offset - line.bytes)

/-- The place of an offset. -/
def spotAt (t : Text) (offset : Nat) : Spot := spotIn 0 (shownLines t) offset

namespace Spot

/-- The number of characters of the line before the place. -/
def column (s : Spot) : Nat := (s.line.takeBytes s.bytes).length

/-- The number of characters up to the byte at the place, with the one it belongs to. -/
def columnAfter (s : Spot) : Nat := (s.line.takeBytes (s.bytes + 1)).length

end Spot

/-! ### Columns of the terminal -/

/-- A tab reaches to the next multiple of this. -/
def tabWidth : Nat := 4

/-- What is shown for a character of a line, and how many columns it takes. -/
def shown (column : Nat) (c : Char) : Char × Nat :=
  if c = '\t' then (' ', (column / tabWidth + 1) * tabWidth - column)
  else if isBlank c then (' ', 1)
  else (c, Width.ofChar c)

/-- The line without the blanks at its end. -/
def trimEnd (line : Text) : Text := (line.reverse.dropWhile isBlank).reverse

/-- How many columns the character at a place of a line takes; one behind its last character. -/
def widthAt (line : Text) (column : Nat) : Nat :=
  match (trimEnd line)[column]? with
  | some c => (shown column c).2
  | none => 1

end RouteScript.Report
