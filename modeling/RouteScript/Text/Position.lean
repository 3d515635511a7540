import RouteScript.Text.Utf8

/-!
# Lines, positions and points

An editor names a place in a text by line and column.  A line ends at a line feed, at a carriage
return, or at both in this order; a column counts the UTF-16 units before the place.  A column
past the end of its line means that end, a line past the last one the end of the text.

A `Point` is the other way to name a place: rows end at line feeds only, and the column counts
bytes.

* `flatten_lines`: a text is the concatenation of its lines with their endings.
* `IsFirm`: the offsets that a position can name.
-/

namespace RouteScript

/-- A place in a text, by line and by UTF-16 units within the line. -/
structure Position where
  line : Nat
  character : Nat
deriving DecidableEq, Repr, Inhabited

/-- The text between two positions. -/
structure Range where
  start : Position
  stop : Position
deriving DecidableEq, Repr, Inhabited

namespace Position

/-- The order of places: by line, then by column. -/
def le (p q : Position) : Bool :=
  p.line < q.line || (p.line == q.line && p.character ≤ q.character)

/-- The position at the very start. -/
def origin : Position := ⟨0, 0⟩

/-- The same column, `n` lines further down. -/
def down (p : Position) (n : Nat) : Position := ⟨p.line + n, p.character⟩

end Position

namespace Range

/-- The empty range at the start of a text. -/
def origin : Range := ⟨.origin, .origin⟩

end Range

/-- Number of 16-bit units of the character's UTF-16 form. -/
def unitSize (c : Char) : Nat := if c.toNat < 0x10000 then 1 else 2

/-- A line: its characters and the characters that end it. -/
structure Line where
  body : Text
  ending : Text
deriving DecidableEq, Repr

namespace Line

/-- Size with the ending. -/
def bytes (l : Line) : Nat := Text.bytes l.body + Text.bytes l.ending

/-- The line with its ending. -/
def toText (l : Line) : Text := l.body ++ l.ending

end Line

namespace Text

/-- Size of the UTF-16 form. -/
def units : Text → Nat
  | [] => 0
  | c :: t => unitSize c + units t

/-- The longest front part of at most `n` UTF-16 units. -/
def takeUnits : Nat → Text → Text
  | _, [] => []
  | n, c :: t => if unitSize c ≤ n then c :: takeUnits (n - unitSize c) t else []

/-- The line that begins with `c` and goes on as the first of `ls`. -/
def extendFirst (c : Char) : List Line → List Line
  | [] => [⟨[c], []⟩]
  | l :: ls => ⟨c :: l.body, l.ending⟩ :: ls

/-- The lines of a text; only the last one has no ending. -/
def lines : Text → List Line
  | [] => [⟨[], []⟩]
  | '\r' :: '\n' :: t => ⟨[], ['\r', '\n']⟩ :: lines t
  | c :: t => if c = '\n' ∨ c = '\r' then ⟨[], [c]⟩ :: lines t else extendFirst c (lines t)

theorem flatten_extendFirst (c : Char) (ls : List Line) :
    ((extendFirst c ls).map Line.toText).flatten = c :: (ls.map Line.toText).flatten := by
  cases ls <;> simp [extendFirst, Line.toText]

theorem flatten_lines (t : Text) : ((lines t).map Line.toText).flatten = t := by
  fun_induction lines t with
  | case1 => rfl
  | case2 t ih => simpa [Line.toText] using ih
  | case3 c t _ h ih => simpa [Line.toText] using ih
  | case4 c t _ h ih => rw [flatten_extendFirst, ih]

/-- Byte offset of a line and a column within the given lines. -/
def offsetIn : List Line → Nat → Nat → Nat
  | [], _, _ => 0
  | l :: _, 0, column => bytes (takeUnits column l.body)
  | l :: ls, n + 1, column => l.bytes + offsetIn ls n column

/-- Position of a byte offset within the given lines; the last one takes all that is left. -/
def positionIn : List Line → Nat → Position
  | [], _ => .origin
  | [l], offset => ⟨0, units (takeBytes offset l.body)⟩
  | l :: ls, offset =>
    if offset < l.bytes then ⟨0, units (takeBytes offset l.body)⟩
    else (positionIn ls (offset - l.bytes)).down 1

/-- Byte offset of a position. -/
def offsetOf (t : Text) (p : Position) : Nat := offsetIn (lines t) p.line p.character

/-- Position of a byte offset; an offset past the end means the end. -/
def positionOf (t : Text) (offset : Nat) : Position := positionIn (lines t) offset

/-- The range between the positions of the span's ends. -/
def rangeOf (t : Text) (s : Span) : Range := ⟨positionOf t s.start, positionOf t s.stop⟩

/-- The offset is between characters, and it does not part a carriage return from the line feed
behind it. -/
def IsFirm (t : Text) (n : Nat) : Prop :=
  ∃ front rest, t = front ++ rest ∧ bytes front = n ∧
    ¬ (front.getLast? = some '\r' ∧ rest.head? = some '\n')

end Text

/-- A place in a text, by row and by bytes within the row; rows end at line feeds. -/
structure Point where
  row : Nat
  column : Nat
deriving DecidableEq, Repr, Inhabited

namespace Point

/-- The point behind one more byte. -/
def afterByte (p : Point) (b : UInt8) : Point :=
  if b = 0x0A then ⟨p.row + 1, 0⟩ else ⟨p.row, p.column + 1⟩

/-- The point of a byte offset, counted byte by byte; an offset past the end means the end. -/
def ofOffset (t : Text) (offset : Nat) : Point :=
  ((Utf8.encode t).take offset).foldl afterByte ⟨0, 0⟩

/-- The point reached from `p` by writing `t`: the row goes on with the part up to the first line
feed, and each part behind a line feed has a row of its own. -/
def after (p : Point) (t : Text) : Point :=
  match t.splitOn '\n' with
  | [] => p
  | first :: rest =>
    rest.foldl (fun p part => ⟨p.row + 1, part.bytes⟩) ⟨p.row, p.column + first.bytes⟩

end Point

end RouteScript
