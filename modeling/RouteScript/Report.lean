import RouteScript.Analysis.Answer
import RouteScript.Report.Source
import RouteScript.Report.Style

/-!
# Reports

A diagnostic as it is shown on a terminal: a heading, the place, the lines it is about and its
message at the end of a line that leads there.

* A span on one line is underlined, and the message hangs from its middle.
* A span over more lines is marked beside its first and its last line, and the message hangs from
  the last.
-/

namespace RouteScript

/-- What sort of report it is. -/
inductive Report.Kind where
  | error
  | warning
  | advice
deriving DecidableEq, Repr

/-- A diagnostic with the text it is about. -/
structure Report where
  kind : Report.Kind
  code : Option String
  message : String
  path : String
  source : Text
  span : Span
  start_lt_stop : span.start < span.stop

namespace Report

/-- The sort of report for a severity; without one it is a warning. -/
def Kind.ofSeverity : Option Severity → Kind
  | some .error => error
  | some .information | some .hint => advice
  | some .warning | none => warning

/-- The name of the sort. -/
def Kind.label : Kind → String
  | error => "Error"
  | warning => "Warning"
  | advice => "Advice"

/-- The color of the heading. -/
def Kind.color : Kind → Color
  | error => .red
  | warning => .yellow
  | advice => .palette 147

/-- The color of what the report is about. -/
def Kind.markColor : Kind → Color
  | error => .red
  | warning => .yellow
  | advice => .cyan

/-- The color of the frame. -/
def frameColor : Color := .palette 246

/-- The color of the frame beside rows that are not lines of the text. -/
def faintColor : Color := .palette 240

/-- The color of what the report is not about. -/
def sourceColor : Color := .palette 249

/-- The code as a text. -/
def codeText : Code → String
  | .name text => text
  | .number value => toString value

/-- The report of a diagnostic; an empty range is one byte wide. -/
def ofDiagnostic (d : Diagnostic) (text : Text) (path : String) : Report :=
  let start := text.offsetOf d.range.start
  let stop := text.offsetOf d.range.stop
  ⟨.ofSeverity d.severity, d.code.map codeText, d.message, path, text,
    ⟨start, max stop (start + 1)⟩, by show start < max stop (start + 1); omega⟩

/-! ### Measures -/

/-- Where the span starts. -/
def first (r : Report) : Spot := spotAt r.source r.span.start

/-- Where the last byte of the span is. -/
def last (r : Report) : Spot := spotAt r.source (r.span.stop - 1)

/-- The width of the largest line number. -/
def numberWidth (r : Report) : Nat := (toString (r.last.index + 1)).length

/-- A piece of the mark. -/
def mark (r : Report) (c : Char) : Piece := .inColor r.kind.markColor c.toString

/-! ### Frame -/

/-- The heading; a code takes at least two characters. -/
def heading (r : Report) : Row :=
  let code := match r.code with
    | none => ""
    | some code => "[" ++ code ++ blanks (2 - code.length) ++ "] "
  [.inColor r.kind.color (code ++ r.kind.label ++ ":"), .plain (" " ++ r.message)]

/-- The place. -/
def placeRow (r : Report) : Row :=
  let place := r.path ++ ":" ++ toString (r.first.index + 1) ++ ":" ++ toString (r.first.column + 1)
  [.plain (blanks (r.numberWidth + 2)), .inColor frameColor "╭", .inColor frameColor "─",
    .inColor frameColor "[", .plain (" " ++ place ++ " "), .inColor frameColor "]"]

/-- The frame between the place and the lines. -/
def gapRow (r : Report) : Row :=
  [.plain (blanks (r.numberWidth + 2)), .inColor frameColor "│"]

/-- The end of the frame. -/
def tailRow (r : Report) : Row :=
  [.inColor frameColor (String.ofList (List.replicate (r.numberWidth + 2) '─') ++ "╯")]

/-- The frame beside a line of the text. -/
def numberMargin (r : Report) (index : Nat) : Row :=
  let number := toString (index + 1)
  [.plain " ", .inColor frameColor (blanks (r.numberWidth - number.length) ++ number ++ " │"),
    .plain " "]

/-- The frame beside another row. -/
def faintMargin (r : Report) (bar : String) : Row :=
  [.plain " ", .inColor faintColor (blanks (r.numberWidth + 1) ++ bar), .plain " "]

/-! ### Lines of the text -/

/-- A line of the text, with the columns it is about in their color. -/
def sourceRow (r : Report) (line : Text) (isMarked : Nat → Bool) : Row :=
  (trimEnd line).zipIdx.flatMap fun (c, column) =>
    let (c, width) := shown column c
    let color := if isMarked column then r.kind.markColor else sourceColor
    List.replicate (if c = ' ' then width else 1) (.inColor color c.toString)

/-- A row below a line: for each of the first columns a piece, and another that fills the column
up if its character is wide. -/
def rowBelow (line : Text) (columns : Nat) (pieces : Nat → Piece × Piece) : Row :=
  (List.range columns).flatMap fun column =>
    let (head, fill) := pieces column
    match widthAt line column with
    | 0 => []
    | width + 1 => head :: List.replicate width fill

/-- How far a row reaches behind what it marks. -/
def overhang : Nat := 2

/-! ### One line -/

/-- The rows of a span from column `start` to column `stop` of one line. -/
def inlineRows (r : Report) (start stop : Nat) : List Row :=
  let line := r.first.line
  let isMarked column := decide (start ≤ column ∧ column < stop)
  let middle := (start + stop) / 2
  let blank := Piece.plain " "
  let bar := r.mark '─'
  let underline column : Piece × Piece :=
    if column = middle then
      if isMarked column then (r.mark '┬', bar) else (r.mark '│', r.mark ' ')
    else if isMarked column then (bar, bar)
    else (blank, blank)
  let arrow column : Piece × Piece :=
    if column = middle then (r.mark '╰', bar)
    else if middle < column then (bar, bar)
    else (blank, blank)
  [r.numberMargin r.first.index ++ r.sourceRow line isMarked,
    r.faintMargin "│" ++ rowBelow line (stop + overhang) underline,
    r.faintMargin "│" ++ rowBelow line (stop + overhang) arrow ++ [.plain (" " ++ r.message)]]

/-! ### More lines -/

/-- The row in place of the lines between the first and the last. -/
def omittedRow (r : Report) : Row :=
  r.faintMargin "┆" ++ [r.mark '┆', .plain " ", .plain " ", .plain " "]

/-- The rows of a span from column `start` of a line to column `stop` of a later one. -/
def multilineRows (r : Report) (start stop : Nat) : List Row :=
  let line := r.last.line
  let bar := r.mark '─'
  let blank := Piece.plain " "
  let point := [r.mark '▶', r.mark ' ']
  [r.numberMargin r.first.index ++ [r.mark '╭', bar] ++ point
      ++ r.sourceRow r.first.line fun column => start ≤ column]
    ++ (if r.first.index + 1 < r.last.index then [r.omittedRow] else [])
    ++ [r.numberMargin r.last.index ++ [r.mark '├', bar] ++ point
        ++ r.sourceRow line fun column => column < stop,
      r.faintMargin "│" ++ [r.mark '│', blank, blank, blank]
        ++ rowBelow line (line.length + overhang) fun _ => (blank, blank),
      r.faintMargin "│" ++ [r.mark '╰', bar, bar, bar]
        ++ (rowBelow line (line.length + overhang) fun _ => (bar, bar))
        ++ [.plain (" " ++ r.message)]]

/-! ### The whole report -/

/-- The rows of the report. -/
def rows (r : Report) : List Row :=
  let start := r.first.column
  let stop := r.last.columnAfter
  [r.heading, r.placeRow, r.gapRow]
    ++ (if r.first.index = r.last.index then r.inlineRows start stop
        else r.multilineRows start stop)
    ++ [r.tailRow]

/-- The report as it is written, with colors or without. -/
def render (r : Report) (colored : Bool) : String :=
  String.join (r.rows.map (Row.render colored))

end Report

end RouteScript
