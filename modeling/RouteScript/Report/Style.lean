import RouteScript.Text.Basic

/-!
# Styled text

A row of a report is a list of pieces, each in a color or in none.  On a terminal a colored piece
stands between the codes that switch its color on and off; elsewhere the colors are left out.
-/

namespace RouteScript.Report

/-- A color of a terminal. -/
inductive Color where
  | red
  | yellow
  | cyan
  /-- A color of the palette with 256 entries. -/
  | palette (index : Nat)
deriving DecidableEq, Repr

/-- The parameter of the code that switches the color on. -/
def Color.code : Color → String
  | red => "31"
  | yellow => "33"
  | cyan => "36"
  | palette index => "38;5;" ++ toString index

/-- A text in a color or in none. -/
structure Piece where
  text : String
  color : Option Color
deriving DecidableEq, Repr

namespace Piece

/-- A text without a color. -/
def plain (text : String) : Piece := ⟨text, none⟩

/-- A text in a color. -/
def inColor (color : Color) (text : String) : Piece := ⟨text, some color⟩

/-- The piece as it is written, with colors or without. -/
def render (colored : Bool) (p : Piece) : String :=
  match colored, p.color with
  | true, some color => "\x1b[" ++ color.code ++ "m" ++ p.text ++ "\x1b[0m"
  | _, _ => p.text

end Piece

/-- Pieces on one row. -/
abbrev Row := List Piece

/-- The row as it is written. -/
def Row.render (colored : Bool) (r : Row) : String :=
  String.join (r.map (Piece.render colored)) ++ "\n"

/-- A number of blanks. -/
def blanks (n : Nat) : String := String.ofList (List.replicate n ' ')

end RouteScript.Report
