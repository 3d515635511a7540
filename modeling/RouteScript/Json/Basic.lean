import RouteScript.Json.Double
import RouteScript.Text.Width

/-!
# JSON values

The values of JSON and the way they are spoken of in messages.  A number is a whole number of 64
bits if it is written as one, and a floating-point number otherwise.
-/

namespace RouteScript

/-- A number of JSON. -/
inductive Json.Number where
  | natural (n : Nat)
  /-- The number `-n`. -/
  | negative (n : Nat)
  | float (isNegative : Bool) (size : Double)
deriving DecidableEq, Repr

/-- A JSON value; an object lists its fields as they are written. -/
inductive Json where
  | null
  | bool (value : Bool)
  | number (value : Json.Number)
  | string (value : String)
  | array (items : List Json)
  | object (fields : List (String × Json))
deriving Repr

namespace Json

/-- The value of a field of an object. -/
def field? (name : String) : Json → Option Json
  | object fields => fields.lookup name
  | _ => none

/-- The number as it is named in messages. -/
def Number.describe : Number → String
  | natural n => "integer `" ++ toString n ++ "`"
  | negative n => "integer `-" ++ toString n ++ "`"
  | float isNegative size =>
    "floating point `" ++ (if isNegative then "-" else "") ++ size.text ++ "`"

/-- A character that is not shown as itself: a control character, a blank other than the space, one
that is not visible, one for private use. -/
def isHidden (c : Char) : Bool :=
  let n := c.toNat
  n < 0x20 || (0x7F ≤ n && n < 0xA0) || (isBlank c && c != ' ') || Width.isInvisible c
    || (0xE000 ≤ n && n ≤ 0xF8FF) || 0xF0000 ≤ n

/-- A character as it is shown between quotes. -/
def showChar (c : Char) : String :=
  if c = '"' then "\\\"" else if c = '\\' then "\\\\"
  else if c = '\n' then "\\n" else if c = '\r' then "\\r" else if c = '\t' then "\\t"
  else if c = Char.ofNat 0 then "\\0"
  else if isHidden c then "\\u\x7b" ++ String.ofList (Nat.toDigits 16 c.toNat) ++ "\x7d"
  else c.toString

/-- A string between quotes, with escapes for what cannot be shown. -/
def quote (s : String) : String := "\"" ++ String.join (s.toList.map showChar) ++ "\""

/-- The value as it is named in messages. -/
def describe : Json → String
  | null => "null"
  | bool value => "boolean `" ++ (if value then "true" else "false") ++ "`"
  | number value => value.describe
  | string value => "string " ++ quote value
  | array _ => "sequence"
  | object _ => "map"

end Json

end RouteScript
