import RouteScript.Text.Basic

/-!
# Blank characters

The characters with the Unicode property `White_Space`, and the text without those at its ends.
-/

namespace RouteScript

/-- The character has the Unicode property `White_Space`. -/
def isBlank (c : Char) : Bool :=
  let n := c.toNat
  (9 ≤ n && n ≤ 13) || n == 0x20 || n == 0x85 || n == 0xA0 || n == 0x1680
    || (0x2000 ≤ n && n ≤ 0x200A) || n == 0x2028 || n == 0x2029 || n == 0x202F || n == 0x205F
    || n == 0x3000

namespace Text

/-- The text from its first to its last character that is not blank. -/
def trim (t : Text) : Text :=
  ((t.dropWhile isBlank).reverse.dropWhile isBlank).reverse

/-- The text without its blank characters. -/
def squeeze (t : Text) : Text := t.filter fun c => !isBlank c

end Text

end RouteScript
