import RouteScript.Path
import RouteScript.Text.Utf8

/-!
# Document URIs

A document is known by its URI.  The URI of a file spells its path with every byte escaped that
may not stand in the path of a URI; `canonical` brings the URI of a local file, however it was
escaped, to that spelling and leaves every other URI alone.
-/

namespace RouteScript.Uri

/-- ASCII letters and digits. -/
def isAlphanumeric (c : Char) : Bool := c.isAlpha || c.isDigit

/-- The characters that stand for themselves in the path of a URI, `/` among them. -/
def isPathChar (c : Char) : Bool := isAlphanumeric c || "-._~!$&'()*+,;=:@/".toList.contains c

/-- A hexadecimal digit in upper case. -/
def hexDigit (n : Nat) : Char := Char.ofNat (if n < 10 then 0x30 + n else 0x37 + n)

/-- The value of a hexadecimal digit in either case. -/
def hexValue? (c : Char) : Option Nat :=
  let n := c.toNat
  if 0x30 ≤ n ∧ n ≤ 0x39 then some (n - 0x30)
  else if 0x41 ≤ n ∧ n ≤ 0x46 then some (n - 0x37)
  else if 0x61 ≤ n ∧ n ≤ 0x66 then some (n - 0x57)
  else none

/-- A byte as a percent escape. -/
def escapeByte (b : UInt8) : Text := ['%', hexDigit (b.toNat / 16), hexDigit (b.toNat % 16)]

/-- A character of a path as it stands in a URI. -/
def escapeChar (c : Char) : Text :=
  if isPathChar c then [c] else (String.utf8EncodeChar c).flatMap escapeByte

/-- A path text as it stands in a URI. -/
def escape (t : Text) : Text := t.flatMap escapeChar

/-- The bytes a URI text stands for; a `%` that two digits do not follow stands for itself. -/
def unescapeBytes : Text → List UInt8
  | [] => []
  | '%' :: a :: b :: t =>
    match hexValue? a, hexValue? b with
    | some m, some n => UInt8.ofNat (m * 16 + n) :: unescapeBytes t
    | _, _ => String.utf8EncodeChar '%' ++ unescapeBytes (a :: b :: t)
  | c :: t => String.utf8EncodeChar c ++ unescapeBytes t

/-- The text a URI text stands for, with U+FFFD where its bytes are not UTF-8. -/
def unescape (t : Text) : Text := Utf8.decodeLossy (unescapeBytes t)

/-- What comes before the path of a file URI. -/
def fileScheme : Text := "file://".toList

/-- The URI of a file. -/
def ofPath (p : Path) : String :=
  let escaped := escape (p.text.map fun c => if c = '\\' then '/' else c)
  String.ofList (fileScheme ++ if escaped.head? = some '/' then escaped else '/' :: escaped)

/-- The path of a file URI. -/
def toPath? (uri : String) : Option Path :=
  (Text.stripFront? fileScheme uri.toList).map fun rest => ⟨unescape rest⟩

/-- The directory that holds the document. -/
def directory? (uri : String) : Option Path := (toPath? uri).bind Path.parent?

/-- The key under which a document is stored, whatever escapes its URI was written with. -/
def canonical (uri : String) : String :=
  match Text.stripFront? fileScheme uri.toList with
  | some ('/' :: rest) => ofPath ⟨unescape ('/' :: rest)⟩
  | _ => uri

end RouteScript.Uri
