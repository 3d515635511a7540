import RouteScript.Text.Basic

/-!
# UTF-8

Texts as bytes and bytes as texts.  Reading goes byte by byte: a `Pending` says what a character
that has begun still needs.  A piece that no well-formed character can continue is ill-formed and
ends before the byte that does not fit.

* `decodeLossy` writes U+FFFD for each ill-formed piece,
* `decode?` refuses a list of bytes that has one.
-/

namespace RouteScript.Utf8

/-- A character of which some bytes have been read. -/
structure Pending where
  /-- The bits read so far. -/
  value : Nat
  /-- How many bytes are still to come. -/
  missing : Nat
  /-- Bounds of the next byte. -/
  low : Nat
  high : Nat
deriving DecidableEq, Repr

/-- What the first byte of a character says about the rest. -/
def Pending.ofLead? (b : Nat) : Option Pending :=
  if 0xC2 ≤ b ∧ b ≤ 0xDF then some ⟨b - 0xC0, 1, 0x80, 0xBF⟩
  else if b = 0xE0 then some ⟨b - 0xE0, 2, 0xA0, 0xBF⟩
  else if b = 0xED then some ⟨b - 0xE0, 2, 0x80, 0x9F⟩
  else if 0xE1 ≤ b ∧ b ≤ 0xEF then some ⟨b - 0xE0, 2, 0x80, 0xBF⟩
  else if b = 0xF0 then some ⟨b - 0xF0, 3, 0x90, 0xBF⟩
  else if 0xF1 ≤ b ∧ b ≤ 0xF3 then some ⟨b - 0xF0, 3, 0x80, 0xBF⟩
  else if b = 0xF4 then some ⟨b - 0xF0, 3, 0x80, 0x8F⟩
  else none

/-- What a byte settles: characters read, `none` for an ill-formed piece, and the character that
is still pending. -/
abbrev Step := List (Option Char) × Option Pending

/-- A byte where a character may begin. -/
def start (b : Nat) : Step :=
  if b < 0x80 then ([some (Char.ofNat b)], none)
  else match Pending.ofLead? b with
    | some p => ([], some p)
    | none => ([none], none)

/-- A byte after a pending character. -/
def Pending.proceed (p : Pending) (b : Nat) : Step :=
  if p.low ≤ b ∧ b ≤ p.high then
    let value := p.value * 0x40 + (b - 0x80)
    if p.missing ≤ 1 then ([some (Char.ofNat value)], none)
    else ([], some ⟨value, p.missing - 1, 0x80, 0xBF⟩)
  else
    let (pieces, rest) := start b
    (none :: pieces, rest)

/-- One byte, in the state left by the bytes before it. -/
def step : Option Pending → Nat → Step
  | none, b => start b
  | some p, b => p.proceed b

/-- The pieces of a list of bytes, `none` for the ill-formed ones. -/
def pieces : Option Pending → List UInt8 → List (Option Char)
  | none, [] => []
  | some _, [] => [none]
  | state, b :: bs =>
    let (read, next) := step state b.toNat
    read ++ pieces next bs

/-- The text, with U+FFFD for each ill-formed piece. -/
def decodeLossy (bs : List UInt8) : Text := (pieces none bs).map (·.getD (Char.ofNat 0xFFFD))

/-- The text, if no piece is ill-formed. -/
def decode? (bs : List UInt8) : Option Text := (pieces none bs).mapM id

/-- The UTF-8 form of a text. -/
def encode (t : Text) : List UInt8 := t.flatMap String.utf8EncodeChar

end RouteScript.Utf8
