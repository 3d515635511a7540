import RouteScript.PseudoVar.Scanner
import RouteScript.Text.Utf8

/-!
# Scanning bytes

The same pass as that of the scanner, over the UTF-8 form of a text and by offsets.  Bytes are looked
up and parts are cut out wherever the pass gets to, so each access is checked: a `Fault` is a byte
behind the end, a cut through a character, a parenthesis that closes none, or a pass that is not at
the end after as many steps as it was given.

* `passFrom`: the pass from an offset on.
* `scanBytes`: the pass over a text, in as many steps as the text has bytes at most.
-/

namespace RouteScript.PseudoVar

/-- What stops a pass over bytes. -/
inductive Fault where
  /-- Bytes behind the end are asked for. -/
  | outOfRange
  /-- A part to be cut out does not start and end between characters. -/
  | cutCharacter
  /-- A parenthesis is closed where none is open. -/
  | unopened
  /-- The steps are used up before the end. -/
  | unfinished
deriving DecidableEq, Repr

/-- A reader of bytes: it may find nothing, and a fault stops it. -/
abbrev Reading := OptionT (Except Fault)

/-- What is found, or that nothing is. -/
def found {α : Type} (a : Option α) : Reading α := OptionT.mk (.ok a)

/-- The byte at an offset, if there is one. -/
def byte? (t : Text) (offset : Nat) : Option UInt8 := (Utf8.encode t)[offset]?

/-- The byte at an offset. -/
def byteAt (t : Text) (offset : Nat) : Except Fault UInt8 :=
  match byte? t offset with
  | some b => .ok b
  | none => .error .outOfRange

/-- All bytes from an offset on. -/
def bytesFrom (t : Text) (offset : Nat) : Except Fault (List UInt8) :=
  if offset ≤ t.bytes then .ok ((Utf8.encode t).drop offset) else .error .outOfRange

/-- The part of a text between two offsets. -/
def cut (t : Text) (start stop : Nat) : Except Fault Text :=
  if start ≤ stop ∧ t.isBoundary start = true ∧ t.isBoundary stop = true then
    .ok (t.slice ⟨start, stop⟩)
  else .error .cutCharacter

/-- The end of the identifier that starts at an offset. -/
def wordStop (t : Text) (start : Nat) : Reading Nat := do
  let first ← found (byte? t start)
  guard (isWordStart (.ofUInt8 first) = true)
  let rest ← bytesFrom t (start + 1)
  return start + 1 + (rest.takeWhile fun b => isWordChar (.ofUInt8 b)).length

/-- The offset of the parenthesis that leaves none open; `depth` are open in front of the bytes,
which start at `offset`. -/
def balance : (depth offset : Nat) → List UInt8 → Except Fault (Option Nat)
  | _, _, [] => .ok none
  | depth, offset, b :: bs =>
    if b = '('.toUInt8 then balance (depth + 1) (offset + 1) bs
    else if b = ')'.toUInt8 then
      match depth with
      | 0 => .error .unopened
      | 1 => .ok (some offset)
      | depth + 2 => balance (depth + 1) (offset + 1) bs
    else balance depth (offset + 1) bs

/-- The parenthesis that balances the one at an offset. -/
def parenthesisStop (t : Text) (opening : Nat) : Reading Nat :=
  OptionT.mk (balance 0 opening ((Utf8.encode t).drop opening))

/-- The first closing bracket behind the bracket at an offset. -/
def bracketStop (t : Text) (opening : Nat) : Reading Nat := do
  let rest ← bytesFrom t (opening + 1)
  let n ← found (rest.findIdx? (· == ']'.toUInt8))
  return opening + 1 + n

/-- An optional part and the offset behind it: it must be closed if its opening character stands
there. -/
def optionalAt (opening : Char) (stop : Text → Nat → Reading Nat) (t : Text) (offset : Nat) :
    Reading (Option Text × Nat) :=
  if byte? t offset = some opening.toUInt8 then do
    let close ← stop t offset
    let part ← cut t (offset + 1) close
    return (some part, close + 1)
  else return (none, offset)

/-- The pseudo-variable between two offsets, of the given parts. -/
def build (t : Text) (start stop : Nat) (cls : Text) (inner index : Option Text) :
    Except Fault PseudoVar := do
  let matched ← cut t start stop
  return ⟨matched, cls, inner, index, start⟩

/-- `$(class(inner)[index])` at an offset. -/
def bracketedAt (t : Text) (start : Nat) : Reading PseudoVar := do
  guard (byte? t (start + 1) = some '('.toUInt8)
  let clsStop ← wordStop t (start + 2)
  let (inner, innerStop) ← optionalAt '(' parenthesisStop t clsStop
  let (index, indexStop) ← optionalAt '[' bracketStop t innerStop
  guard (byte? t indexStop = some ')'.toUInt8)
  let cls ← cut t (start + 2) clsStop
  build t start (indexStop + 1) cls inner index

/-- `$class(inner)` at an offset, or `$class` alone if no payload is closed. -/
def namedAt (t : Text) (start : Nat) : Reading PseudoVar := do
  let clsStop ← wordStop t (start + 1)
  let cls ← cut t (start + 1) clsStop
  let full : Reading PseudoVar := do
    guard (byte? t clsStop = some '('.toUInt8)
    let close ← parenthesisStop t clsStop
    let inner ← cut t (clsStop + 1) close
    build t start (close + 1) cls (some inner) none
  full <|> (build t start clsStop cls none none : Reading PseudoVar)

/-- `$@path` at an offset. -/
def selectAliasAt (t : Text) (start : Nat) : Reading PseudoVar := do
  guard (byte? t (start + 1) = some '@'.toUInt8)
  let rest ← bytesFrom t (start + 2)
  let size := (rest.takeWhile fun b => isAliasChar (.ofUInt8 b)).length
  guard (size ≠ 0)
  let path ← cut t (start + 2) (start + 2 + size)
  build t start (start + 2 + size) "sel".toList (some path) none

/-- The pseudo-variable whose dollar sign stands at an offset. -/
def formAt (t : Text) (start : Nat) : Reading PseudoVar :=
  bracketedAt t start <|> namedAt t start <|> selectAliasAt t start

/-- The pseudo-variables from an offset on, found in `steps` steps at most. -/
def passFrom (t : Text) : (steps offset : Nat) → Except Fault (List PseudoVar)
  | steps, offset =>
    if t.bytes ≤ offset then .ok []
    else match steps with
      | 0 => .error .unfinished
      | steps + 1 => do
        let b ← byteAt t offset
        if b ≠ '$'.toUInt8 then passFrom t steps (offset + 1)
        else if byte? t (offset + 1) = some '$'.toUInt8 then passFrom t steps (offset + 2)
        else match ← (formAt t offset).run with
          | some v => return v :: (← passFrom t steps (v.offset + v.size))
          | none => passFrom t steps (offset + 1)

/-- The pseudo-variables of a text, found in as many steps as it has bytes at most. -/
def scanBytes (t : Text) : Except Fault (List PseudoVar) := passFrom t t.bytes 0

end RouteScript.PseudoVar
