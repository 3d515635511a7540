/-!
# Binary floating-point numbers

A number with 53 significant bits, its nearest value to a ratio, and the fewest decimal digits
that read back as it.  All arithmetic is exact.

* `nearest?`: rounding of a ratio, a half goes to the even neighbour.
* `shortest`: the digits.
* `text`: the number as it is written.
-/

namespace RouteScript

/-- The number `mantissa * 2 ^ exponent`. -/
structure Double where
  mantissa : Nat
  exponent : Int
deriving DecidableEq, Repr

namespace Double

/-- The numerator of `base ^ n` for a whole `n`. -/
def powUp (base : Nat) (n : Int) : Nat := Nat.pow base n.toNat

/-- The denominator of `base ^ n` for a whole `n`. -/
def powDown (base : Nat) (n : Int) : Nat := Nat.pow base (-n).toNat

/-- The whole number nearest to a ratio, of two the even one. -/
def roundDiv (num den : Nat) : Nat :=
  let q := num / den
  let twice := 2 * (num % den)
  if twice < den ∨ (twice = den ∧ q % 2 = 0) then q else q + 1

/-- The least exponent. -/
def minExponent : Int := -1074

/-- The greatest exponent. -/
def maxExponent : Int := 971

/-- The least number of 53 bits. -/
def leastMantissa : Nat := Nat.pow 2 52

/-- Zero. -/
def zero : Double := ⟨0, minExponent⟩

/-- The exponent at which the ratio, which is not zero, has 53 bits before the point. -/
def exponentOf (num den : Nat) : Int :=
  let size : Int := num.log2 - den.log2
  let reaches := den * powUp 2 size ≤ num * powDown 2 size
  max minExponent (if reaches then size - 52 else size - 53)

/-- The number nearest to a ratio, unless it is too large. -/
def nearest? (num den : Nat) : Option Double :=
  if num = 0 then some zero else
  let exponent := exponentOf num den
  let mantissa := roundDiv (num * powDown 2 exponent) (den * powUp 2 exponent)
  let rounded : Double :=
    if mantissa = 2 * leastMantissa then ⟨leastMantissa, exponent + 1⟩ else ⟨mantissa, exponent⟩
  if rounded.exponent ≤ maxExponent then some rounded else none

/-- The numerator of the number as a ratio. -/
def num (d : Double) : Nat := d.mantissa * powUp 2 d.exponent

/-- The denominator of the number as a ratio. -/
def den (d : Double) : Nat := powDown 2 d.exponent

/-- The rounded product. -/
def mul? (a b : Double) : Option Double := nearest? (a.num * b.num) (a.den * b.den)

/-- The rounded quotient. -/
def div? (a b : Double) : Option Double := nearest? (a.num * b.den) (a.den * b.num)

/-- The greatest power of ten that is a number. -/
def maxPower : Nat := 308

/-- A number divided by a power of ten, in steps of the greatest power there is.  After `steps`
of them nothing is left. -/
def divPower (d : Double) : (steps power : Nat) → Option Double
  | 0, _ => some zero
  | steps + 1, power => do
    let unit ← nearest? (Nat.pow 10 (min power maxPower)) 1
    let d ← d.div? unit
    if power ≤ maxPower then some d else d.divPower steps (power - maxPower)

/-- A whole number times a power of ten, each of the two rounded before the product is. -/
def ofParts? (significand : Nat) (exponent : Int) : Option Double := do
  let d ← nearest? significand 1
  if d.mantissa = 0 then some d
  else if exponent < 0 then d.divPower 4 (-exponent).toNat
  else if exponent ≤ maxPower then d.mul? (← nearest? (powUp 10 exponent) 1)
  else none

/-! ### Decimal digits -/

/-- The number of decimal digits. -/
def digitCount (n : Nat) : Nat := (Nat.toDigits 10 n).length

/-- The number of digits before the point of a number that is not zero; for a number below one,
less the zeros behind the point. -/
def magnitude (d : Double) : Int :=
  if d.den ≤ d.num then digitCount (d.num / d.den)
  else
    let n := digitCount (d.den / d.num)
    if d.den ≤ d.num * Nat.pow 10 (n - 1) then 2 - n else 1 - n

/-- The distance of the lower bound of the numbers that round to this one, in quarters of the
last bit. -/
def lowerQuarters (d : Double) : Nat :=
  if d.mantissa = leastMantissa ∧ minExponent < d.exponent then 1 else 2

/-- The decimal `c * 10 ^ place` rounds to the number. -/
def readsAs (d : Double) (c : Nat) (place : Int) : Bool :=
  let value := 4 * c * powUp 10 place * d.den
  let scale := powDown 10 place * powUp 2 d.exponent
  let low := (4 * d.mantissa - d.lowerQuarters) * scale
  let high := (4 * d.mantissa + 2) * scale
  if d.mantissa % 2 = 0 then low ≤ value && value ≤ high else low < value && value < high

/-- The decimal with the given number of digits that is nearest to the number, if it reads back. -/
def withDigits? (d : Double) (n : Nat) : Option (Nat × Int) :=
  let place := d.magnitude - n
  let scaledNum := d.num * powDown 10 place
  let scaledDen := d.den * powUp 10 place
  let nearer := roundDiv scaledNum scaledDen
  let lower := scaledNum / scaledDen
  let other := if nearer = lower then lower + 1 else lower
  if d.readsAs nearer place then some (nearer, place)
  else if d.readsAs other place then some (other, place)
  else none

/-- The fewest digits that read back, and the power of ten they are multiplied with.  Seventeen
digits always do. -/
def shortest (d : Double) : Nat × Int :=
  ((List.range 17).findSome? fun n => d.withDigits? (n + 1)).getD (d.num / d.den, 0)

/-- The first power of ten that is not written positionally. -/
def positionalEnd : Int := 16

/-- The last power of ten below one that is written positionally. -/
def positionalStart : Int := -5

/-- An exponent has a sign and at least two digits. -/
def exponentText (n : Int) : String :=
  let digits := toString n.natAbs
  (if n < 0 then "-" else "+") ++ (if n.natAbs < 10 then "0" ++ digits else digits)

/-- The number with at least one digit behind the point, or with an exponent if it is very large
or very small. -/
def text (d : Double) : String :=
  if d.mantissa = 0 then "0.0" else
  let (c, place) := d.shortest
  let written := (toString c).toList
  let digits := (written.reverse.dropWhile (· == '0')).reverse
  let power : Int := written.length + place - 1
  let zeros (n : Int) : List Char := List.replicate n.toNat '0'
  String.ofList <|
    if positionalStart ≤ power ∧ power < positionalEnd then
      if power < 0 then "0.".toList ++ zeros (-power - 1) ++ digits
      else
        let whole := digits.take (power + 1).toNat
        let rest := digits.drop (power + 1).toNat
        whole ++ zeros (power + 1 - whole.length) ++ '.' :: (if rest.isEmpty then ['0'] else rest)
    else
      let rest := digits.drop 1
      digits.take 1 ++ (if rest.isEmpty then [] else '.' :: rest)
        ++ 'e' :: (exponentText power).toList

end Double

end RouteScript
