/-!
# Binary floating point formats

A floating point number is a word of bits. `Format.decode` reads a word as what it denotes, and
`Format.round` gives the word nearest to a dyadic number, ties going to the even neighbour. All
arithmetic on these numbers is exact arithmetic on natural numbers followed by one rounding.

## Main definitions

* `Format`, with the instances `binary32` and `binary64`
* `Datum`: what a word denotes
* `Format.decode`, `Format.round`
-/

namespace JvmTrim.Ieee

/-- The widths of the exponent and fraction fields of a format. -/
structure Format where
  /-- Width of the exponent field. -/
  exponentBits : Nat
  /-- Width of the fraction field. -/
  fractionBits : Nat
  deriving DecidableEq, Repr

/-- Single precision. -/
def binary32 : Format := ⟨8, 23⟩

/-- Double precision. -/
def binary64 : Format := ⟨11, 52⟩

/-- What a word denotes. -/
inductive Datum where
  /-- Not a number; the fraction field is kept. -/
  | nan (negative : Bool) (fraction : Nat)
  | infinite (negative : Bool)
  /-- The number `mantissa * 2 ^ exponent` with a sign, which zero has too. -/
  | finite (negative : Bool) (mantissa : Nat) (exponent : Int)
  deriving DecidableEq, Repr

/-- Whether the datum carries a minus sign. -/
def Datum.negative : Datum → Bool
  | nan negative _ | infinite negative | finite negative _ _ => negative

namespace Format

/-- Weight of the lowest bit of the exponent field. -/
def fractionUnit (format : Format) : Nat := 1 <<< format.fractionBits

/-- The exponent field of infinities and of words that are not numbers. -/
def topExponent (format : Format) : Nat := (1 <<< format.exponentBits) - 1

/-- The weight of the sign bit. -/
def signUnit (format : Format) : Nat := 1 <<< (format.exponentBits + format.fractionBits)

/-- The exponent of the smallest positive number. -/
def leastExponent (format : Format) : Int :=
  2 - ((1 <<< (format.exponentBits - 1) : Nat) : Int) - (format.fractionBits : Int)

/-- A word with its sign. -/
def withSign (format : Format) (negative : Bool) (magnitude : Nat) : Nat :=
  if negative then format.signUnit + magnitude else magnitude

/-- The magnitude of an infinity. -/
def infinity (format : Format) : Nat := format.topExponent * format.fractionUnit

/-- What a word denotes. -/
def decode (format : Format) (word : Nat) : Datum :=
  let negative := decide (format.signUnit ≤ word)
  let magnitude := word % format.signUnit
  let exponent := magnitude / format.fractionUnit
  let fraction := magnitude % format.fractionUnit
  if exponent = format.topExponent then
    if fraction = 0 then .infinite negative else .nan negative fraction
  else if exponent = 0 then .finite negative fraction format.leastExponent
  else
    .finite negative (format.fractionUnit + fraction) (format.leastExponent + (exponent - 1 : Nat))

/-- Number of binary digits. -/
def bitLength (n : Nat) : Nat := if n = 0 then 0 else n.log2 + 1

/-- `value / 2 ^ shift`, rounded to the nearest integer, a tie going to the even one. -/
def shiftRounded (value shift : Nat) : Nat :=
  if shift = 0 then value
  else
    let quotient := value >>> shift
    let rest := value % (1 <<< shift)
    let half := 1 <<< (shift - 1)
    if rest > half ∨ (rest = half ∧ quotient % 2 = 1) then quotient + 1 else quotient

/-- The word nearest to `mantissa * 2 ^ exponent` with a sign, a tie going to the even word.
Numbers beyond the largest finite one become infinite. -/
def round (format : Format) (negative : Bool) (mantissa : Nat) (exponent : Int) : Nat :=
  let precision := format.fractionBits + 1
  let wanted := exponent + (bitLength mantissa : Int) - (precision : Int)
  let unit := max wanted format.leastExponent
  let scaled :=
    if exponent ≥ unit then mantissa <<< (exponent - unit).toNat
    else shiftRounded mantissa (unit - exponent).toNat
  let magnitude :=
    if mantissa = 0 then 0
    else (unit - format.leastExponent).toNat * format.fractionUnit + scaled
  format.withSign negative (min magnitude format.infinity)

end Format

end JvmTrim.Ieee
