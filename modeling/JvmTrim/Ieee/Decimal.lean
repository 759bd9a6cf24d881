import JvmTrim.Ieee.Format

/-!
# Shortest decimals

A floating point number is written with the fewest decimal digits that read back to it, always
positionally. Of the decimals with that many digits the nearest one is taken, and the larger one if
two are equally near.

## Main definitions

* `Interval`: the numbers that read back to a word
* `shortestDigits`: the digits and the decimal exponent
* `Format.text`: a word as text
-/

namespace JvmTrim.Ieee

/-- A positive number with the distances to the ends of the interval of numbers that round to it,
all as multiples of `2 ^ exponent`; the ends belong to the interval if `closed`. -/
structure Interval where
  /-- The number. -/
  value : Nat
  /-- Distance to the lower end. -/
  below : Nat
  /-- Distance to the upper end. -/
  above : Nat
  /-- Exponent of the unit. -/
  exponent : Int
  /-- Whether the ends belong to the interval. -/
  closed : Bool
  deriving Repr

/-- The interval of a positive number of a format. Below a power of two the next number is nearer by
half. -/
def Format.interval (format : Format) (mantissa : Nat) (exponent : Int) : Interval :=
  if mantissa = format.fractionUnit then
    ⟨4 * mantissa, 1, 2, exponent - 2, mantissa % 2 == 0⟩
  else ⟨2 * mantissa, 1, 1, exponent - 1, mantissa % 2 == 0⟩

/-- Whether `candidate / scale`, counted in units of the interval, reads back to its number. -/
def Interval.contains (interval : Interval) (candidate scale : Nat) : Bool :=
  let low := (interval.value - interval.below) * scale
  let high := (interval.value + interval.above) * scale
  if interval.closed then low ≤ candidate && candidate ≤ high
  else low < candidate && candidate < high

/-- The numerator and denominator of `2 ^ binary / 10 ^ decimal`. -/
def ratio (binary decimal : Int) : Nat × Nat :=
  (Nat.pow 10 (-decimal).toNat <<< binary.toNat, Nat.pow 10 decimal.toNat <<< (-binary).toNat)

/-- The multiple of `10 ^ decimal` that reads back to the number, if one of the two around it
does: the nearer one if both do, and of two equally near ones the larger. -/
def Interval.onGrid? (interval : Interval) (decimal : Int) : Option Nat :=
  let (numerator, denominator) := ratio interval.exponent decimal
  let scaled := interval.value * numerator
  let down := scaled / denominator
  let up := down + 1
  -- In units of `numerator`, the candidates are `down * denominator` and `up * denominator`.
  let downFits := interval.contains (down * denominator) numerator && down != 0
  let upFits := interval.contains (up * denominator) numerator
  if downFits && upFits then
    some (if 2 * (scaled - down * denominator) ≥ denominator then up else down)
  else if upFits then some up
  else if downFits then some down
  else none

/-- Tries grids of growing fineness, from `decimal` downwards. -/
def Interval.search (interval : Interval) : Nat → Int → Nat × Int
  | 0, decimal => ((interval.onGrid? decimal).getD 0, decimal)
  | bound + 1, decimal =>
    match interval.onGrid? decimal with
    | some digits => (digits, decimal)
    | none => interval.search bound (decimal - 1)

/-- An exponent of ten that is at least as large as the number's own, and not much larger. -/
def decimalEstimate (mantissa : Nat) (exponent : Int) : Int :=
  ((Format.bitLength mantissa : Int) + exponent) * 30103 / 100000 + 1

/-- The fewest digits that read back to a positive number, with the exponent of the last one. -/
def shortestDigits (format : Format) (mantissa : Nat) (exponent : Int) : Nat × Int :=
  (format.interval mantissa exponent).search 40 (decimalEstimate mantissa exponent)

/-- `digits * 10 ^ exponent`, written positionally. -/
def positional (digits : Nat) (exponent : Int) : String :=
  let shown := Nat.toDigits 10 digits
  if exponent ≥ 0 then
    String.ofList (shown ++ List.replicate exponent.toNat '0')
  else
    let places := (-exponent).toNat
    let padded := List.replicate (places + 1 - shown.length) '0' ++ shown
    let whole := padded.take (padded.length - places)
    let fraction := (padded.drop (padded.length - places)).reverse.dropWhile (· == '0')
    String.ofList (if fraction.isEmpty then whole else whole ++ '.' :: fraction.reverse)

/-- A word as the shortest decimal that reads back to it. -/
def Format.text (format : Format) (word : Nat) : String :=
  match format.decode word with
  | .nan .. => "NaN"
  | .infinite negative => if negative then "-inf" else "inf"
  | .finite negative mantissa exponent =>
    let magnitude :=
      if mantissa = 0 then "0"
      else
        let (digits, decimal) := shortestDigits format mantissa exponent
        positional digits decimal
    if negative then "-" ++ magnitude else magnitude

end JvmTrim.Ieee
