import JvmTrim.Ieee.Format

/-!
# Floating point arithmetic

The operations of the virtual machine on words of a format: each gives the word nearest to the exact
result. An operation without a result gives a negative quiet word that is not a number; an operand
that is not a number is handed on, the first one if both are, made quiet.

## Main definitions

* `Format.add`, `sub`, `mul`, `div`, `rem`, `neg`
* `Format.compare?`: the order of two words, none if one is not a number
* `Format.truncate`: the integer towards zero, within bounds
* `Format.ofInt`, `Format.convert`: rounding from integers and between formats
-/

namespace JvmTrim.Ieee

namespace Format

/-- The weight of the fraction bit that makes a word that is not a number quiet. -/
def quietUnit (format : Format) : Nat := 1 <<< (format.fractionBits - 1)

/-- A word that is not a number, made quiet. -/
def quiet (format : Format) (negative : Bool) (fraction : Nat) : Nat :=
  format.withSign negative (format.infinity + (fraction ||| format.quietUnit))

/-- The word for an operation without a result. -/
def invalid (format : Format) : Nat := format.quiet true 0

/-- Applies an operation to two words, handing on an operand that is not a number. -/
def binary (format : Format) (operation : Datum → Datum → Nat) (a b : Nat) : Nat :=
  match format.decode a, format.decode b with
  | .nan negative fraction, _ => format.quiet negative fraction
  | _, .nan negative fraction => format.quiet negative fraction
  | x, y => operation x y

/-- The signed mantissa of a finite number, scaled to a smaller exponent. -/
def scaledTo (least : Int) (negative : Bool) (mantissa : Nat) (exponent : Int) : Int :=
  let magnitude : Int := (mantissa <<< (exponent - least).toNat : Nat)
  if negative then -magnitude else magnitude

/-- The sum of two words. A zero sum is negative only if both operands are. -/
def add (format : Format) : Nat → Nat → Nat :=
  format.binary fun x y =>
    match x, y with
    | .infinite s, .infinite t =>
      if s = t then format.withSign s format.infinity else format.invalid
    | .infinite s, _ => format.withSign s format.infinity
    | _, .infinite t => format.withSign t format.infinity
    | .finite s m e, .finite t n f =>
      let least := min e f
      let sum := scaledTo least s m e + scaledTo least t n f
      if sum = 0 then format.withSign (s && t) 0
      else format.round (decide (sum < 0)) sum.natAbs least
    | _, _ => format.invalid

/-- The word with its sign changed. -/
def neg (format : Format) (a : Nat) : Nat :=
  if format.signUnit ≤ a then a - format.signUnit else a + format.signUnit

/-- The difference of two words. -/
def sub (format : Format) : Nat → Nat → Nat :=
  format.binary fun x y =>
    match x, y with
    | .infinite s, .infinite t =>
      if s = t then format.invalid else format.withSign s format.infinity
    | .infinite s, _ => format.withSign s format.infinity
    | _, .infinite t => format.withSign (!t) format.infinity
    | .finite s m e, .finite t n f =>
      let least := min e f
      let difference := scaledTo least s m e - scaledTo least t n f
      if difference = 0 then format.withSign (s && !t) 0
      else format.round (decide (difference < 0)) difference.natAbs least
    | _, _ => format.invalid

/-- The product of two words. -/
def mul (format : Format) : Nat → Nat → Nat :=
  format.binary fun x y =>
    let negative := x.negative != y.negative
    match x, y with
    | .infinite _, .infinite _ => format.withSign negative format.infinity
    | .infinite _, .finite _ n _ =>
      if n = 0 then format.invalid else format.withSign negative format.infinity
    | .finite _ m _, .infinite _ =>
      if m = 0 then format.invalid else format.withSign negative format.infinity
    | .finite _ m e, .finite _ n f => format.round negative (m * n) (e + f)
    | _, _ => format.invalid

/-- The quotient of two positive mantissas with enough binary digits for one rounding, the last of
which tells whether the quotient is inexact. -/
def longQuotient (format : Format) (m n : Nat) : Nat × Int :=
  let extra := format.fractionBits + 3 + bitLength n
  let dividend := m <<< extra
  let sticky := if dividend % n = 0 then 0 else 1
  (2 * (dividend / n) + sticky, -(extra : Int) - 1)

/-- The quotient of two words. -/
def div (format : Format) : Nat → Nat → Nat :=
  format.binary fun x y =>
    let negative := x.negative != y.negative
    match x, y with
    | .infinite _, .infinite _ => format.invalid
    | .infinite _, _ => format.withSign negative format.infinity
    | _, .infinite _ => format.withSign negative 0
    | .finite _ m e, .finite _ n f =>
      if n = 0 then
        if m = 0 then format.invalid else format.withSign negative format.infinity
      else
        let (quotient, shift) := format.longQuotient m n
        format.round negative quotient (e - f + shift)
    | _, _ => format.invalid

/-- The remainder of the division with the quotient cut towards zero; it has the sign of the
dividend. -/
def rem (format : Format) (a b : Nat) : Nat :=
  format.binary (fun x y =>
    match x, y with
    | .infinite _, _ => format.invalid
    | .finite .., .infinite _ => a
    | .finite s m e, .finite _ n f =>
      if n = 0 then format.invalid
      else
        let least := min e f
        let rest := (m <<< (e - least).toNat) % (n <<< (f - least).toNat)
        format.round s rest least
    | _, _ => format.invalid) a b

/-- The order of two words; none if one is not a number. Both zeros are equal. -/
def compare? (format : Format) (a b : Nat) : Option Ordering :=
  match format.decode a, format.decode b with
  | .nan .., _ | _, .nan .. => none
  | .infinite s, .infinite t => some (if s = t then .eq else if s then .lt else .gt)
  | .infinite s, .finite .. => some (if s then .lt else .gt)
  | .finite .., .infinite t => some (if t then .gt else .lt)
  | .finite s m e, .finite t n f =>
    let least := min e f
    some (compare (scaledTo least s m e) (scaledTo least t n f))

/-- The integer next to a word towards zero, kept between two bounds; zero if the word is not a
number. -/
def truncate (format : Format) (least greatest : Int) (a : Nat) : Int :=
  match format.decode a with
  | .nan .. => 0
  | .infinite negative => if negative then least else greatest
  | .finite negative mantissa exponent =>
    let magnitude : Int :=
      if exponent ≥ 0 then (mantissa <<< exponent.toNat : Nat)
      else (mantissa >>> (-exponent).toNat : Nat)
    max least (min greatest (if negative then -magnitude else magnitude))

/-- The word nearest to an integer. -/
def ofInt (format : Format) (value : Int) : Nat :=
  format.round (decide (value < 0)) value.natAbs 0

/-- The word of another format nearest to a word of this one. The fraction of a word that is not a
number keeps its high bits. -/
def convert (source target : Format) (a : Nat) : Nat :=
  match source.decode a with
  | .nan negative fraction =>
    target.quiet negative
      (if source.fractionBits ≤ target.fractionBits then
        fraction <<< (target.fractionBits - source.fractionBits)
      else fraction >>> (source.fractionBits - target.fractionBits))
  | .infinite negative => target.withSign negative target.infinity
  | .finite negative mantissa exponent => target.round negative mantissa exponent

end Format

end JvmTrim.Ieee
