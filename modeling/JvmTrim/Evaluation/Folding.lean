import JvmTrim.Ieee.Arithmetic
import JvmTrim.Opcode
import JvmTrim.Value

/-!
# Folding constants

What an arithmetic instruction gives for known operands, by the rules of the virtual machine:
integers wrap around, shift distances count modulo the width, floating point numbers that are out of
an integer's range become its nearest bound. Division by an integer zero is left alone, since it
throws. A few results are known without the numbers: a value less itself is zero.

## Main definitions

* `foldInt`, `foldLong`, `foldFloating`: arithmetic on constants
* `Comparison.holds`: the comparisons of conditional branches
* `foldArithmetic`, `foldBitwise`, `foldShift`, `foldConversion`: the same on abstract values, none
  if the result is not known
-/

namespace JvmTrim

/-- An arithmetic operation on ints; none for a division by zero. -/
def foldInt (operator : Arithmetic) (a b : Int32) : Option Int32 :=
  match operator with
  | .add => some (a + b)
  | .sub => some (a - b)
  | .mul => some (a * b)
  | .div => if b = 0 then none else some (a / b)
  | .rem => if b = 0 then none else some (a % b)

/-- An arithmetic operation on longs; none for a division by zero. -/
def foldLong (operator : Arithmetic) (a b : Int64) : Option Int64 :=
  match operator with
  | .add => some (a + b)
  | .sub => some (a - b)
  | .mul => some (a * b)
  | .div => if b = 0 then none else some (a / b)
  | .rem => if b = 0 then none else some (a % b)

/-- An arithmetic operation on words of a floating point format. -/
def foldFloating (format : Ieee.Format) (operator : Arithmetic) (a b : Nat) : Nat :=
  match operator with
  | .add => format.add a b
  | .sub => format.sub a b
  | .mul => format.mul a b
  | .div => format.div a b
  | .rem => format.rem a b

/-- A shift of an int by a distance modulo 32. -/
def shiftInt (operator : Shift) (a distance : Int32) : Int32 :=
  match operator with
  | .left => a <<< (distance &&& 31)
  | .right => a >>> (distance &&& 31)
  | .unsignedRight => (a.toUInt32 >>> (distance &&& 31).toUInt32).toInt32

/-- A shift of a long by a distance modulo 64. -/
def shiftLong (operator : Shift) (a : Int64) (distance : Int32) : Int64 :=
  let distance := (distance &&& 63).toInt64
  match operator with
  | .left => a <<< distance
  | .right => a >>> distance
  | .unsignedRight => (a.toUInt64 >>> distance.toUInt64).toInt64

/-- A bit operation on ints. -/
def bitwiseInt (operator : Bitwise) (a b : Int32) : Int32 :=
  match operator with
  | .and => a &&& b
  | .or => a ||| b
  | .xor => a ^^^ b

/-- A bit operation on longs. -/
def bitwiseLong (operator : Bitwise) (a b : Int64) : Int64 :=
  match operator with
  | .and => a &&& b
  | .or => a ||| b
  | .xor => a ^^^ b

/-- Whether a comparison holds of two ints. -/
def Comparison.holds (comparison : Comparison) (a b : Int32) : Bool :=
  match comparison with
  | eq => a == b
  | ne => a != b
  | lt => decide (a < b)
  | ge => decide (b ≤ a)
  | gt => decide (b < a)
  | le => decide (a ≤ b)

/-- Whether a comparison holds of every value with itself. -/
def Comparison.isReflexive : Comparison → Bool
  | eq | ge | le => true
  | ne | lt | gt => false

/-- The int that a comparison of longs gives: its sign tells the order. -/
def compareLongs (a b : Int64) : Int32 := if a < b then -1 else if b < a then 1 else 0

/-- The int that a floating point comparison gives. -/
def compareFloatings (format : Ieee.Format) (unordered : Int32) (a b : Nat) : Int32 :=
  match format.compare? a b with
  | none => unordered
  | some .lt => -1
  | some .eq => 0
  | some .gt => 1

/-- The result of an arithmetic operation on two values of its kind. -/
def foldArithmetic (operator : Arithmetic) (kind : Numeric) (a b : Value) :
    Except Failure (Option Value) :=
  match kind with
  | .int => do
    match ← a.expectInt, ← b.expectInt with
    | some x, some y => return (foldInt operator x y).map .ofInt
    | _, _ => return if operator = .sub && a.sameIdentity b then some (.ofInt 0) else none
  | .long => do
    match ← a.expectLong, ← b.expectLong with
    | some x, some y => return (foldLong operator x y).map .ofLong
    | _, _ => return if operator = .sub && a.sameIdentity b then some (.ofLong 0) else none
  | .float => do
    match ← a.expectFloat, ← b.expectFloat with
    | some x, some y =>
      return some (.ofFloat (foldFloating Ieee.binary32 operator x.toNat y.toNat).toUInt32)
    | _, _ => return none
  | .double => do
    match ← a.expectDouble, ← b.expectDouble with
    | some x, some y =>
      return some (.ofDouble (foldFloating Ieee.binary64 operator x.toNat y.toNat).toUInt64)
    | _, _ => return none

/-- The result of a bit operation on two values of its kind. -/
def foldBitwise (operator : Bitwise) (kind : Integral) (a b : Value) :
    Except Failure (Option Value) :=
  match kind with
  | .int => do
    match ← a.expectInt, ← b.expectInt with
    | some x, some y => return some (.ofInt (bitwiseInt operator x y))
    | _, _ => return if operator = .xor && a.sameIdentity b then some (.ofInt 0) else none
  | .long => do
    match ← a.expectLong, ← b.expectLong with
    | some x, some y => return some (.ofLong (bitwiseLong operator x y))
    | _, _ => return if operator = .xor && a.sameIdentity b then some (.ofLong 0) else none

/-- The result of shifting a value of a kind by an int. -/
def foldShift (operator : Shift) (kind : Integral) (a distance : Value) :
    Except Failure (Option Value) :=
  match kind with
  | .int => do
    match ← a.expectInt, ← distance.expectInt with
    | some x, some d => return some (.ofInt (shiftInt operator x d))
    | _, _ => return none
  | .long => do
    match ← a.expectLong, ← distance.expectInt with
    | some x, some d => return some (.ofLong (shiftLong operator x d))
    | _, _ => return none

/-- The result of changing the sign of a value of a kind. -/
def foldNegation (kind : Numeric) (a : Value) : Except Failure (Option Value) :=
  match kind with
  | .int => return (← a.expectInt).map fun x => .ofInt (-x)
  | .long => return (← a.expectLong).map fun x => .ofLong (-x)
  | .float =>
    return (← a.expectFloat).map fun x => .ofFloat (Ieee.binary32.neg x.toNat).toUInt32
  | .double =>
    return (← a.expectDouble).map fun x => .ofDouble (Ieee.binary64.neg x.toNat).toUInt64

/-- The constant of a kind with the value of an integer. -/
def Value.ofInteger (kind : Numeric) (value : Int) : Value :=
  match kind with
  | .int => .ofInt (Int32.ofInt value)
  | .long => .ofLong (Int64.ofInt value)
  | .float => .ofFloat (Ieee.binary32.ofInt value).toUInt32
  | .double => .ofDouble (Ieee.binary64.ofInt value).toUInt64

/-- The constant of a kind nearest to a word of a floating point format. -/
def Value.ofFloating (format : Ieee.Format) (kind : Numeric) (word : Nat) : Value :=
  match kind with
  | .int => .ofInt (Int32.ofInt (format.truncate Int32.minValue.toInt Int32.maxValue.toInt word))
  | .long => .ofLong (Int64.ofInt (format.truncate Int64.minValue.toInt Int64.maxValue.toInt word))
  | .float => .ofFloat (format.convert Ieee.binary32 word).toUInt32
  | .double => .ofDouble (format.convert Ieee.binary64 word).toUInt64

/-- The result of converting a value of one kind to another. -/
def foldConversion (source target : Numeric) (a : Value) : Except Failure (Option Value) :=
  match source with
  | .int => return (← a.expectInt).map fun x => Value.ofInteger target x.toInt
  | .long => return (← a.expectLong).map fun x => Value.ofInteger target x.toInt
  | .float => return (← a.expectFloat).map fun x => Value.ofFloating Ieee.binary32 target x.toNat
  | .double => return (← a.expectDouble).map fun x => Value.ofFloating Ieee.binary64 target x.toNat

/-- An int cut down to a narrower type and widened again. -/
def narrowInt (target : Narrow) (a : Int32) : Int32 :=
  match target with
  | .byte => a.toInt8.toInt32
  | .char => (a.toUInt32.toUInt16.toUInt32).toInt32
  | .short => a.toInt16.toInt32

/-- The result of comparing two longs. -/
def foldCompareLong (a b : Value) : Except Failure (Option Value) := do
  match ← a.expectLong, ← b.expectLong with
  | some x, some y => return some (.ofInt (compareLongs x y))
  | _, _ => return if a.sameIdentity b then some (.ofInt 0) else none

/-- The result of comparing two floating point values. -/
def foldCompareFloating (kind : Floating) (unordered : Int32) (a b : Value) :
    Except Failure (Option Value) :=
  match kind with
  | .single => do
    match ← a.expectFloat, ← b.expectFloat with
    | some x, some y =>
      return some (.ofInt (compareFloatings Ieee.binary32 unordered x.toNat y.toNat))
    | _, _ => return none
  | .double => do
    match ← a.expectDouble, ← b.expectDouble with
    | some x, some y =>
      return some (.ofInt (compareFloatings Ieee.binary64 unordered x.toNat y.toNat))
    | _, _ => return none

end JvmTrim
