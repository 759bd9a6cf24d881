/-!
# Kinds of values

The computational kinds that operand stack words and local variables have, and the narrower
families of them that single groups of instructions work on.

## Main definitions

* `Kind`: the five computational kinds, with their size in words
* `Numeric`, `Integral`, `Floating`: the kinds that arithmetic, bit operations and floating
  comparisons exist for
* `Element`: the kinds of array elements, each read and written as a value of some `Kind`
-/

namespace JvmTrim

/-- The computational kind of a value. Booleans, bytes, chars and shorts are ints. -/
inductive Kind where
  | int
  | long
  | float
  | double
  | reference
  deriving DecidableEq, Repr, Inhabited, Hashable

/-- Number of stack words or variable slots a value of the kind occupies. -/
def Kind.size : Kind → Nat
  | long | double => 2
  | int | float | reference => 1

/-- The name of a kind in messages. -/
def Kind.name : Kind → String
  | int => "Int"
  | long => "Long"
  | float => "Float"
  | double => "Double"
  | reference => "Reference"

theorem Kind.size_pos (kind : Kind) : 0 < kind.size := by cases kind <;> decide

theorem Kind.size_le_two (kind : Kind) : kind.size ≤ 2 := by cases kind <;> decide

/-- The kinds that have arithmetic. -/
inductive Numeric where
  | int
  | long
  | float
  | double
  deriving DecidableEq, Repr, Inhabited

/-- The kind of a numeric value. -/
def Numeric.kind : Numeric → Kind
  | int => .int
  | long => .long
  | float => .float
  | double => .double

/-- The kinds that have bit operations and shifts. -/
inductive Integral where
  | int
  | long
  deriving DecidableEq, Repr, Inhabited

/-- The kind of an integral value. -/
def Integral.kind : Integral → Kind
  | int => .int
  | long => .long

/-- The floating point kinds. -/
inductive Floating where
  | single
  | double
  deriving DecidableEq, Repr, Inhabited

/-- The kind of a floating point value. -/
def Floating.kind : Floating → Kind
  | single => .float
  | double => .double

/-- The kinds of array elements. -/
inductive Element where
  | int
  | long
  | float
  | double
  | reference
  | byte
  | char
  | short
  deriving DecidableEq, Repr, Inhabited

/-- The kind an array element has on the operand stack. -/
def Element.kind : Element → Kind
  | long => .long
  | float => .float
  | double => .double
  | reference => .reference
  | int | byte | char | short => .int

/-- The integer types narrower than int. -/
inductive Narrow where
  | byte
  | char
  | short
  deriving DecidableEq, Repr, Inhabited

end JvmTrim
