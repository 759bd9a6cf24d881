import JvmTrim.Failure
import JvmTrim.Ieee.Decimal
import JvmTrim.Kind
import JvmTrim.Origin

/-!
# Abstract values

What is known of a stack word or a variable: nothing, which run-time value it is the same as, or the
very constant. A `Symbol` names a run-time value; two values of one kind with the same symbol are
the same value, whatever number it is. Two-word values have an unusable companion word.

Joining forgets what two values do not agree on: different constants or symbols join to an unknown
value, different kinds to an unusable one, and return addresses to the union of both sets.

## Main definitions

* `Symbol`, `Abstract`, `Reference`, `Value`
* `Value.join`: what holds of both values
* `Value.sameIdentity`: whether two values are certainly the same run-time value
-/

namespace JvmTrim

/-- A name for a run-time value. -/
inductive Symbol where
  /-- The value of a parameter slot at method entry. -/
  | parameter (slot : UInt16)
  /-- What the latest execution of the instruction at an offset produced. -/
  | instruction (offset : Nat)
  /-- The exception that the handler at an offset caught. -/
  | caught (offset : Nat)
  deriving DecidableEq, Repr, Inhabited

/-- A symbol as text. -/
def Symbol.text : Symbol → String
  | parameter slot => s!"p{slot}"
  | instruction offset => s!"@{offset}"
  | caught offset => s!"catch@{offset}"

/-- How much is known of a value. -/
inductive Precision where
  | unknown
  | specific
  | particular
  deriving DecidableEq, Repr

/-- What is known of a number. -/
inductive Abstract (α : Type) where
  | unknown
  /-- The run-time value with this name. -/
  | specific (symbol : Symbol)
  /-- This constant. -/
  | particular (value : α)
  deriving DecidableEq, Repr, Inhabited

namespace Abstract

variable {α : Type}

/-- The constant, if it is known. -/
def particular? : Abstract α → Option α
  | particular value => some value
  | unknown | specific _ => none

/-- The symbol, if there is one. -/
def symbol? : Abstract α → Option Symbol
  | specific symbol => some symbol
  | unknown | particular _ => none

/-- How much is known. -/
def precision : Abstract α → Precision
  | unknown => .unknown
  | specific _ => .specific
  | particular _ => .particular

/-- What holds of both. -/
def join [DecidableEq α] (a b : Abstract α) : Abstract α := if a = b then a else unknown

/-- What is known, as text after a letter for the kind. -/
def text (letter : String) (show' : α → String) : Abstract α → String
  | unknown => letter ++ "?"
  | specific symbol => s!"{letter}:{symbol.text}"
  | particular value => letter ++ "(" ++ show' value ++ ")"

end Abstract

/-- What is known of a reference. -/
inductive Reference where
  | null
  | unknown (notNull : Bool)
  | specific (symbol : Symbol) (notNull : Bool)
  deriving DecidableEq, Repr, Inhabited

namespace Reference

/-- Whether the reference is known not to be null. -/
def isNotNull : Reference → Bool
  | null => false
  | unknown notNull | specific _ notNull => notNull

/-- What holds of both. -/
def join (a b : Reference) : Reference :=
  if a = b then a
  else
    match a, b with
    | specific s x, specific t y =>
      if s = t then specific s (x && y) else unknown (x && y)
    | a, b => unknown (a.isNotNull && b.isNotNull)

end Reference

/-- What is known of a stack word or a variable. -/
inductive Value where
  /-- Unusable: the companion of a two-word value, a variable never written, or the join of values
  of different kinds. -/
  | top
  | int (value : Abstract Int32)
  | long (value : Abstract Int64)
  /-- A single precision number; a constant is kept as its bits. -/
  | float (value : Abstract UInt32)
  /-- A double precision number; a constant is kept as its bits. -/
  | double (value : Abstract UInt64)
  | reference (value : Reference)
  /-- The offsets at which a subroutine may continue its caller. -/
  | returnAddress (offsets : OffsetSet)
  deriving DecidableEq, Repr, Inhabited

namespace Value

/-- An unknown value of a kind. -/
def unknown : Kind → Value
  | .int => int .unknown
  | .long => long .unknown
  | .float => float .unknown
  | .double => double .unknown
  | .reference => reference (.unknown false)

/-- The value of a kind with a name; only references use the mark. -/
def specific (kind : Kind) (symbol : Symbol) (notNull : Bool) : Value :=
  match kind with
  | .int => int (.specific symbol)
  | .long => long (.specific symbol)
  | .float => float (.specific symbol)
  | .double => double (.specific symbol)
  | .reference => reference (.specific symbol notNull)

/-- A constant int. -/
def ofInt (value : Int32) : Value := int (.particular value)

/-- A constant long. -/
def ofLong (value : Int64) : Value := long (.particular value)

/-- A constant float. -/
def ofFloat (bits : UInt32) : Value := float (.particular bits)

/-- A constant double. -/
def ofDouble (bits : UInt64) : Value := double (.particular bits)

/-- The null reference. -/
def null : Value := reference .null

/-- The kind; none if unusable or a return address. -/
def kind? : Value → Option Kind
  | int _ => some .int
  | long _ => some .long
  | float _ => some .float
  | double _ => some .double
  | reference _ => some .reference
  | top | returnAddress _ => none

/-- Whether the value takes two words. -/
def isWide : Value → Bool
  | long _ | double _ => true
  | _ => false

/-- How much is known. -/
def precision : Value → Precision
  | top => .unknown
  | int a => a.precision
  | long a => a.precision
  | float a => a.precision
  | double a => a.precision
  | reference .null | returnAddress _ => .particular
  | reference (.specific ..) => .specific
  | reference (.unknown _) => .unknown

/-- Whether the value is a known constant. -/
def isParticular (value : Value) : Bool := value.precision == .particular

/-- Whether the value is a known constant or has a symbol. -/
def isSpecific (value : Value) : Bool := value.precision != .unknown

/-- The symbol, if there is one. -/
def symbol? : Value → Option Symbol
  | int a => a.symbol?
  | long a => a.symbol?
  | float a => a.symbol?
  | double a => a.symbol?
  | reference (.specific symbol _) => some symbol
  | _ => none

/-- Whether two values have the same symbol and kind. Constants are not compared. -/
def sameIdentity (a b : Value) : Bool :=
  a.kind? == b.kind? && a.symbol?.isSome && a.symbol? == b.symbol?

/-- The int, if the value is a constant int. -/
def int? : Value → Option Int32
  | int a => a.particular?
  | _ => none

/-- The long, if the value is a constant long. -/
def long? : Value → Option Int64
  | long a => a.particular?
  | _ => none

/-- The bits, if the value is a constant float. -/
def float? : Value → Option UInt32
  | float a => a.particular?
  | _ => none

/-- The bits, if the value is a constant double. -/
def double? : Value → Option UInt64
  | double a => a.particular?
  | _ => none

/-- The constant of an int value; asking any other value is a fault. -/
def expectInt : Value → Except Failure (Option Int32)
  | int a => .ok a.particular?
  | _ => .error (.fault .wrongKind)

/-- The constant of a long value; asking any other value is a fault. -/
def expectLong : Value → Except Failure (Option Int64)
  | long a => .ok a.particular?
  | _ => .error (.fault .wrongKind)

/-- The bits of a float value; asking any other value is a fault. -/
def expectFloat : Value → Except Failure (Option UInt32)
  | float a => .ok a.particular?
  | _ => .error (.fault .wrongKind)

/-- The bits of a double value; asking any other value is a fault. -/
def expectDouble : Value → Except Failure (Option UInt64)
  | double a => .ok a.particular?
  | _ => .error (.fault .wrongKind)

/-- Whether the value is the null reference. -/
def isNull : Value → Bool
  | reference .null => true
  | _ => false

/-- Whether the value is a reference known not to be null. -/
def isNotNull : Value → Bool
  | reference r => r.isNotNull
  | _ => false

/-- The return offsets of a return address. -/
def returnAddresses? : Value → Option OffsetSet
  | returnAddress offsets => some offsets
  | _ => none

/-- Forgets a symbol; the kind and what is known of null stay. -/
def withoutSymbol (value : Value) (symbol : Symbol) : Value :=
  if value.symbol? = some symbol then
    match value with
    | reference r => reference (.unknown r.isNotNull)
    | int _ => unknown .int
    | long _ => unknown .long
    | float _ => unknown .float
    | double _ => unknown .double
    | top | returnAddress _ => top
  else value

/-- What holds of both values. -/
def join : Value → Value → Value
  | int a, int b => int (a.join b)
  | long a, long b => long (a.join b)
  | float a, float b => float (a.join b)
  | double a, double b => double (a.join b)
  | reference a, reference b => reference (a.join b)
  | returnAddress a, returnAddress b => returnAddress (a.union b)
  | _, _ => top

/-- A value as text. -/
def text : Value → String
  | top => "T"
  | int a => a.text "i" fun v => toString v.toInt
  | long a => a.text "l" fun v => toString v.toInt
  | float a => a.text "f" fun bits => Ieee.binary32.text bits.toNat
  | double a => a.text "d" fun bits => Ieee.binary64.text bits.toNat
  | reference .null => "null"
  | reference (.unknown notNull) => if notNull then "a?!" else "a?"
  | reference (.specific symbol notNull) => s!"a:{symbol.text}" ++ (if notNull then "!" else "")
  | returnAddress offsets => "ret" ++ OffsetSet.text offsets

end Value

end JvmTrim
