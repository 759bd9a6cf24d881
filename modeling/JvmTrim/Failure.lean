/-!
# Failures

Everything that can go wrong while a class is read, analysed or edited, as causes rather than
as text. `Failure` is the one error type of the library; `Failure.message` is the one place where
a cause is put into words.

A `Fault` is a broken contract between two parts of the library (an index outside an array, a
number asked of a value of another kind). It is kept apart from the failures that a faulty class
can cause, so that "no fault is reachable" is a statement one can make.

## Main definitions

* `Defect`: what can be wrong with a method body
* `Failure`: every way in which an operation can fail
* `Failure.message`: the wording of a failure
-/

namespace JvmTrim

/-- Lower-case hexadecimal digits of a byte, at least two of them, marked `0x`. -/
def hexByte (byte : UInt8) : String :=
  let digits := Nat.toDigits 16 byte.toNat
  "0x" ++ String.ofList (if digits.length < 2 then '0' :: digits else digits)

/-- A number with its sign written out, also when it is not negative. -/
def signed (value : Int) : String :=
  if value < 0 then toString value else "+" ++ toString value

/-- What stood at a constant pool index instead of the expected entry. -/
inductive PoolReason where
  | unusable
  | notUtf8
  | notClass
  | notNameAndType
  | notMember
  | notCallSite
  deriving DecidableEq, Repr

/-- The wording of a `PoolReason`. -/
def PoolReason.message : PoolReason → String
  | .unusable => "no usable entry"
  | .notUtf8 => "expected Utf8"
  | .notClass => "expected Class"
  | .notNameAndType => "expected NameAndType"
  | .notMember => "expected a member reference"
  | .notCallSite => "expected InvokeDynamic"

/-- What can be wrong with a method body or with the state computed for it. Offsets are byte
offsets into the body; values and instructions appear as they are written. -/
inductive Defect where
  | seekBeyondEnd (position size : Nat)
  | truncated (need offset left : Nat)
  | invertedTable (offset : Nat) (high low : Int32)
  | truncatedTable (offset : Nat)
  | negativeLookup (offset : Nat)
  | truncatedLookup (offset : Nat)
  | wideTarget (offset : Nat) (opcode : UInt8)
  | missingConstant (mnemonic : String)
  | missingDimensions
  | missingClass
  | invalidFlow (offset : Nat)
  | inconsistentHeight (offset existing height : Nat)
  | heightUnderflow (offset : Nat) (mnemonic : String) (pops height : Nat)
  | stackTooHigh (size : Nat)
  | bodyLength (prepared actual : Nat)
  | offBoundary (offset : Nat)
  | needsConstant (value : Int32)
  | localOutOfRange (index : UInt16) (slots : Nat)
  | storeOutOfRange (index : UInt16) (slots : Nat)
  | emptyStack
  | unexpectedKind (expected found : String)
  | unequalHeights (left right : Nat)
  | mergeHeights (offset left right : Nat)
  | splitsValue (mnemonic : String) (offset : Nat)
  | missingImmediate (mnemonic : String)
  | missingLoaded (offset : Nat)
  | notLoadable (constant : String) (offset : Nat)
  | missingIncrement (offset : Nat)
  | missingTarget (offset : Nat)
  | missingSubroutine (offset : Nat)
  | missingSlot (offset : Nat)
  | notReturnAddress (offset : Nat) (slot : UInt16)
  | noInstruction (offset : Nat)
  | noState (offset : Nat)
  | noStackBefore (offset : Nat)
  | noStackAt (offset : Nat)
  | underflowAt (offset : Nat)
  | notShuffle (mnemonic : String)
  | noWordPushed (instruction : String) (offset position : Nat)
  | nothingPushed (offset : Nat)
  | notPushable (value : String)
  | noPlaceholder (value : String) (offset : Nat)
  | unusedReturnAddress (offset : Nat)
  | aliasWithoutLoad (instruction : String) (offset : Nat)
  deriving DecidableEq, Repr

/-- The wording of a `Defect`. -/
def Defect.message : Defect → String
  | seekBeyondEnd position size => s!"Seek to {position} beyond end of code ({size})"
  | truncated need offset left =>
    s!"Truncated bytecode: need {need} byte(s) at offset {offset}, {left} left"
  | invertedTable offset high low =>
    s!"tableswitch at {offset} has high {high.toInt} < low {low.toInt}"
  | truncatedTable offset => s!"tableswitch at {offset} is truncated"
  | negativeLookup offset => s!"lookupswitch at {offset} has negative size"
  | truncatedLookup offset => s!"lookupswitch at {offset} is truncated"
  | wideTarget offset opcode =>
    s!"wide at {offset} modifies {hexByte opcode}, which takes no local variable"
  | missingConstant mnemonic => s!"{mnemonic} without constant operand"
  | missingDimensions => "multianewarray without dimensions"
  | missingClass => "new without class operand"
  | invalidFlow offset => s!"Control flow reaches invalid offset {offset}"
  | inconsistentHeight offset existing height =>
    s!"Inconsistent stack height at {offset}: {existing} vs {height}"
  | heightUnderflow offset mnemonic pops height =>
    s!"Stack underflow at {offset}: {mnemonic} pops {pops} with height {height}"
  | stackTooHigh size => s!"Stack size {size} exceeds u16"
  | bodyLength prepared actual =>
    s!"Editor prepared for {prepared} bytes applied to {actual} bytes"
  | offBoundary offset => s!"Edit at {offset} is not on an instruction boundary"
  | needsConstant value => s!"{value.toInt} needs an ldc constant"
  | localOutOfRange index slots => s!"Local variable {index} out of range ({slots} slots)"
  | storeOutOfRange index slots =>
    s!"Store to local variable {index} out of range ({slots} slots)"
  | emptyStack => "Operand stack underflow"
  | unexpectedKind expected found =>
    s!"Expected {expected} on the operand stack, found {found}"
  | unequalHeights left right => s!"Stack heights differ at merge point: {left} vs {right}"
  | mergeHeights offset left right => s!"Stack heights differ at {offset}: {left} vs {right}"
  | splitsValue mnemonic offset =>
    s!"{mnemonic} at {offset} splits a category-2 value or underflows"
  | missingImmediate mnemonic => s!"{mnemonic} without immediate"
  | missingLoaded offset => s!"ldc without constant at {offset}"
  | notLoadable constant offset => s!"ldc of {constant} constant at {offset}"
  | missingIncrement offset => s!"iinc without operand at {offset}"
  | missingTarget offset => s!"branch without target at {offset}"
  | missingSubroutine offset => s!"jsr without target at {offset}"
  | missingSlot offset => s!"ret without slot at {offset}"
  | notReturnAddress offset slot =>
    s!"ret at {offset} through slot {slot} without return address"
  | noInstruction offset => s!"No instruction starts at {offset}"
  | noState offset => s!"No state recorded before {offset}"
  | noStackBefore offset => s!"No stack recorded before {offset}"
  | noStackAt offset => s!"No stack recorded at {offset}"
  | underflowAt offset => s!"Operand stack underflow at {offset}"
  | notShuffle mnemonic => s!"{mnemonic} is not a stack manipulation"
  | noWordPushed instruction offset position =>
    s!"{instruction} at {offset} pushes no word at {position}"
  | nothingPushed offset => s!"Nothing pushed at {offset}"
  | notPushable value => s!"No constant push for {value}"
  | noPlaceholder value offset => s!"No placeholder for {value} pushed at {offset}"
  | unusedReturnAddress offset =>
    s!"Return address of jsr at {offset} is unused but the subroutine returns"
  | aliasWithoutLoad instruction offset => s!"Aliased {instruction} at {offset} is not a load"

/-- A contract between two parts of the library that was not kept. -/
inductive Fault where
  /-- An index at or beyond the end of what it indexes. -/
  | outOfRange
  /-- Two sets of different capacity were combined. -/
  | capacityMismatch
  /-- A number was asked of a value of another kind. -/
  | wrongKind
  /-- A bounded loop used up its bound. -/
  | exhausted
  deriving DecidableEq, Repr

/-- Every way in which an operation of the library can fail. -/
inductive Failure where
  | malformed (defect : Defect)
  | invalidOpcode (opcode : UInt8)
  | invalidBranch (origin : Nat) (target : Int)
  | poolIndex (index : UInt16) (reason : PoolReason)
  | poolOverflow
  | invalidDescriptor (descriptor : String)
  | undefinedLabel (label : String)
  | duplicateLabel (label : String)
  | branchOverflow (offset : Nat) (displacement : Int)
  | unsupportedShuffle (offset : Nat) (mnemonic : String)
  | visitLimit (offset limit : Nat)
  /-- A failure noted while a body was put together, reported when the body is asked for. -/
  | recorded (failure : Failure)
  /-- A fault inside one method, named by its class, name and descriptor. -/
  | abandoned (method : String) (fault : Fault)
  | fault (fault : Fault)
  deriving DecidableEq, Repr

/-- The wording of a failure. A recorded failure keeps its wording, marked if it is a defect. -/
def Failure.message : Failure → String
  | malformed defect => defect.message
  | invalidOpcode opcode => s!"Invalid opcode {hexByte opcode}"
  | invalidBranch origin target =>
    s!"Branch from offset {origin} targets invalid offset {target}"
  | poolIndex index reason => s!"Invalid constant pool index {index}: {reason.message}"
  | poolOverflow => "constant pool overflow"
  | invalidDescriptor descriptor => s!"Invalid descriptor '{descriptor}'"
  | undefinedLabel label => s!"Undefined label '{label}'"
  | duplicateLabel label => s!"Duplicate label '{label}'"
  | branchOverflow offset displacement =>
    s!"Branch at offset {offset} needs displacement {displacement}, which does not fit"
  | unsupportedShuffle offset mnemonic =>
    s!"Unsupported stack move for {mnemonic} at offset {offset}"
  | visitLimit offset limit => s!"Evaluation exceeded {limit} visits at offset {offset}"
  | recorded (malformed defect) => s!"Malformed: {defect.message}"
  | recorded failure => failure.message
  | abandoned method _ => method
  | fault _ => ""

/-- Fails because of a defect in the method body. -/
def defect {α : Type} (cause : Defect) : Except Failure α :=
  .error (.malformed cause)

/-- The value of an option, or a failure if there is none. -/
def orFail {α : Type} (failure : Failure) : Option α → Except Failure α
  | some value => .ok value
  | none => .error failure

/-- The value of an option, or a defect if there is none. -/
def orDefect {α : Type} (cause : Defect) (value : Option α) : Except Failure α :=
  orFail (.malformed cause) value

@[simp] theorem orFail_some {α : Type} (failure : Failure) (value : α) :
    orFail failure (some value) = .ok value := rfl

@[simp] theorem orFail_none {α : Type} (failure : Failure) :
    orFail failure (none : Option α) = .error failure := rfl

end JvmTrim
