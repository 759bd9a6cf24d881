import JvmTrim.Instruction.Listing

/-!
# Method bodies

A method body is its code with the tables that refer into it by offset: exception handlers, line
numbers and the live ranges of named variables.
-/

namespace JvmTrim

/-- An entry of the exception table. -/
structure Handler where
  /-- First protected offset. -/
  start : Nat
  /-- End of the protected range, itself not protected. -/
  stop : Nat
  /-- Offset of the handler's code. -/
  target : Nat
  /-- Constant pool index of the caught class; 0 catches everything. -/
  catchType : UInt16
  deriving DecidableEq, Repr, Inhabited

/-- Whether an offset lies in the protected range. -/
def Handler.covers (handler : Handler) (offset : Nat) : Bool :=
  handler.start ≤ offset && offset < handler.stop

/-- An entry of the line number table. -/
structure LineEntry where
  /-- First offset of the line. -/
  start : Nat
  /-- Line in the source text. -/
  line : UInt16
  deriving DecidableEq, Repr, Inhabited

/-- An entry of the local variable table. -/
structure VariableEntry where
  /-- First offset at which the variable is live. -/
  start : Nat
  /-- Length of its live range in bytes. -/
  length : Nat
  /-- Constant pool index of its name. -/
  name : UInt16
  /-- Constant pool index of its descriptor. -/
  descriptor : UInt16
  /-- Its slot. -/
  slot : UInt16
  deriving DecidableEq, Repr, Inhabited

/-- A method body. -/
structure Code where
  /-- Largest height of the operand stack in words. -/
  maxStack : UInt16
  /-- Number of local variable slots. -/
  maxLocals : UInt16
  /-- The instructions, encoded. -/
  bytes : List UInt8
  /-- Exception handlers, the first one that covers an offset taking precedence. -/
  handlers : List Handler
  /-- Line numbers. -/
  lines : List LineEntry
  /-- Live ranges of named variables. -/
  localRanges : List VariableEntry
  deriving DecidableEq, Repr, Inhabited

/-- A body without instructions. -/
def Code.empty : Code := ⟨0, 0, [], [], [], []⟩

/-- Length of the code in bytes. -/
def Code.size (code : Code) : Nat := code.bytes.length

end JvmTrim
