import JvmTrim.Kind

/-!
# Opcodes

The instruction set as one table: for each opcode byte its mnemonic, what it does, and how its
operand is laid out. Every later question about an opcode (its control flow, its effect on the
operand stack, its meaning for abstract values) is a match on its `Operation`, never on bytes, so
that opcodes which differ only in encoding share one case.

## Main definitions

* `Shuffle`: the stack manipulations `pop`, `dup`, `swap` and their relatives
* `Operation`: what an instruction does
* `Layout`: what follows the opcode byte
* `Opcode.table`: the instruction set
-/

namespace JvmTrim

/-- The instructions that only move stack words. -/
inductive Shuffle where
  | pop
  | pop2
  | dup
  | dupX1
  | dupX2
  | dup2
  | dup2X1
  | dup2X2
  | swap
  deriving DecidableEq, Repr, Inhabited

/-- The arithmetic operations on two operands of one kind. -/
inductive Arithmetic where
  | add
  | sub
  | mul
  | div
  | rem
  deriving DecidableEq, Repr, Inhabited

/-- The bit operations on two operands of one kind. -/
inductive Bitwise where
  | and
  | or
  | xor
  deriving DecidableEq, Repr, Inhabited

/-- The shift operations. -/
inductive Shift where
  | left
  | right
  | unsignedRight
  deriving DecidableEq, Repr, Inhabited

/-- The comparisons a conditional branch makes. -/
inductive Comparison where
  | eq
  | ne
  | lt
  | ge
  | gt
  | le
  deriving DecidableEq, Repr, Inhabited

/-- The ways to invoke a method. -/
inductive Invocation where
  | virtual
  | special
  | static
  | viaInterface
  | dynamic
  deriving DecidableEq, Repr, Inhabited

/-- Whether the invocation pops a receiver below the arguments. -/
def Invocation.hasReceiver : Invocation → Bool
  | static | dynamic => false
  | virtual | special | viaInterface => true

/-- What an instruction does, with everything that its opcode alone decides. -/
inductive Operation where
  | nop
  | pushNull
  | pushInt (value : Int32)
  | pushLong (value : Int64)
  | pushFloat (bits : UInt32)
  | pushDouble (bits : UInt64)
  /-- Pushes the int in the operand. -/
  | pushImmediate
  /-- Pushes a constant pool entry, nominally of one word, or of two if `wide`. -/
  | loadConstant (wide : Bool)
  /-- Pushes a local variable, in the slot given here or else in the operand. -/
  | load (kind : Kind) (slot : Option UInt16)
  /-- Pops into a local variable, in the slot given here or else in the operand. -/
  | store (kind : Kind) (slot : Option UInt16)
  | arrayLoad (element : Element)
  | arrayStore (element : Element)
  | shuffle (move : Shuffle)
  | arithmetic (operator : Arithmetic) (kind : Numeric)
  | negate (kind : Numeric)
  | shift (operator : Shift) (kind : Integral)
  | bitwise (operator : Bitwise) (kind : Integral)
  /-- Adds a constant to an int variable. -/
  | increment
  | convert (source target : Numeric)
  | narrow (target : Narrow)
  | compareLong
  /-- Compares two floating point numbers, answering `unordered` if one is not a number. -/
  | compareFloating (kind : Floating) (unordered : Int32)
  | branchZero (comparison : Comparison)
  | branchInt (comparison : Comparison)
  | branchReference (equal : Bool)
  | branchNull (null : Bool)
  | jump
  | subroutine
  | ret
  | switch
  | returnValue (kind : Kind)
  | returnVoid
  | getField (static : Bool)
  | putField (static : Bool)
  | invoke (mode : Invocation)
  | newObject
  | newArray
  | newMultiArray
  | arrayLength
  /-- Throws the popped exception. -/
  | raise
  | checkCast
  | instanceOf
  | monitor
  /-- No instruction of its own: the `wide` marker and the bytes without a meaning. -/
  | undefined
  deriving DecidableEq, Repr, Inhabited

/-- What follows the opcode byte in the code. -/
inductive Layout where
  | bare
  | byte
  | short
  /-- A constant pool index in one byte. -/
  | shortConstant
  | constant
  | slot
  | increment
  | branch
  | wideBranch
  | table
  | lookup
  | interfaceCall
  | dynamicCall
  | arrayType
  | multiArray
  /-- Another opcode with a two-byte slot. -/
  | wide
  deriving DecidableEq, Repr, Inhabited

/-- One row of the instruction set. -/
structure OpcodeInfo where
  /-- The name in assembly text. -/
  mnemonic : String
  /-- What the instruction does. -/
  operation : Operation
  /-- What follows the opcode byte. -/
  layout : Layout

/-- An opcode byte. -/
abbrev Opcode := UInt8

namespace Opcode

/-- The instruction set, by opcode byte. -/
def table : Array OpcodeInfo := #[
    ⟨"nop", .nop, .bare⟩,
    ⟨"aconst_null", .pushNull, .bare⟩,
    ⟨"iconst_m1", .pushInt (-1), .bare⟩,
    ⟨"iconst_0", .pushInt 0, .bare⟩,
    ⟨"iconst_1", .pushInt 1, .bare⟩,
    ⟨"iconst_2", .pushInt 2, .bare⟩,
    ⟨"iconst_3", .pushInt 3, .bare⟩,
    ⟨"iconst_4", .pushInt 4, .bare⟩,
    ⟨"iconst_5", .pushInt 5, .bare⟩,
    ⟨"lconst_0", .pushLong 0, .bare⟩,
    ⟨"lconst_1", .pushLong 1, .bare⟩,
    ⟨"fconst_0", .pushFloat 0, .bare⟩,
    ⟨"fconst_1", .pushFloat 0x3f800000, .bare⟩,
    ⟨"fconst_2", .pushFloat 0x40000000, .bare⟩,
    ⟨"dconst_0", .pushDouble 0, .bare⟩,
    ⟨"dconst_1", .pushDouble 0x3ff0000000000000, .bare⟩,
    ⟨"bipush", .pushImmediate, .byte⟩,
    ⟨"sipush", .pushImmediate, .short⟩,
    ⟨"ldc", .loadConstant false, .shortConstant⟩,
    ⟨"ldc_w", .loadConstant false, .constant⟩,
    ⟨"ldc2_w", .loadConstant true, .constant⟩,
    ⟨"iload", .load .int none, .slot⟩,
    ⟨"lload", .load .long none, .slot⟩,
    ⟨"fload", .load .float none, .slot⟩,
    ⟨"dload", .load .double none, .slot⟩,
    ⟨"aload", .load .reference none, .slot⟩,
    ⟨"iload_0", .load .int (some 0), .bare⟩,
    ⟨"iload_1", .load .int (some 1), .bare⟩,
    ⟨"iload_2", .load .int (some 2), .bare⟩,
    ⟨"iload_3", .load .int (some 3), .bare⟩,
    ⟨"lload_0", .load .long (some 0), .bare⟩,
    ⟨"lload_1", .load .long (some 1), .bare⟩,
    ⟨"lload_2", .load .long (some 2), .bare⟩,
    ⟨"lload_3", .load .long (some 3), .bare⟩,
    ⟨"fload_0", .load .float (some 0), .bare⟩,
    ⟨"fload_1", .load .float (some 1), .bare⟩,
    ⟨"fload_2", .load .float (some 2), .bare⟩,
    ⟨"fload_3", .load .float (some 3), .bare⟩,
    ⟨"dload_0", .load .double (some 0), .bare⟩,
    ⟨"dload_1", .load .double (some 1), .bare⟩,
    ⟨"dload_2", .load .double (some 2), .bare⟩,
    ⟨"dload_3", .load .double (some 3), .bare⟩,
    ⟨"aload_0", .load .reference (some 0), .bare⟩,
    ⟨"aload_1", .load .reference (some 1), .bare⟩,
    ⟨"aload_2", .load .reference (some 2), .bare⟩,
    ⟨"aload_3", .load .reference (some 3), .bare⟩,
    ⟨"iaload", .arrayLoad .int, .bare⟩,
    ⟨"laload", .arrayLoad .long, .bare⟩,
    ⟨"faload", .arrayLoad .float, .bare⟩,
    ⟨"daload", .arrayLoad .double, .bare⟩,
    ⟨"aaload", .arrayLoad .reference, .bare⟩,
    ⟨"baload", .arrayLoad .byte, .bare⟩,
    ⟨"caload", .arrayLoad .char, .bare⟩,
    ⟨"saload", .arrayLoad .short, .bare⟩,
    ⟨"istore", .store .int none, .slot⟩,
    ⟨"lstore", .store .long none, .slot⟩,
    ⟨"fstore", .store .float none, .slot⟩,
    ⟨"dstore", .store .double none, .slot⟩,
    ⟨"astore", .store .reference none, .slot⟩,
    ⟨"istore_0", .store .int (some 0), .bare⟩,
    ⟨"istore_1", .store .int (some 1), .bare⟩,
    ⟨"istore_2", .store .int (some 2), .bare⟩,
    ⟨"istore_3", .store .int (some 3), .bare⟩,
    ⟨"lstore_0", .store .long (some 0), .bare⟩,
    ⟨"lstore_1", .store .long (some 1), .bare⟩,
    ⟨"lstore_2", .store .long (some 2), .bare⟩,
    ⟨"lstore_3", .store .long (some 3), .bare⟩,
    ⟨"fstore_0", .store .float (some 0), .bare⟩,
    ⟨"fstore_1", .store .float (some 1), .bare⟩,
    ⟨"fstore_2", .store .float (some 2), .bare⟩,
    ⟨"fstore_3", .store .float (some 3), .bare⟩,
    ⟨"dstore_0", .store .double (some 0), .bare⟩,
    ⟨"dstore_1", .store .double (some 1), .bare⟩,
    ⟨"dstore_2", .store .double (some 2), .bare⟩,
    ⟨"dstore_3", .store .double (some 3), .bare⟩,
    ⟨"astore_0", .store .reference (some 0), .bare⟩,
    ⟨"astore_1", .store .reference (some 1), .bare⟩,
    ⟨"astore_2", .store .reference (some 2), .bare⟩,
    ⟨"astore_3", .store .reference (some 3), .bare⟩,
    ⟨"iastore", .arrayStore .int, .bare⟩,
    ⟨"lastore", .arrayStore .long, .bare⟩,
    ⟨"fastore", .arrayStore .float, .bare⟩,
    ⟨"dastore", .arrayStore .double, .bare⟩,
    ⟨"aastore", .arrayStore .reference, .bare⟩,
    ⟨"bastore", .arrayStore .byte, .bare⟩,
    ⟨"castore", .arrayStore .char, .bare⟩,
    ⟨"sastore", .arrayStore .short, .bare⟩,
    ⟨"pop", .shuffle .pop, .bare⟩,
    ⟨"pop2", .shuffle .pop2, .bare⟩,
    ⟨"dup", .shuffle .dup, .bare⟩,
    ⟨"dup_x1", .shuffle .dupX1, .bare⟩,
    ⟨"dup_x2", .shuffle .dupX2, .bare⟩,
    ⟨"dup2", .shuffle .dup2, .bare⟩,
    ⟨"dup2_x1", .shuffle .dup2X1, .bare⟩,
    ⟨"dup2_x2", .shuffle .dup2X2, .bare⟩,
    ⟨"swap", .shuffle .swap, .bare⟩,
    ⟨"iadd", .arithmetic .add .int, .bare⟩,
    ⟨"ladd", .arithmetic .add .long, .bare⟩,
    ⟨"fadd", .arithmetic .add .float, .bare⟩,
    ⟨"dadd", .arithmetic .add .double, .bare⟩,
    ⟨"isub", .arithmetic .sub .int, .bare⟩,
    ⟨"lsub", .arithmetic .sub .long, .bare⟩,
    ⟨"fsub", .arithmetic .sub .float, .bare⟩,
    ⟨"dsub", .arithmetic .sub .double, .bare⟩,
    ⟨"imul", .arithmetic .mul .int, .bare⟩,
    ⟨"lmul", .arithmetic .mul .long, .bare⟩,
    ⟨"fmul", .arithmetic .mul .float, .bare⟩,
    ⟨"dmul", .arithmetic .mul .double, .bare⟩,
    ⟨"idiv", .arithmetic .div .int, .bare⟩,
    ⟨"ldiv", .arithmetic .div .long, .bare⟩,
    ⟨"fdiv", .arithmetic .div .float, .bare⟩,
    ⟨"ddiv", .arithmetic .div .double, .bare⟩,
    ⟨"irem", .arithmetic .rem .int, .bare⟩,
    ⟨"lrem", .arithmetic .rem .long, .bare⟩,
    ⟨"frem", .arithmetic .rem .float, .bare⟩,
    ⟨"drem", .arithmetic .rem .double, .bare⟩,
    ⟨"ineg", .negate .int, .bare⟩,
    ⟨"lneg", .negate .long, .bare⟩,
    ⟨"fneg", .negate .float, .bare⟩,
    ⟨"dneg", .negate .double, .bare⟩,
    ⟨"ishl", .shift .left .int, .bare⟩,
    ⟨"lshl", .shift .left .long, .bare⟩,
    ⟨"ishr", .shift .right .int, .bare⟩,
    ⟨"lshr", .shift .right .long, .bare⟩,
    ⟨"iushr", .shift .unsignedRight .int, .bare⟩,
    ⟨"lushr", .shift .unsignedRight .long, .bare⟩,
    ⟨"iand", .bitwise .and .int, .bare⟩,
    ⟨"land", .bitwise .and .long, .bare⟩,
    ⟨"ior", .bitwise .or .int, .bare⟩,
    ⟨"lor", .bitwise .or .long, .bare⟩,
    ⟨"ixor", .bitwise .xor .int, .bare⟩,
    ⟨"lxor", .bitwise .xor .long, .bare⟩,
    ⟨"iinc", .increment, .increment⟩,
    ⟨"i2l", .convert .int .long, .bare⟩,
    ⟨"i2f", .convert .int .float, .bare⟩,
    ⟨"i2d", .convert .int .double, .bare⟩,
    ⟨"l2i", .convert .long .int, .bare⟩,
    ⟨"l2f", .convert .long .float, .bare⟩,
    ⟨"l2d", .convert .long .double, .bare⟩,
    ⟨"f2i", .convert .float .int, .bare⟩,
    ⟨"f2l", .convert .float .long, .bare⟩,
    ⟨"f2d", .convert .float .double, .bare⟩,
    ⟨"d2i", .convert .double .int, .bare⟩,
    ⟨"d2l", .convert .double .long, .bare⟩,
    ⟨"d2f", .convert .double .float, .bare⟩,
    ⟨"i2b", .narrow .byte, .bare⟩,
    ⟨"i2c", .narrow .char, .bare⟩,
    ⟨"i2s", .narrow .short, .bare⟩,
    ⟨"lcmp", .compareLong, .bare⟩,
    ⟨"fcmpl", .compareFloating .single (-1), .bare⟩,
    ⟨"fcmpg", .compareFloating .single 1, .bare⟩,
    ⟨"dcmpl", .compareFloating .double (-1), .bare⟩,
    ⟨"dcmpg", .compareFloating .double 1, .bare⟩,
    ⟨"ifeq", .branchZero .eq, .branch⟩,
    ⟨"ifne", .branchZero .ne, .branch⟩,
    ⟨"iflt", .branchZero .lt, .branch⟩,
    ⟨"ifge", .branchZero .ge, .branch⟩,
    ⟨"ifgt", .branchZero .gt, .branch⟩,
    ⟨"ifle", .branchZero .le, .branch⟩,
    ⟨"if_icmpeq", .branchInt .eq, .branch⟩,
    ⟨"if_icmpne", .branchInt .ne, .branch⟩,
    ⟨"if_icmplt", .branchInt .lt, .branch⟩,
    ⟨"if_icmpge", .branchInt .ge, .branch⟩,
    ⟨"if_icmpgt", .branchInt .gt, .branch⟩,
    ⟨"if_icmple", .branchInt .le, .branch⟩,
    ⟨"if_acmpeq", .branchReference true, .branch⟩,
    ⟨"if_acmpne", .branchReference false, .branch⟩,
    ⟨"goto", .jump, .branch⟩,
    ⟨"jsr", .subroutine, .branch⟩,
    ⟨"ret", .ret, .slot⟩,
    ⟨"tableswitch", .switch, .table⟩,
    ⟨"lookupswitch", .switch, .lookup⟩,
    ⟨"ireturn", .returnValue .int, .bare⟩,
    ⟨"lreturn", .returnValue .long, .bare⟩,
    ⟨"freturn", .returnValue .float, .bare⟩,
    ⟨"dreturn", .returnValue .double, .bare⟩,
    ⟨"areturn", .returnValue .reference, .bare⟩,
    ⟨"return", .returnVoid, .bare⟩,
    ⟨"getstatic", .getField true, .constant⟩,
    ⟨"putstatic", .putField true, .constant⟩,
    ⟨"getfield", .getField false, .constant⟩,
    ⟨"putfield", .putField false, .constant⟩,
    ⟨"invokevirtual", .invoke .virtual, .constant⟩,
    ⟨"invokespecial", .invoke .special, .constant⟩,
    ⟨"invokestatic", .invoke .static, .constant⟩,
    ⟨"invokeinterface", .invoke .viaInterface, .interfaceCall⟩,
    ⟨"invokedynamic", .invoke .dynamic, .dynamicCall⟩,
    ⟨"new", .newObject, .constant⟩,
    ⟨"newarray", .newArray, .arrayType⟩,
    ⟨"anewarray", .newArray, .constant⟩,
    ⟨"arraylength", .arrayLength, .bare⟩,
    ⟨"athrow", .raise, .bare⟩,
    ⟨"checkcast", .checkCast, .constant⟩,
    ⟨"instanceof", .instanceOf, .constant⟩,
    ⟨"monitorenter", .monitor, .bare⟩,
    ⟨"monitorexit", .monitor, .bare⟩,
    ⟨"wide", .undefined, .wide⟩,
    ⟨"multianewarray", .newMultiArray, .multiArray⟩,
    ⟨"ifnull", .branchNull true, .branch⟩,
    ⟨"ifnonnull", .branchNull false, .branch⟩,
    ⟨"goto_w", .jump, .wideBranch⟩,
    ⟨"jsr_w", .subroutine, .wideBranch⟩  ]

/-- The row of an opcode, if it has one. -/
def info? (opcode : Opcode) : Option OpcodeInfo := table[opcode.toNat]?

/-- The mnemonic of an opcode, if it is assigned. -/
def mnemonic? (opcode : Opcode) : Option String := opcode.info?.map (·.mnemonic)

/-- The mnemonic of an opcode as it is written, also for unassigned bytes. -/
def mnemonic (opcode : Opcode) : String := opcode.mnemonic?.getD "<invalid>"

/-- What an opcode does. -/
def operation (opcode : Opcode) : Operation := (opcode.info?.map (·.operation)).getD .undefined

/-- The operand layout of an opcode, if it is assigned. -/
def layout? (opcode : Opcode) : Option Layout := opcode.info?.map (·.layout)

/-! ### Opcodes that the library emits -/

def aconstNull : Opcode := 0x01
def iconst0 : Opcode := 0x03
def lconst0 : Opcode := 0x09
def lconst1 : Opcode := 0x0A
def fconst0 : Opcode := 0x0B
def fconst1 : Opcode := 0x0C
def fconst2 : Opcode := 0x0D
def dconst0 : Opcode := 0x0E
def dconst1 : Opcode := 0x0F
def bipush : Opcode := 0x10
def sipush : Opcode := 0x11
def ldc : Opcode := 0x12
def ldcW : Opcode := 0x13
def ldc2W : Opcode := 0x14
def iload : Opcode := 0x15
def iload0 : Opcode := 0x1A
def istore : Opcode := 0x36
def istore0 : Opcode := 0x3B
def pop : Opcode := 0x57
def pop2 : Opcode := 0x58
def dup : Opcode := 0x59
def dupX1 : Opcode := 0x5A
def dupX2 : Opcode := 0x5B
def dup2 : Opcode := 0x5C
def dup2X1 : Opcode := 0x5D
def dup2X2 : Opcode := 0x5E
def swap : Opcode := 0x5F
def iinc : Opcode := 0x84
def goto : Opcode := 0xA7
def jsr : Opcode := 0xA8
def tableswitch : Opcode := 0xAA
def lookupswitch : Opcode := 0xAB
def invokevirtual : Opcode := 0xB6
def invokespecial : Opcode := 0xB7
def invokeinterface : Opcode := 0xB9
def invokedynamic : Opcode := 0xBA
def wide : Opcode := 0xC4
def gotoW : Opcode := 0xC8
def jsrW : Opcode := 0xC9

/-- The opcode of a stack manipulation. -/
def ofShuffle : Shuffle → Opcode
  | .pop => pop
  | .pop2 => pop2
  | .dup => dup
  | .dupX1 => dupX1
  | .dupX2 => dupX2
  | .dup2 => dup2
  | .dup2X1 => dup2X1
  | .dup2X2 => dup2X2
  | .swap => swap

@[simp] theorem operation_ofShuffle (move : Shuffle) :
    (ofShuffle move).operation = .shuffle move := by
  cases move <;> decide +kernel

end Opcode

end JvmTrim
