import JvmTrim.Failure
import JvmTrim.Opcode

/-!
# Instructions

An instruction is an opcode with an operand. Branch operands are displacements relative to the
offset of the instruction itself, so an instruction has a meaning only together with the offset it
is placed at. The pairing of opcode and operand is free; decoding produces the sensible ones.

## Main definitions

* `Operand`, `Instruction`
* `Instruction.flow`: how control leaves an instruction
* `Instruction.localAccess?`, `Instruction.slot?`: the local variable an instruction touches
* `Instruction.branchTargets`: the offsets an instruction may branch to
-/

namespace JvmTrim

/-- The operand of an instruction. -/
inductive Operand where
  | none
  | byte (value : Int8)
  | short (value : Int16)
  /-- A local variable slot. -/
  | slot (index : UInt16)
  | increment (index : UInt16) (delta : Int16)
  /-- A constant pool index. -/
  | constant (index : UInt16)
  /-- A displacement relative to the instruction. -/
  | branch (displacement : Int32)
  | arrayType (code : UInt8)
  /-- A constant pool index with the number of argument words. -/
  | interfaceCall (index : UInt16) (count : UInt8)
  | multiArray (index : UInt16) (dimensions : UInt8)
  /-- Displacements for the keys from `low` to `high`, and for all other keys. -/
  | table (default low high : Int32) (displacements : List Int32)
  /-- Displacements for single keys, and for all other keys. -/
  | lookup (default : Int32) (cases : List (Int32 × Int32))
  deriving DecidableEq, Repr, Inhabited

/-- An opcode with its operand. -/
structure Instruction where
  /-- The opcode byte. -/
  opcode : Opcode
  /-- The operand. -/
  operand : Operand
  deriving DecidableEq, Repr, Inhabited

/-- How control leaves an instruction. -/
inductive Flow where
  | sequential
  | conditional
  | unconditional
  | subroutine
  | subroutineReturn
  | switch
  | return
  | throw
  deriving DecidableEq, Repr

/-- The control flow of an operation. -/
def Operation.flow : Operation → Flow
  | branchZero _ | branchInt _ | branchReference _ | branchNull _ => .conditional
  | jump => .unconditional
  | .subroutine => .subroutine
  | ret => .subroutineReturn
  | .switch => .switch
  | returnValue _ | returnVoid => .return
  | raise => .throw
  | _ => .sequential

/-- Whether an instruction reads or writes its local variable. -/
inductive Access where
  | load
  | store
  deriving DecidableEq, Repr

/-- The place of a kind among the typed variants of an opcode. -/
def Kind.ordinal : Kind → UInt8
  | int => 0
  | long => 1
  | float => 2
  | double => 3
  | reference => 4

namespace Instruction

/-- An instruction without operand. -/
def simple (opcode : Opcode) : Instruction := ⟨opcode, .none⟩

/-- A branch by a displacement relative to its own offset. -/
def branch (opcode : Opcode) (displacement : Int32) : Instruction :=
  ⟨opcode, .branch displacement⟩

/-- The shortest variant of a load or store: the first four slots have opcodes of their own. -/
def slotVariant (base shortBase : Opcode) (kind : Kind) (index : UInt16) : Instruction :=
  if index < 4 then simple (shortBase + kind.ordinal * 4 + index.toUInt8)
  else ⟨base + kind.ordinal, .slot index⟩

/-- The shortest load of a variable. -/
def load (kind : Kind) (index : UInt16) : Instruction :=
  slotVariant Opcode.iload Opcode.iload0 kind index

/-- The shortest store into a variable. -/
def store (kind : Kind) (index : UInt16) : Instruction :=
  slotVariant Opcode.istore Opcode.istore0 kind index

/-- The shortest push of an int that needs no constant pool entry, if there is one. -/
def pushInt? (value : Int32) : Option Instruction :=
  if -1 ≤ value ∧ value ≤ 5 then
    some (simple (Opcode.iconst0 + value.toInt8.toUInt8))
  else if -128 ≤ value ∧ value ≤ 127 then some ⟨Opcode.bipush, .byte value.toInt8⟩
  else if -32768 ≤ value ∧ value ≤ 32767 then some ⟨Opcode.sipush, .short value.toInt16⟩
  else none

/-- What the instruction does. -/
def operation (instruction : Instruction) : Operation := instruction.opcode.operation

/-- The name of the instruction in assembly text. -/
def mnemonic (instruction : Instruction) : String := instruction.opcode.mnemonic

/-- How control leaves the instruction. -/
def flow (instruction : Instruction) : Flow := instruction.operation.flow

/-- Whether control may continue with the next instruction. -/
def fallsThrough (instruction : Instruction) : Bool :=
  match instruction.flow with
  | .sequential | .conditional => true
  | _ => false

/-- The stack manipulation the instruction is, if it is one. -/
def shuffle? (instruction : Instruction) : Option Shuffle :=
  match instruction.operation with
  | .shuffle move => some move
  | _ => Option.none

/-- Whether the instruction only moves stack words. -/
def isShuffle (instruction : Instruction) : Bool := instruction.shuffle?.isSome

/-- Whether the operation pushes a constant. -/
def isConstantPush (instruction : Instruction) : Bool :=
  match instruction.operation with
  | .pushNull | .pushInt _ | .pushLong _ | .pushFloat _ | .pushDouble _ | .pushImmediate
  | .loadConstant _ => true
  | _ => false

/-- The slot in the operand of a load or store; slot 0 if the operand is of another form. -/
def operandSlot (instruction : Instruction) : UInt16 :=
  match instruction.operand with
  | .slot index => index
  | _ => 0

/-- The variable a load or store accesses, with its kind. -/
def localAccess? (instruction : Instruction) : Option (Access × Kind × UInt16) :=
  match instruction.operation with
  | .load kind slot => some (.load, kind, slot.getD instruction.operandSlot)
  | .store kind slot => some (.store, kind, slot.getD instruction.operandSlot)
  | _ => Option.none

/-- The slot that a load, a store, an increment or a `ret` touches. -/
def slot? (instruction : Instruction) : Option UInt16 :=
  match instruction.operand, instruction.operation with
  | .increment index _, _ => some index
  | .slot index, .ret => some index
  | _, _ => instruction.localAccess?.map (·.2.2)

/-- The constant pool index in the operand, if there is one. -/
def constantIndex? (instruction : Instruction) : Option UInt16 :=
  match instruction.operand with
  | .constant index | .interfaceCall index _ | .multiArray index _ => some index
  | _ => Option.none

/-- All displacements in the operand; for a switch the default comes first. -/
def displacements (instruction : Instruction) : List Int32 :=
  match instruction.operand with
  | .branch displacement => [displacement]
  | .table default _ _ displacements => default :: displacements
  | .lookup default cases => default :: cases.map (·.2)
  | _ => []

/-- The offset that a displacement leads to from `offset`. -/
def target (offset : Nat) (displacement : Int32) : Except Failure Nat :=
  let target := (offset : Int) + displacement.toInt
  if target < 0 then .error (.invalidBranch offset target) else .ok target.toNat

/-- The offsets that the instruction at `offset` may branch to, the next instruction excluded; for
a switch the default comes first. -/
def branchTargets (instruction : Instruction) (offset : Nat) : Except Failure (List Nat) :=
  instruction.displacements.mapM (target offset)

/-- The instruction with every displacement replaced. -/
def mapDisplacements (f : Int32 → Int32) (instruction : Instruction) : Instruction :=
  match instruction.operand with
  | .branch displacement => ⟨instruction.opcode, .branch (f displacement)⟩
  | .table default low high displacements =>
    ⟨instruction.opcode, .table (f default) low high (displacements.map f)⟩
  | .lookup default cases =>
    ⟨instruction.opcode, .lookup (f default) (cases.map fun c => (c.1, f c.2))⟩
  | _ => instruction

/-- The instruction with every displacement replaced, where a replacement can fail. -/
def mapDisplacementsM (f : Int32 → Except Failure Int32) (instruction : Instruction) :
    Except Failure Instruction :=
  match instruction.operand with
  | .branch displacement => return ⟨instruction.opcode, .branch (← f displacement)⟩
  | .table default low high displacements =>
    return ⟨instruction.opcode, .table (← f default) low high (← displacements.mapM f)⟩
  | .lookup default cases => do
    let default ← f default
    let cases ← cases.mapM fun c => do return (c.1, ← f c.2)
    return ⟨instruction.opcode, .lookup default cases⟩
  | _ => return instruction

/-- The slot whose value the instruction reads, if it reads one. -/
def readSlot? (instruction : Instruction) : Option UInt16 :=
  match instruction.localAccess? with
  | some (.load, _, index) => some index
  | some (.store, _, _) => Option.none
  | Option.none => instruction.slot?

end Instruction

end JvmTrim
