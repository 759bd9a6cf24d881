import JvmTrim.ConstantPool
import JvmTrim.Descriptor
import JvmTrim.Instruction.Basic
import JvmTrim.Shuffle

/-!
# The effect of an instruction on the height of the operand stack

How many words an instruction pops and pushes. Field accesses and invocations look their
descriptors up in the constant pool; every other operation decides its effect alone.

## Main definitions

* `StackEffect`
* `Instruction.fieldType`, `Instruction.methodDescriptor`: the descriptors an instruction names
* `Instruction.stackEffect`
-/

namespace JvmTrim

/-- Number of words popped and pushed. -/
structure StackEffect where
  /-- Words popped. -/
  pops : Nat
  /-- Words pushed. -/
  pushes : Nat
  deriving DecidableEq, Repr, Inhabited

namespace Instruction

/-- The constant pool index in the operand of an instruction that needs one. -/
def requireConstant (instruction : Instruction) : Except Failure UInt16 :=
  orDefect (.missingConstant instruction.mnemonic) instruction.constantIndex?

/-- The member an instruction refers to. -/
def member (instruction : Instruction) (pool : ConstantPool) : Except Failure MemberRef := do
  pool.memberRef (← instruction.requireConstant)

/-- The type of the field an instruction accesses. -/
def fieldType (instruction : Instruction) (pool : ConstantPool) : Except Failure FieldType := do
  FieldType.parse (← instruction.member pool).descriptor

/-- The descriptor of the method or call site an instruction invokes. -/
def methodDescriptor (instruction : Instruction) (pool : ConstantPool) :
    Except Failure MethodDescriptor := do
  let index ← instruction.requireConstant
  if instruction.operation = .invoke .dynamic then
    MethodDescriptor.parse (← pool.callSiteDescriptor index)
  else
    MethodDescriptor.parse (← pool.memberRef index).descriptor

/-- Number of words an instruction pops and pushes. An instruction that throws only pops the
exception here; the rest of the stack is discarded by the transfer to a handler. -/
def stackEffect (instruction : Instruction) (pool : ConstantPool) : Except Failure StackEffect :=
  match instruction.operation with
  | .nop | .increment | .jump | .ret | .returnVoid => .ok ⟨0, 0⟩
  | .pushNull | .pushInt _ | .pushFloat _ | .pushImmediate | .loadConstant false => .ok ⟨0, 1⟩
  | .pushLong _ | .pushDouble _ | .loadConstant true => .ok ⟨0, 2⟩
  | .load kind _ => .ok ⟨0, kind.size⟩
  | .store kind _ => .ok ⟨kind.size, 0⟩
  | .arrayLoad element => .ok ⟨2, element.kind.size⟩
  | .arrayStore element => .ok ⟨2 + element.kind.size, 0⟩
  | .shuffle move => .ok ⟨move.pops, move.outputs.length⟩
  | .arithmetic _ kind => .ok ⟨2 * kind.kind.size, kind.kind.size⟩
  | .negate kind => .ok ⟨kind.kind.size, kind.kind.size⟩
  | .shift _ kind => .ok ⟨kind.kind.size + 1, kind.kind.size⟩
  | .bitwise _ kind => .ok ⟨2 * kind.kind.size, kind.kind.size⟩
  | .convert source target => .ok ⟨source.kind.size, target.kind.size⟩
  | .narrow _ => .ok ⟨1, 1⟩
  | .compareLong => .ok ⟨4, 1⟩
  | .compareFloating kind _ => .ok ⟨2 * kind.kind.size, 1⟩
  | .branchZero _ | .branchNull _ | .switch => .ok ⟨1, 0⟩
  | .branchInt _ | .branchReference _ => .ok ⟨2, 0⟩
  | .subroutine => .ok ⟨0, 1⟩
  | .returnValue kind => .ok ⟨kind.size, 0⟩
  | .getField static => do
    let type ← instruction.fieldType pool
    return ⟨if static then 0 else 1, type.size⟩
  | .putField static => do
    let type ← instruction.fieldType pool
    return ⟨if static then type.size else 1 + type.size, 0⟩
  | .invoke mode => do
    let descriptor ← instruction.methodDescriptor pool
    let receiver := if mode.hasReceiver then 1 else 0
    return ⟨descriptor.parameterSlots + receiver, descriptor.resultSlots⟩
  | .newObject => .ok ⟨0, 1⟩
  | .newArray | .arrayLength | .checkCast | .instanceOf => .ok ⟨1, 1⟩
  | .raise | .monitor => .ok ⟨1, 0⟩
  | .newMultiArray =>
    match instruction.operand with
    | .multiArray _ dimensions => .ok ⟨dimensions.toNat, 1⟩
    | _ => defect .missingDimensions
  | .undefined => .error (.invalidOpcode instruction.opcode)

end Instruction

end JvmTrim
