import JvmTrim.ConstantPool
import JvmTrim.Instruction.Basic
import JvmTrim.Value

/-!
# Pushing constants

The shortest instruction that pushes a known value. Small numbers and null have instructions of
their own; all others need a constant pool entry.

## Main definitions

* `Value.shortPush?`: the push without a constant pool entry
* `Value.constantPush`: the push, with a constant pool entry if it needs one
* `Value.placeholderPush`: the push of some value of the same kind
-/

namespace JvmTrim

namespace Value

/-- The push of a value that needs no constant pool entry, if there is one. -/
def shortPush? : Value → Option Instruction
  | .reference .null => some (.simple Opcode.aconstNull)
  | .int (.particular value) => Instruction.pushInt? value
  | .long (.particular value) =>
    if value = 0 then some (.simple Opcode.lconst0)
    else if value = 1 then some (.simple Opcode.lconst1)
    else Option.none
  | .float (.particular bits) =>
    if bits = 0 then some (.simple Opcode.fconst0)
    else if bits = 0x3f800000 then some (.simple Opcode.fconst1)
    else if bits = 0x40000000 then some (.simple Opcode.fconst2)
    else Option.none
  | .double (.particular bits) =>
    if bits = 0 then some (.simple Opcode.dconst0)
    else if bits = 0x3ff0000000000000 then some (.simple Opcode.dconst1)
    else Option.none
  | _ => Option.none

/-- The constant pool entry that holds a value, if there is one. -/
def entry? : Value → Option Constant
  | .int (.particular value) => some (.integer value)
  | .float (.particular bits) => some (.float bits)
  | .long (.particular value) => some (.long value)
  | .double (.particular bits) => some (.double bits)
  | _ => Option.none

/-- The load of a constant pool entry. -/
def entryLoad (constant : Constant) (index : UInt16) : Instruction :=
  if constant.isWide then ⟨Opcode.ldc2W, .constant index⟩
  else if index ≤ 255 then ⟨Opcode.ldc, .constant index⟩
  else ⟨Opcode.ldcW, .constant index⟩

/-- The push of a value. -/
def constantPush (value : Value) : PoolM Instruction :=
  match value.shortPush? with
  | some instruction => return instruction
  | Option.none =>
    match value.entry? with
    | some constant => return entryLoad constant (← ConstantPool.findOrAdd constant)
    | Option.none => throw (.malformed (.notPushable value.text))

/-- The push of some value of a kind. -/
def placeholderOf : Kind → Instruction
  | .int => .simple Opcode.iconst0
  | .long => .simple Opcode.lconst0
  | .float => .simple Opcode.fconst0
  | .double => .simple Opcode.dconst0
  | .reference => .simple Opcode.aconstNull

/-- The push of some value of the same kind, in place of what the instruction at `offset` pushes. -/
def placeholderPush (value : Value) (offset : Nat) : Except Failure Instruction := do
  return placeholderOf (← orDefect (.noPlaceholder value.text offset) value.kind?)

end Value

end JvmTrim
