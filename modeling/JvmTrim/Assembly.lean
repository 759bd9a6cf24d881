import JvmTrim.Association
import JvmTrim.Edit.Placement
import JvmTrim.StackHeight

/-!
# Assembling method bodies

A method body is put together from instructions and named labels. Branches and switches name their
targets; the names are replaced by displacements once all positions are known. What goes wrong while
the parts are collected is noted and reported when the body is asked for, the first problem only.

## Main definitions

* `Item`: an instruction whose targets may be labels
* `Assembly`: the parts of a body, collected in order
* `Assembly.assemble`: the code
* `Assembly.finish`: the whole body with its tables
-/

namespace JvmTrim

/-- An instruction whose targets may be labels. -/
inductive Item where
  | plain (instruction : Instruction)
  | branch (opcode : Opcode) (label : String)
  /-- A switch over consecutive keys from `low` on. -/
  | table (low : Int32) (labels : List String) (default : String)
  | lookup (cases : List (Int32 × String)) (default : String)
  deriving DecidableEq, Repr, Inhabited

/-- The last key of a table switch with `count` labels. -/
def tableHigh (low : Int32) (count : Nat) : Int32 := low + Int32.ofNat count - 1

/-- The instruction of an item, where `resolve` gives the displacement of a label. -/
def Item.resolved (resolve : String → Except Failure Int32) : Item → Except Failure Instruction
  | plain instruction => return instruction
  | branch opcode label => return .branch opcode (← resolve label)
  | table low labels default => do
    let default ← resolve default
    let displacements ← labels.mapM resolve
    return ⟨Opcode.tableswitch, .table default low (tableHigh low labels.length) displacements⟩
  | lookup cases default => do
    let default ← resolve default
    let cases ← cases.mapM fun c => do return (c.1, ← resolve c.2)
    return ⟨Opcode.lookupswitch, .lookup default cases⟩

/-- The instruction of an item with displacements of zero, which is as long as the final one. -/
def Item.placeholder : Item → Instruction
  | plain instruction => instruction
  | branch opcode _ => .branch opcode 0
  | table low labels _ =>
    ⟨Opcode.tableswitch, .table 0 low (tableHigh low labels.length) (labels.map fun _ => 0)⟩
  | lookup cases _ => ⟨Opcode.lookupswitch, .lookup 0 (cases.map fun c => (c.1, 0))⟩

/-- A protected range, named by labels. -/
structure LabelledHandler where
  /-- Start of the range. -/
  start : String
  /-- End of the range. -/
  stop : String
  /-- The handler's code. -/
  target : String
  /-- Constant pool index of the caught class. -/
  catchType : UInt16
  deriving DecidableEq, Repr, Inhabited

/-- The parts of a method body. -/
structure Assembly where
  /-- The instructions in order. -/
  items : Array Item
  /-- For a label the index of the item behind it. -/
  labels : List (String × Nat)
  /-- Protected ranges. -/
  handlers : Array LabelledHandler
  /-- Line numbers by the index of the item behind them. -/
  lines : Array (Nat × UInt16)
  /-- The first problem so far. -/
  failure : Option Failure
  deriving DecidableEq, Repr, Inhabited

namespace Assembly

/-- No parts. -/
def empty : Assembly := ⟨#[], [], #[], #[], none⟩

/-- Adds an item. -/
def add (assembly : Assembly) (item : Item) : Assembly :=
  { assembly with items := assembly.items.push item }

/-- Adds an instruction. -/
def instruction (assembly : Assembly) (instruction : Instruction) : Assembly :=
  assembly.add (.plain instruction)

/-- Notes a problem, unless there is one already. -/
def note (assembly : Assembly) (failure : Failure) : Assembly :=
  { assembly with failure := assembly.failure <|> some failure }

/-- Adds the shortest push of an int, which must not need a constant pool entry. -/
def pushInt (assembly : Assembly) (value : Int32) : Assembly :=
  match Instruction.pushInt? value with
  | some instruction => assembly.instruction instruction
  | none => assembly.note (.malformed (.needsConstant value))

/-- Adds an instruction with a constant pool operand. The argument count of an interface call is
filled in when the body is finished. -/
def constant (assembly : Assembly) (opcode : Opcode) (index : UInt16) : Assembly :=
  assembly.instruction
    ⟨opcode, if opcode = Opcode.invokeinterface then .interfaceCall index 0 else .constant index⟩

/-- Adds a switch over single keys, in the order of the keys. -/
def lookup (assembly : Assembly) (cases : List (Int32 × String)) (default : String) : Assembly :=
  assembly.add (.lookup (cases.mergeSort fun a b => a.1 ≤ b.1) default)

/-- Defines a label here. A label that is there already moves here, and that is a problem. -/
def label (assembly : Assembly) (name : String) : Assembly :=
  let moved := { assembly with labels := assign name assembly.items.size assembly.labels }
  if (assembly.labels.lookup name).isSome then moved.note (.duplicateLabel name) else moved

/-- Starts a line of the source text here. -/
def line (assembly : Assembly) (number : UInt16) : Assembly :=
  { assembly with lines := assembly.lines.push (assembly.items.size, number) }

/-- Protects a range. -/
def protect (assembly : Assembly) (handler : LabelledHandler) : Assembly :=
  { assembly with handlers := assembly.handlers.push handler }

/-- The position of every item, and the length of all of them. -/
def positions (assembly : Assembly) : Array Nat :=
  (offsetsFrom 0 (assembly.items.toList.map (·.placeholder))).toArray

/-- The position of a label, given the positions of the items. -/
def labelIn (assembly : Assembly) (positions : Array Nat) (name : String) : Except Failure Nat := do
  let item ← orFail (.undefinedLabel name) (assembly.labels.lookup name)
  orFail (.fault .outOfRange) positions[item]?

/-- The position of a label. -/
def labelOffset (assembly : Assembly) (name : String) : Except Failure Nat :=
  assembly.labelIn assembly.positions name

/-- The displacement from `position` to a label. -/
def displacement (assembly : Assembly) (positions : Array Nat) (position : Nat) (name : String) :
    Except Failure Int32 := do
  return Int32.ofInt ((← assembly.labelIn positions name : Int) - position)

/-- The code. -/
def assemble (assembly : Assembly) : Except Failure (List UInt8) := do
  match assembly.failure with
  | some failure => .error (.recorded failure)
  | none =>
    let positions := assembly.positions
    let parts ← (assembly.items.toList.zip positions.toList).mapM fun (item, position) => do
      (← item.resolved (assembly.displacement positions position)).encode position
    return parts.flatten

/-- An item with the argument count of an interface call filled in. -/
def countArguments (pool : ConstantPool) : Item → Except Failure Item
  | .plain ⟨opcode, .interfaceCall index 0⟩ => do
    let descriptor ← Instruction.methodDescriptor ⟨opcode, .interfaceCall index 0⟩ pool
    return .plain ⟨opcode, .interfaceCall index (descriptor.parameterSlots + 1).toUInt8⟩
  | item => return item

/-- The whole body. -/
def finish (assembly : Assembly) (maxLocals : UInt16) (pool : ConstantPool) :
    Except Failure Code := do
  let assembly := { assembly with items := ← assembly.items.mapM (countArguments pool) }
  let positions := assembly.positions
  let bytes ← assembly.assemble
  let handlers ← assembly.handlers.toList.mapM fun handler => do
    let start ← assembly.labelIn positions handler.start
    let stop ← assembly.labelIn positions handler.stop
    let target ← assembly.labelIn positions handler.target
    return Handler.mk start stop target handler.catchType
  let lines ← assembly.lines.toList.mapM fun (item, number) => do
    return LineEntry.mk (← orFail (.fault .outOfRange) positions[item]?) number
  let code : Code := ⟨0, maxLocals, bytes, handlers, lines, []⟩
  return { code with maxStack := ← maxStackHeight code pool }

end Assembly

end JvmTrim
