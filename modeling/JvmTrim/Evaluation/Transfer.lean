import JvmTrim.Assumptions
import JvmTrim.Evaluation.Folding
import JvmTrim.Frame
import JvmTrim.Instruction.Codec
import JvmTrim.Instruction.StackEffect

/-!
# Executing one instruction on abstract values

`Context.execute` applies one instruction to a frame and says where control may continue. Results
that are known are constants; any other result is a fresh value named after its instruction. Before
an instruction gives out its name again, every copy of its previous value forgets the name, so that
one name never stands for two run-time values.

The evaluation can be made `simple`: it then keeps neither constants nor names and so follows every
edge that some value could take.

## Main definitions

* `Detail`: how much an evaluation keeps of a value
* `Event`, `Step`: what executing an instruction gives beside the new frame
* `Context.execute`
-/

namespace JvmTrim

/-- How much an evaluation keeps of a value. -/
inductive Detail where
  /-- Constants and names. -/
  | precise
  /-- Kinds, return addresses and what is known of null. -/
  | simple
  deriving DecidableEq, Repr, Inhabited

/-- A known value, as far as it is kept. -/
def Detail.constant (detail : Detail) (value : Value) : Value :=
  match detail, value with
  | .precise, value => value
  | .simple, .int _ => .int .unknown
  | .simple, .long _ => .long .unknown
  | .simple, .float _ => .float .unknown
  | .simple, .double _ => .double .unknown
  | .simple, .reference r => .reference (.unknown r.isNotNull)
  | .simple, value => value

/-- The value of a kind with a name, as far as it is kept. -/
def Detail.named (detail : Detail) (kind : Kind) (symbol : Symbol) (notNull : Bool) : Value :=
  detail.constant (Value.specific kind symbol notNull)

/-- The value that was assumed, if it is of the expected kind. -/
def Detail.supplied? (detail : Detail) (kind : Kind) (value : Option Value) : Option Value :=
  (value.filter fun v => v.kind? == some kind).map detail.constant

/-- What executing an instruction tells beyond the new frame. -/
inductive Event where
  /-- An initializer was called on a receiver with this name. -/
  | initialization (receiver : Option Symbol)
  /-- A subroutine was called. -/
  | call (target returnOffset : Nat)
  /-- A subroutine returned to one of these offsets. -/
  | return (offsets : OffsetSet)
  deriving DecidableEq, Repr

/-- Where control goes, exception handlers apart. -/
structure Exit where
  /-- The offsets that control may continue at. -/
  successors : List Nat
  /-- What else happened. -/
  event : Option Event
  deriving DecidableEq, Repr

/-- The outcome of executing an instruction. -/
structure Step extends Exit where
  /-- The frame afterwards. -/
  frame : Frame
  deriving DecidableEq, Repr

/-- What the meaning of an instruction depends on beside the frame. -/
structure Context where
  /-- The constant pool that operands refer to. -/
  pool : ConstantPool
  /-- How much is kept of values. -/
  detail : Detail
  /-- What is assumed about values from outside. -/
  assumptions : Assumptions

/-- A computation that reads and changes a frame. -/
abbrev Transfer := StateT Frame (Except Failure)

namespace Transfer

/-! ## Access to the frame -/

/-- Pops some words and gives the value of the top one. -/
def pop (count : Nat) : Transfer Value := fun frame => do
  let (value, stack) ← frame.stack.pop count
  return (value, { frame with stack })

/-- Pops a value that has to be of a kind. -/
def popKind (kind : Kind) : Transfer Value := fun frame => do
  let (value, stack) ← frame.stack.popKind kind
  return (value, { frame with stack })

/-- Pops single words. -/
def popEach (count : Nat) : Transfer Unit :=
  match count with
  | 0 => pure ()
  | count + 1 => do
    let _ ← pop 1
    popEach count

/-- Pushes a value that the instruction at `offset` produced. -/
def push (offset : Nat) (value : Value) : Transfer Unit := fun frame =>
  .ok ((), { frame with stack := frame.stack.push value (OriginSet.ofInstruction offset) })

/-- The value in a variable. -/
def load (slot : UInt16) : Transfer Value := fun frame => do
  return ((← frame.locals.load slot).value, frame)

/-- Stores a value that the instruction at `offset` produced. -/
def store (offset : Nat) (slot : UInt16) (value : Value) : Transfer Unit := fun frame => do
  let locals ← frame.locals.store slot value (OriginSet.ofInstruction offset)
  return ((), { frame with locals })

/-- Forgets a symbol everywhere. -/
def forget (symbol : Symbol) : Transfer Unit := fun frame =>
  .ok ((), ⟨frame.locals.forget symbol, frame.stack.forget symbol⟩)

end Transfer

open Transfer

/-- The value a load of a kind pushes for the content of a variable. -/
def loadedValue (kind : Kind) (value : Value) : Value :=
  if value.kind? = some kind || (kind = .reference && value.returnAddresses?.isSome) then value
  else .unknown kind

/-- The value a store of a kind puts into a variable for the popped value. -/
def storedValue (kind : Kind) (value : Value) : Value :=
  if kind.size = 2 && !value.isWide then .unknown kind else value

/-- The target a switch takes for a key, where `targets` starts with the default. -/
def switchTarget (operand : Operand) (targets : List Nat) (key : Int32) :
    Except Failure Nat :=
  let chosen : Nat :=
    match operand with
    | .table _ low high _ =>
      if low ≤ key ∧ key ≤ high then (key.toInt - low.toInt).toNat + 1 else 0
    | .lookup _ cases =>
      match cases.findIdx? (·.1 == key) with
      | some index => index + 1
      | none => 0
    | _ => 0
  orFail (.fault .outOfRange) targets[chosen]?

/-- The numbers of a list in ascending order, each once. -/
def ascending (offsets : List Nat) : List Nat :=
  (offsets.foldl OrderedSet.insert (OrderedSet.empty : OffsetSet)).elements

/-- Whether two references are the same object, if that is known. -/
def sameReference? (a b : Value) : Option Bool :=
  if (a.isNull && b.isNull) || a.sameIdentity b then some true
  else if (a.isNull && b.isNotNull) || (a.isNotNull && b.isNull) then some false
  else none

/-- Whether a reference is null, if that is known. -/
def nullness? (value : Value) : Option Bool :=
  if value.isNull then some true else if value.isNotNull then some false else none

/-- Pops the operands of a conditional branch and decides it, if its outcome is known. -/
def condition (operation : Operation) : Transfer (Option Bool) :=
  match operation with
  | .branchZero comparison => do
    let a ← popKind .int
    return (← a.expectInt).map (comparison.holds · 0)
  | .branchInt comparison => do
    let b ← popKind .int
    let a ← popKind .int
    match ← a.expectInt, ← b.expectInt with
    | some x, some y => return some (comparison.holds x y)
    -- One value compared with itself: the outcome does not depend on the number.
    | _, _ => return if a.sameIdentity b then some comparison.isReflexive else none
  | .branchReference equal => do
    let b ← pop 1
    let a ← pop 1
    return (sameReference? a b).map (· == equal)
  | .branchNull null => do
    let a ← pop 1
    return (nullness? a).map (· == null)
  | _ => return none

namespace Context

variable (context : Context) (offset : Nat)

/-! ## Values that instructions produce -/

/-- A new value of the instruction at `offset`, after the name of its previous one is forgotten. -/
def fresh (kind : Kind) (notNull : Bool) : Transfer Value := do
  let symbol := Symbol.instruction offset
  match context.detail with
  -- In a loop the name stood for the value of the last round.
  | .precise => forget symbol
  | .simple => pure ()
  return context.detail.named kind symbol notNull

/-- Pushes a new value. -/
def pushFresh (kind : Kind) (notNull : Bool) : Transfer Unit := do
  push offset (← context.fresh offset kind notNull)

/-- Pushes a known value. -/
def pushConstant (value : Value) : Transfer Unit := push offset (context.detail.constant value)

/-- A value that is a constant if it is known and else a new value. -/
def computed (kind : Kind) (value : Option Value) : Transfer Value :=
  match value with
  | some value => return context.detail.constant value
  | none => context.fresh offset kind false

/-- Pops a value of a kind and pushes a function of it. -/
def unary (source target : Kind) (fold : Value → Except Failure (Option Value)) :
    Transfer Unit := do
  let a ← popKind source
  push offset (← context.computed offset target (← fold a))

/-- Pops two values, the second operand first, and pushes a function of them. -/
def binary (first second target : Kind) (fold : Value → Value → Except Failure (Option Value)) :
    Transfer Unit := do
  let b ← popKind second
  let a ← popKind first
  push offset (← context.computed offset target (← fold a b))

/-- Pushes a value from outside: what is assumed of it, or else a new value. -/
def pushSupplied (kind : Kind) (value : Option Value) : Transfer Unit :=
  match context.detail.supplied? kind value with
  | some value => push offset value
  | none => context.pushFresh offset kind false

/-! ## Groups of instructions -/

/-- Pushes a constant pool entry. -/
def loadConstant (instruction : Instruction) : Transfer Unit := do
  let index ← orDefect (.missingLoaded offset) instruction.constantIndex?
  match ← context.pool.get index with
  | .integer value => context.pushConstant offset (.ofInt value)
  | .float bits => context.pushConstant offset (.ofFloat bits)
  | .long value => context.pushConstant offset (.ofLong value)
  | .double bits => context.pushConstant offset (.ofDouble bits)
  | .string _ | .class _ | .methodType _ | .methodHandle .. =>
    context.pushFresh offset .reference true
  | .dynamic _ nameAndType =>
    let (_, descriptor) ← context.pool.nameAndType nameAndType
    context.pushFresh offset (← FieldType.parse descriptor).kind false
  | other => (defect (.notLoadable other.sort offset) : Except Failure Unit)

/-- Adds the constant of an increment to its variable. -/
def increment (instruction : Instruction) : Transfer Unit :=
  match instruction.operand with
  | .increment slot delta => do
    let current ← load slot
    let value := current.int?.map fun v => Value.ofInt (v + delta.toInt32)
    store offset slot (← context.computed offset .int value)
  | _ => (defect (.missingIncrement offset) : Except Failure Unit)

/-- Moves the words on top of the stack. -/
def shuffle (instruction : Instruction) (move : Shuffle) : Transfer Unit := fun frame =>
  let words := frame.stack.words
  -- A value of two words is moved as a whole or not at all.
  if move.fits (words.map (·.value.isWide)) then do
    let base := words.size - move.pops
    let pushed ← move.outputs.mapM fun source =>
      orFail (.fault .outOfRange) words[base + source]?
    let copies := pushed.map fun word => Slot.mk word.value (OriginSet.ofInstruction offset)
    return ((), { frame with stack := ⟨words.take base ++ copies.toArray⟩ })
  else defect (.splitsValue instruction.mnemonic offset)

/-- Reads a field. -/
def getField (static : Bool) (instruction : Instruction) : Transfer Unit := do
  if !static then let _ ← pop 1
  let field ← instruction.member context.pool
  let kind := (← FieldType.parse field.descriptor).kind
  context.pushSupplied offset kind (context.assumptions.field field)

/-- Writes a field. -/
def putField (static : Bool) (instruction : Instruction) : Transfer Unit := do
  let _ ← pop (← instruction.fieldType context.pool).size
  if !static then let _ ← pop 1

/-- Calls a method; tells of a call of an initializer. -/
def invoke (mode : Invocation) (instruction : Instruction) : Transfer (Option Event) := do
  let descriptor ← instruction.methodDescriptor context.pool
  descriptor.parameters.reverse.forM fun parameter => do
    let _ ← pop parameter.size
  let member ←
    if mode = .dynamic then pure none else some <$> instruction.member context.pool
  let event ←
    if mode.hasReceiver then do
      let receiver ← pop 1
      pure <|
        if mode = .special && (member.map (·.isInitializer)).getD false then
          some (Event.initialization receiver.symbol?)
        else none
    else pure none
  match descriptor.result with
  | some type => context.pushSupplied offset type.kind (member.bind context.assumptions.result)
  | none => pure ()
  return event

/-- The first target of a branch. -/
def firstTarget (instruction : Instruction) (missing : Defect) : Except Failure Nat := do
  orDefect missing (← instruction.branchTargets offset).head?

/-- Executes an instruction whose only exit is the next instruction, or which ends the method. -/
def perform (instruction : Instruction) : Transfer Unit :=
  match instruction.operation with
  | .nop | .returnVoid => pure ()
  | .pushNull => context.pushConstant offset .null
  | .pushInt value => context.pushConstant offset (.ofInt value)
  | .pushLong value => context.pushConstant offset (.ofLong value)
  | .pushFloat bits => context.pushConstant offset (.ofFloat bits)
  | .pushDouble bits => context.pushConstant offset (.ofDouble bits)
  | .pushImmediate =>
    match instruction.operand with
    | .byte value => context.pushConstant offset (.ofInt value.toInt32)
    | .short value => context.pushConstant offset (.ofInt value.toInt32)
    | _ => (defect (.missingImmediate instruction.mnemonic) : Except Failure Unit)
  | .loadConstant _ => context.loadConstant offset instruction
  | .load kind slot => do
    let value ← load (slot.getD instruction.operandSlot)
    push offset (loadedValue kind value)
  | .store kind slot => do
    let value ← pop kind.size
    store offset (slot.getD instruction.operandSlot) (storedValue kind value)
  | .arrayLoad element => do
    popEach 2
    context.pushFresh offset element.kind false
  | .arrayStore element => do
    let _ ← pop element.kind.size
    popEach 2
  | .shuffle move => shuffle offset instruction move
  | .arithmetic operator kind =>
    context.binary offset kind.kind kind.kind kind.kind (foldArithmetic operator kind)
  | .negate kind => context.unary offset kind.kind kind.kind (foldNegation kind)
  | .shift operator kind =>
    context.binary offset kind.kind .int kind.kind (foldShift operator kind)
  | .bitwise operator kind =>
    context.binary offset kind.kind kind.kind kind.kind (foldBitwise operator kind)
  | .increment => context.increment offset instruction
  | .convert source target =>
    context.unary offset source.kind target.kind (foldConversion source target)
  | .narrow target => context.unary offset .int .int fun a => do
    return (← a.expectInt).map fun v => .ofInt (narrowInt target v)
  | .compareLong => context.binary offset .long .long .int foldCompareLong
  | .compareFloating kind unordered =>
    context.binary offset kind.kind kind.kind .int (foldCompareFloating kind unordered)
  | .returnValue kind => do
    let _ ← pop kind.size
  | .getField static => context.getField offset static instruction
  | .putField static => context.putField static instruction
  | .newObject => context.pushFresh offset .reference true
  | .newArray => do
    popEach 1
    context.pushFresh offset .reference true
  | .newMultiArray =>
    match instruction.operand with
    | .multiArray _ dimensions => do
      popEach dimensions.toNat
      context.pushFresh offset .reference true
    | _ => (defect .missingDimensions : Except Failure Unit)
  | .arrayLength => do
    popEach 1
    context.pushFresh offset .int false
  | .raise | .monitor => popEach 1
  | .checkCast => do
    let value ← pop 1
    if value.isNull then push offset value
    else context.pushFresh offset .reference value.isNotNull
  | .instanceOf => do
    let value ← pop 1
    push offset (← context.computed offset .int (if value.isNull then some (.ofInt 0) else none))
  | _ => (.error (.invalidOpcode instruction.opcode) : Except Failure Unit)

/-- Executes an instruction of which `next` is the offset of the one behind it. -/
def run (next : Nat) (instruction : Instruction) : Transfer Exit :=
  match instruction.operation with
  | .branchZero _ | .branchInt _ | .branchReference _ | .branchNull _ => do
    let decision ← condition instruction.operation
    let target ← firstTarget offset instruction (.missingTarget offset)
    return {
      successors :=
        match decision with
        | some true => [target]
        | some false => [next]
        | none => if target = next then [next] else [target, next]
      event := none }
  | .jump => return ⟨← instruction.branchTargets offset, none⟩
  | .subroutine => do
    let target ← firstTarget offset instruction (.missingSubroutine offset)
    push offset (.returnAddress (OffsetSet.single next))
    return ⟨[target], some (.call target next)⟩
  | .ret => do
    let slot ← orDefect (.missingSlot offset) instruction.slot?
    let value ← load slot
    let offsets ← orDefect (.notReturnAddress offset slot) value.returnAddresses?
    return ⟨offsets.elements, some (.return offsets)⟩
  | .switch => do
    let value ← popKind .int
    let key ← value.expectInt
    let targets ← instruction.branchTargets offset
    match key with
    | some key => return ⟨[← switchTarget instruction.operand targets key], none⟩
    | none => return ⟨ascending targets, none⟩
  | .invoke mode => return ⟨[next], ← context.invoke offset mode instruction⟩
  | _ => do
    context.perform offset instruction
    return ⟨if instruction.fallsThrough then [next] else [], none⟩

/-- Executes the instruction at `offset`, of which `next` is the offset of the one behind it. -/
def execute (next : Nat) (instruction : Instruction) (frame : Frame) : Except Failure Step := do
  let (exit, frame) ← context.run offset next instruction frame
  return { exit with frame }

end Context

end JvmTrim
