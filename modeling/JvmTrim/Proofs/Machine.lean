import JvmTrim.ClassFile.Code
import JvmTrim.Proofs.FrameAccess

/-!
# A machine for int and long code

The reference semantics of straight numeric code: a machine whose stack and variables hold ints and
longs, a long taking two words. Arithmetic wraps around, and dividing an int by zero throws.
Everything that the machine has no meaning for, an instruction on objects as much as an int popped
where a long lies, makes it reject the run.

An instruction has no offset of its own. What it does to the store therefore does not mention
offsets: `execute` tells which of the instruction's displacements control follows, if any, and `step`
finds the offset.

The stack may grow without limit. The size that a body declares for it is not looked at in any step;
that no run needs more is shown apart from the machine, by `Machine.stack_le_maxStackHeight` for the
computed size and by `Edit.stack_le_maxStack` for what an edited body declares.

## Main definitions

* `Cell`, `Store`: what the machine works on
* `Machine.execute`: what one instruction does
* `Machine.step`, `Machine.run`: running a decoded body
* `Passes`: the arguments of a method with some parameter types
-/

namespace JvmTrim

/-- A word of the stack or of the variables, as the machine has it. -/
inductive Cell where
  | int (value : Int32)
  | long (value : Int64)
  /-- The other word of a long. -/
  | half
  /-- A variable never written. -/
  | unset
  deriving DecidableEq, Repr, Inhabited

namespace Cell

/-- The kind of a number. -/
def kind? : Cell → Option Kind
  | int _ => some .int
  | long _ => some .long
  | half | unset => none

/-- The words that a number takes on the stack, the top first. -/
def pushed : Cell → List Cell
  | long value => [long value, half]
  | word => [word]

/-- The variables after a number is written. -/
def stored (locals : List Cell) (slot : Nat) : Cell → List Cell
  | long value => (locals.set slot (long value)).set (slot + 1) half
  | word => locals.set slot word

theorem length_pushed {word : Cell} {kind : Kind} (h : word.kind? = some kind) :
    word.pushed.length = kind.size := by
  cases word <;> cases h <;> rfl

end Cell

/-- How a run ends. -/
inductive Outcome where
  | returned (value : Option Cell)
  /-- An int was divided by zero. -/
  | threw
  deriving DecidableEq, Repr

/-- Why the machine stops. -/
inductive Halt where
  | finished (outcome : Outcome)
  /-- The machine has no meaning for what it should do. -/
  | rejected
  deriving DecidableEq, Repr

/-- The stack, its top first, and the variables. -/
structure Store where
  stack : List Cell
  locals : List Cell
  deriving DecidableEq, Repr

/-- A computation on a store that may stop. -/
abbrev Machine := StateT Store (Except Halt)

namespace Machine

variable {α : Type}

/-! ## Access to the store -/

/-- Rejects the run. -/
def reject : Machine α := fun _ => .error .rejected

/-- Ends the run. -/
def finish (outcome : Outcome) : Machine α := fun _ => .error (.finished outcome)

/-- Pushes words, of which the first one ends on top. -/
def push (words : List Cell) : Machine Unit := fun store =>
  .ok ((), { store with stack := words ++ store.stack })

def pushInt (value : Int32) : Machine Unit := push (Cell.int value).pushed

def pushLong (value : Int64) : Machine Unit := push (Cell.long value).pushed

def popInt : Machine Int32 := fun store =>
  match store.stack with
  | .int value :: rest => .ok (value, { store with stack := rest })
  | _ => .error .rejected

def popLong : Machine Int64 := fun store =>
  match store.stack with
  | .long value :: .half :: rest => .ok (value, { store with stack := rest })
  | _ => .error .rejected

/-- The int in a variable. -/
def readInt (slot : UInt16) : Machine Int32 := fun store =>
  match store.locals[slot.toNat]? with
  | some (.int value) => .ok (value, store)
  | _ => .error .rejected

/-- The long in a variable. -/
def readLong (slot : UInt16) : Machine Int64 := fun store =>
  match store.locals[slot.toNat]? with
  | some (.long value) => .ok (value, store)
  | _ => .error .rejected

/-- Writes a word into a variable. -/
def write (slot : Nat) (word : Cell) : Machine Unit := fun store =>
  if slot < store.locals.length then .ok ((), { store with locals := store.locals.set slot word })
  else .error .rejected

/-- Replaces the words on top by copies of them. -/
def shuffle (move : Shuffle) : Machine Unit := fun store =>
  match move.copied? store.stack with
  | some copies => .ok ((), { store with stack := copies ++ store.stack.drop move.pops })
  | none => .error .rejected

/-! ## Arithmetic -/

/-- The distance of an int shift: its low five bits. -/
def distance (value : Int32) : Nat := value.toBitVec.toNat % 32

def shiftBits (operator : Shift) (a b : Int32) : Int32 :=
  match operator with
  | .left => .ofBitVec (a.toBitVec <<< distance b)
  | .right => .ofBitVec (a.toBitVec.sshiftRight (distance b))
  | .unsignedRight => .ofBitVec (a.toBitVec >>> distance b)

def combineInts (operator : Bitwise) (a b : Int32) : Int32 :=
  match operator with
  | .and => a &&& b
  | .or => a ||| b
  | .xor => a ^^^ b

def combineLongs (operator : Bitwise) (a b : Int64) : Int64 :=
  match operator with
  | .and => a &&& b
  | .or => a ||| b
  | .xor => a ^^^ b

/-- Whether two ints compare as asked. -/
def compares (comparison : Comparison) (a b : Int32) : Bool :=
  match comparison with
  | .eq => decide (a.toInt = b.toInt)
  | .ne => decide (a.toInt ≠ b.toInt)
  | .lt => decide (a.toInt < b.toInt)
  | .ge => decide (a.toInt ≥ b.toInt)
  | .gt => decide (a.toInt > b.toInt)
  | .le => decide (a.toInt ≤ b.toInt)

/-- The order of two longs as an int. -/
def order (a b : Int64) : Int32 :=
  match compare a.toInt b.toInt with
  | .lt => -1
  | .eq => 0
  | .gt => 1

def arithmeticInt (operator : Arithmetic) : Machine Unit := do
  let b ← popInt
  let a ← popInt
  match operator with
  | .add => pushInt (a + b)
  | .sub => pushInt (a - b)
  | .mul => pushInt (a * b)
  | .div => if b = 0 then finish .threw else pushInt (a / b)
  | .rem => if b = 0 then finish .threw else pushInt (a % b)

def arithmeticLong (operator : Arithmetic) : Machine Unit := do
  let b ← popLong
  let a ← popLong
  match operator with
  | .add => pushLong (a + b)
  | .sub => pushLong (a - b)
  | .mul => pushLong (a * b)
  | .div | .rem => reject

/-! ## Instructions -/

/-- Pushes a constant pool entry. -/
def loadConstant (pool : ConstantPool) (instruction : Instruction) : Machine Unit :=
  match instruction.operand with
  | .constant index =>
    match pool.get index with
    | .ok (.integer value) => pushInt value
    | .ok (.long value) => pushLong value
    | _ => reject
  | _ => reject

/-- What an instruction does that goes on with the next one or ends the run. -/
def perform (pool : ConstantPool) (instruction : Instruction) : Machine Unit :=
  match instruction.operation with
  | .nop => return ()
  | .load .int slot => do pushInt (← readInt (slot.getD instruction.operandSlot))
  | .load .long slot => do pushLong (← readLong (slot.getD instruction.operandSlot))
  | .store .int slot => do
    write (slot.getD instruction.operandSlot).toNat (.int (← popInt))
  | .store .long slot => do
    write (slot.getD instruction.operandSlot).toNat (.long (← popLong))
    write ((slot.getD instruction.operandSlot).toNat + 1) .half
  | .shuffle move => shuffle move
  | .pushInt value => pushInt value
  | .pushLong value => pushLong value
  | .pushImmediate =>
    match instruction.operand with
    | .byte value => pushInt value.toInt32
    | .short value => pushInt value.toInt32
    | _ => reject
  | .loadConstant _ => loadConstant pool instruction
  | .increment =>
    match instruction.operand with
    | .increment slot delta => do write slot.toNat (.int ((← readInt slot) + delta.toInt32))
    | _ => reject
  | .arithmetic operator .int => arithmeticInt operator
  | .arithmetic operator .long => arithmeticLong operator
  | .shift operator .int => do
    let b ← popInt
    let a ← popInt
    pushInt (shiftBits operator a b)
  | .bitwise operator .int => do
    let b ← popInt
    let a ← popInt
    pushInt (combineInts operator a b)
  | .bitwise operator .long => do
    let b ← popLong
    let a ← popLong
    pushLong (combineLongs operator a b)
  | .negate .int => do pushInt (-(← popInt))
  | .convert .int .long => do pushLong (← popInt).toInt64
  | .convert .long .int => do pushInt (← popLong).toInt32
  | .compareLong => do
    let b ← popLong
    let a ← popLong
    pushInt (order a b)
  | .returnValue .int => do finish (.returned (some (.int (← popInt))))
  | .returnValue .long => do finish (.returned (some (.long (← popLong))))
  | .returnVoid => finish (.returned none)
  | _ => reject

/-- The displacement a switch follows, by its place among the displacements; the default is the
first one. -/
def choose (operand : Operand) (key : Int32) : Nat :=
  match operand with
  | .table _ low high _ =>
    if low.toInt ≤ key.toInt ∧ key.toInt ≤ high.toInt then (key.toInt - low.toInt).toNat + 1 else 0
  | .lookup _ cases => ((cases.findIdx? (·.1 == key)).map (· + 1)).getD 0
  | _ => 0

/-- What an instruction does: the displacement that control follows, by its place among the
displacements, or none to go on with the next instruction. -/
def execute (pool : ConstantPool) (instruction : Instruction) : Machine (Option Nat) :=
  match instruction.operation with
  | .branchZero comparison => do
    let a ← popInt
    return if compares comparison a 0 then some 0 else none
  | .branchInt comparison => do
    let b ← popInt
    let a ← popInt
    return if compares comparison a b then some 0 else none
  | .jump => return some 0
  | .switch => do return some (choose instruction.operand (← popInt))
  | _ => do
    perform pool instruction
    return none

/-! ## Runs -/

/-- A store at an offset of a body. -/
structure State extends Store where
  offset : Nat
  deriving DecidableEq, Repr

/-- The offset an exit of the instruction at `offset` leads to. -/
def resolve (instruction : Instruction) (offset : Nat) : Option Nat → Except Halt Nat
  | none => .ok (offset + instruction.length offset)
  | some place =>
    match instruction.displacements[place]? with
    | some displacement =>
      let target := (offset : Int) + displacement.toInt
      if target < 0 then .error .rejected else .ok target.toNat
    | none => .error .rejected

/-- Executes the instruction that the machine is at. -/
def step (pool : ConstantPool) (body : List (Nat × Instruction)) (state : State) :
    Except Halt State :=
  match body.lookup state.offset with
  | some instruction => do
    let (exit, store) ← execute pool instruction state.toStore
    return ⟨store, ← resolve instruction state.offset exit⟩
  | none => .error .rejected

/-- Executes some number of instructions. -/
def run (pool : ConstantPool) (body : List (Nat × Instruction)) : Nat → State → Except Halt State
  | 0, state => .ok state
  | count + 1, state => do run pool body count (← step pool body state)

/-- The state in which a method is entered: its arguments lie in the first variables. -/
def start (maxLocals : Nat) (arguments : List Cell) : State where
  stack := []
  locals := arguments ++ List.replicate (maxLocals - arguments.length) .unset
  offset := 0

/-! ## What a successful access tells -/

section Access

variable {store store' : Store} {slot : UInt16}

theorem push_eq_ok {words : List Cell} (h : push words store = .ok ((), store')) :
    store' = ⟨words ++ store.stack, store.locals⟩ := by
  cases h
  rfl

theorem popInt_eq_ok {value : Int32} (h : popInt store = .ok (value, store')) :
    store = ⟨(Cell.int value).pushed ++ store'.stack, store'.locals⟩ := by
  obtain ⟨stack, locals⟩ := store
  unfold popInt at h
  split at h
  · rename_i heq
    cases h
    cases heq
    rfl
  · cases h

theorem popLong_eq_ok {value : Int64} (h : popLong store = .ok (value, store')) :
    store = ⟨(Cell.long value).pushed ++ store'.stack, store'.locals⟩ := by
  obtain ⟨stack, locals⟩ := store
  unfold popLong at h
  split at h
  · rename_i heq
    cases h
    cases heq
    rfl
  · cases h

theorem readInt_eq_ok {value : Int32} (h : readInt slot store = .ok (value, store')) :
    store' = store ∧ store.locals[slot.toNat]? = some (.int value) := by
  unfold readInt at h
  split at h
  · rename_i heq
    cases h
    exact ⟨rfl, heq⟩
  · cases h

theorem readLong_eq_ok {value : Int64} (h : readLong slot store = .ok (value, store')) :
    store' = store ∧ store.locals[slot.toNat]? = some (.long value) := by
  unfold readLong at h
  split at h
  · rename_i heq
    cases h
    exact ⟨rfl, heq⟩
  · cases h

theorem shuffle_eq_ok {move : Shuffle} (h : shuffle move store = .ok ((), store')) :
    ∃ copies, move.copied? store.stack = some copies ∧
      store' = ⟨copies ++ store.stack.drop move.pops, store.locals⟩ := by
  unfold shuffle at h
  split at h
  · rename_i copies hc
    cases h
    exact ⟨copies, hc, rfl⟩
  · cases h

theorem write_eq_ok {index : Nat} {word : Cell} (h : write index word store = .ok ((), store')) :
    index < store.locals.length ∧ store' = ⟨store.stack, store.locals.set index word⟩ := by
  unfold write at h
  split at h
  · rename_i hlt
    cases h
    exact ⟨hlt, rfl⟩
  · cases h

end Access

end Machine

/-- The words of arguments for parameters of some types; a long takes two of them. There are no
arguments of other than int and long types. -/
inductive Passes : List FieldType → List Cell → Prop where
  | nil : Passes [] []
  | int {type : FieldType} {types : List FieldType} {words : List Cell} (value : Int32)
      (hkind : type.kind = .int) (h : Passes types words) : Passes (type :: types) (.int value :: words)
  | long {type : FieldType} {types : List FieldType} {words : List Cell} (value : Int64)
      (hkind : type.kind = .long) (h : Passes types words) :
      Passes (type :: types) (.long value :: .half :: words)

end JvmTrim
