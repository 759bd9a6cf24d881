import JvmTrim.Edit.Basic
import JvmTrim.Instruction.StackEffect
import JvmTrim.Instruction.Text
import JvmTrim.Simplify.Marks
import JvmTrim.Simplify.Reduction
import JvmTrim.Statistics

/-!
# Carrying out what was decided

The marks say which instructions stay and which stack words are present. For every instruction the
code around it has to agree with that: an instruction that goes leaves pops for present words that it
took, and a push of some value for a present word that it gave; an instruction that stays is followed
by a pop if the word it gives is not present; a stack manipulation is planned anew from the words that
are left.

## Main definitions

* `Decision`: marks and reductions of an evaluated body
* `RepairState`, `Repair`: edits collected so far, and computations that collect them
* `Decision.repair`: the edits of a body
-/

namespace JvmTrim

/-- What was decided about an evaluated body. -/
structure Decision where
  /-- The evaluation. -/
  evaluation : Evaluation
  /-- The marks. -/
  marks : Marks
  /-- The reductions. -/
  reductions : Reductions

/-- The edits collected so far. -/
structure RepairState where
  /-- The edits. -/
  edit : Edit
  /-- What they do. -/
  report : Report
  /-- Pops that stay to discard what the instruction in front of them gives. -/
  keptPops : IndexSet
  deriving DecidableEq, Repr, Inhabited

/-- A computation that collects edits and may need constants. -/
abbrev Repair := StateT RepairState PoolM

namespace Repair

/-- Changes the edits. -/
def edit (change : Edit → Edit) : Repair Unit :=
  modify fun state => { state with edit := change state.edit }

/-- Changes the report. -/
def count (change : Report → Report) : Repair Unit :=
  modify fun state => { state with report := change state.report }

/-- Replaces the instruction at `offset`, unless by itself. -/
def replace (offset : Nat) (instruction : Instruction) (replacement : List Instruction) :
    Repair Unit :=
  if replacement = [instruction] then pure () else edit (·.replace offset replacement)

/-- Counts an instruction as deleted. -/
def countDeleted : Repair Unit :=
  count fun report => { report with instructionsDeleted := report.instructionsDeleted + 1 }

/-- Counts inserted pops. -/
def countPops (pops : Nat) : Repair Unit :=
  count fun report => { report with popsInserted := report.popsInserted + pops }

/-- Counts an infinite loop. -/
def countLoop : Repair Unit :=
  count fun report => { report with loopsPreserved := report.loopsPreserved + 1 }

end Repair

/-- The pop of one or two words. -/
def popOf (words : Nat) : Instruction := .simple (if words = 2 then Opcode.pop2 else Opcode.pop)

/-- The displacement from `offset` to `target`. -/
def displacementTo (offset target : Nat) : Except Failure Int32 :=
  let distance := (target : Int) - offset
  if -2147483648 ≤ distance ∧ distance ≤ 2147483647 then .ok (Int32.ofInt distance)
  else .error (.invalidBranch offset target)

/-- Pops, the top first, of the present words between `bottom` and a height. A two-word value that
lies wholly between them is popped at once. -/
def Marks.popsDownTo (marks : Marks) (stack : Stack) (bottom : Nat) : Nat → List Instruction
  | 0 => []
  | 1 => if bottom < 1 && marks.wordPresent stack 0 then [popOf 1] else []
  | top + 2 =>
    if top + 2 ≤ bottom then []
    else
      let isWide := ((stack.get? (top + 1)).map (·.value.isWide)).getD false && bottom < top + 1
      let pops := if marks.wordPresent stack (top + 1) then [popOf (if isWide then 2 else 1)] else []
      pops ++ (if isWide then marks.popsDownTo stack bottom top
        else marks.popsDownTo stack bottom (top + 1))

namespace Decision

variable (decision : Decision)

/-- A recorded stack. -/
def recorded (stack : Option Stack) (offset : Nat) : Except Failure Stack :=
  orDefect (.noStackAt offset) stack

/-- Pops of the present words among the `count` words that the instruction at `offset` takes. -/
def inputPops (offset count : Nat) : Except Failure (List Instruction) := do
  let stack ← recorded (decision.evaluation.stackBefore? offset) offset
  if stack.height < count then defect (.underflowAt offset)
  return decision.marks.popsDownTo stack (stack.height - count) stack.height

/-- The value that the instruction at `offset` gives, if it is present. -/
def presentOutput (offset pushes : Nat) : Except Failure (Option Value) := do
  if pushes = 0 then return none
  let after ← recorded (decision.evaluation.stackAfter? offset) offset
  if after.height = 0 then defect (.nothingPushed offset)
  let top := after.height - 1
  if decision.marks.isPresent (.ofInstruction offset) top then
    return (after.get? top).map (·.value)
  else return none

/-- The offset of a pop right behind the instruction at `offset` that discards exactly what it
gives. -/
def discardingPop? (offset pushes : Nat) : Option Nat := do
  let next := decision.evaluation.nextOffset offset
  let instruction ← decision.evaluation.instruction? next
  guard (instruction.opcode = (popOf pushes).opcode && decision.marks.reachable.contains next)
  let top ← (← decision.evaluation.stackBefore? next).peek? 0
  guard (top.producers.elements = [.ofInstruction offset])
  return next

open Repair

/-- Pops what the instruction at `offset` takes, and counts the pops. -/
def popInputs (offset count : Nat) : Repair (List Instruction) := do
  let pops ← decision.inputPops offset count
  countPops pops.length
  return pops

/-- A subroutine call whose return address nobody uses becomes a jump. -/
def repairCall (offset : Nat) (instruction : Instruction) : Repair Unit := do
  let target ← orDefect (.missingSubroutine offset) (← instruction.branchTargets offset).head?
  -- A subroutine that returns takes the address, which nobody was to use.
  if decision.evaluation.isReturning target then
    throw (.malformed (.unusedReturnAddress offset))
  let opcode := if instruction.opcode = Opcode.jsrW then Opcode.gotoW else Opcode.goto
  edit (·.replace offset [⟨opcode, instruction.operand⟩])

/-- Discards what the instruction at `offset` gives. -/
def discardOutput (offset pushes : Nat) : Repair Unit := do
  match decision.discardingPop? offset pushes with
  | some next =>
    let state ← get
    -- The pop that is there already discards it, so it is kept instead of a new one.
    set { state with keptPops := ← state.keptPops.add next }
  | none =>
    edit (·.insertAfter offset [popOf pushes])
    countPops 1

/-- A necessary instruction that is not reduced stays. -/
def repairUnreduced (offset : Nat) (instruction : Instruction) (effect : StackEffect) :
    Repair Unit := do
  let output ← decision.presentOutput offset effect.pushes
  if instruction.operation = .subroutine && output.isNone then
    decision.repairCall offset instruction
  else if effect.pushes > 0 && output.isNone then
    decision.discardOutput offset effect.pushes
  if instruction.operation = .jump then
    if (← instruction.branchTargets offset).head? = some offset then countLoop

/-- A necessary instruction stays or is replaced by its reduction. -/
def repairNecessary (offset : Nat) (instruction : Instruction) (reduction : Option Reduction) :
    Repair Unit := do
  let effect ← instruction.stackEffect (← getThe ConstantPool)
  match reduction with
  | none => decision.repairUnreduced offset instruction effect
  | some (.constant value) =>
    let pops ← decision.popInputs offset effect.pops
    let push ← value.constantPush
    replace offset instruction (pops ++ [push])
    count fun report => { report with constantsFolded := report.constantsFolded + 1 }
  | some (.alias slot) =>
    let (_, kind, _) ←
      orDefect (.aliasWithoutLoad instruction.text offset) instruction.localAccess?
    edit (·.replace offset [.load kind slot])
    count fun report => { report with loadsAliased := report.loadsAliased + 1 }
  | some (.goto target) =>
    let pops ← decision.popInputs offset effect.pops
    let displacement ← displacementTo offset target
    edit (·.replace offset (pops ++ [.branch Opcode.goto displacement]))
  | some .loop =>
    let pops ← decision.popInputs offset effect.pops
    replace offset instruction (pops ++ [.branch Opcode.goto 0])
    countLoop
  | some .drop =>
    let pops ← decision.popInputs offset effect.pops
    edit (·.replace offset pops)
    countDeleted

/-- An instruction that is not necessary goes; pops and a push of some value take its place where
words are present. -/
def repairUnnecessary (offset : Nat) (instruction : Instruction) : Repair Unit := do
  let effect ← instruction.stackEffect (← getThe ConstantPool)
  let placeholder ←
    match ← decision.presentOutput offset effect.pushes with
    | some value => some <$> (value.placeholderPush offset : Except Failure Instruction)
    | none => pure none
  -- The instruction would be replaced by itself.
  if effect.pops = 0 && placeholder = some instruction then return ()
  let pops ← decision.popInputs offset effect.pops
  if placeholder.isSome then
    count fun report => { report with pushesInserted := report.pushesInserted + 1 }
  edit (·.replace offset (pops ++ placeholder.toList))
  countDeleted

/-- A stack manipulation is planned anew. -/
def repairShuffle (offset : Nat) (instruction : Instruction) : Repair Unit := do
  -- A pop that discards what the instruction before it gives has been kept.
  if (← get).keptPops.contains offset then return ()
  let before ← recorded (decision.evaluation.stackBefore? offset) offset
  let (inputs, outputs) ← decision.marks.shuffleWords offset instruction before
  let plan ← orFail (.unsupportedShuffle offset instruction.mnemonic)
    (planShuffles? inputs outputs)
  if plan.isEmpty then countDeleted
  replace offset instruction (plan.map fun move => .simple (Opcode.ofShuffle move))

/-- Repairs the code around the instruction at `offset`. -/
def repairAt (offset : Nat) (instruction : Instruction) : Repair Unit := do
  if !decision.marks.reachable.contains offset then
    edit (·.delete offset)
    countDeleted
  else
    let reduction ← decision.reductions.at offset
    if reduction.isSome && (instruction.flow = .conditional || instruction.flow = .switch) then
      count fun report => { report with branchesSimplified := report.branchesSimplified + 1 }
    if instruction.isShuffle then decision.repairShuffle offset instruction
    else if decision.marks.necessary.contains offset then
      decision.repairNecessary offset instruction reduction
    else decision.repairUnnecessary offset instruction

/-- Collects the edits of a body. -/
def repairAll : Repair Unit := do
  decision.evaluation.instructions.forM fun (offset, instruction) =>
    decision.repairAt offset instruction
  decision.marks.liveHandlers.zipIdx.forM fun (live, index) =>
    if live then pure () else edit (·.removeHandler index)

/-- The edits of a body, and what they do. -/
def repair : PoolM (Edit × Report) := do
  let size := decision.evaluation.size
  let ((), state) ← decision.repairAll.run ⟨Edit.ofSize size, {}, IndexSet.ofCapacity size⟩
  return (state.edit, state.report)

end Decision

end JvmTrim
