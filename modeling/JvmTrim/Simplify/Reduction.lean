import JvmTrim.Evaluation.Record
import JvmTrim.IndexSet
import JvmTrim.Settings
import JvmTrim.Simplify.ConstantPush

/-!
# Reductions of single instructions

What a single instruction can be replaced by, seen on its own: a push of the constant that it always
gives, a load of a lower variable slot that holds the same value, or the one branch that it always
takes. Instructions with side effects are not reduced.

## Main definitions

* `Reduction`: what stands in for an instruction
* `reductions`: the reductions of a method body
-/

namespace JvmTrim

/-- What stands in for an instruction. -/
inductive Reduction where
  /-- A push of this value. -/
  | constant (value : Value)
  /-- A load of this lower slot, which holds the same value. -/
  | alias (slot : UInt16)
  /-- A jump to this offset. -/
  | goto (target : Nat)
  /-- Nothing: the branch always continues with the next instruction. -/
  | drop
  /-- A jump to itself, for a loop that never ends. -/
  | loop
  deriving DecidableEq, Repr, Inhabited

/-- The reductions of a method body by offset. -/
abbrev Reductions := Array (Option Reduction)

/-- The reduction at an offset inside the body. -/
def Reductions.at (reductions : Reductions) (offset : Nat) : Except Failure (Option Reduction) :=
  orFail (.fault .outOfRange) reductions[offset]?

/-- The reduction of a branch that can continue at one offset only. -/
def reduceBranch? (evaluation : Evaluation) (offset : Nat) :
    Except Failure (Option Reduction) := do
  return (OffsetSet.single? (← evaluation.targets offset)).map fun target =>
    if target = evaluation.nextOffset offset then .drop else .goto target

/-- The lowest slot below `index` whose value is the same as `value`. -/
def lowestAlias? (locals : Locals) (index : UInt16) (value : Value) : Option UInt16 :=
  ((locals.slots.toList.take index.toNat).findIdx? fun slot => slot.value.sameIdentity value).map
    UInt16.ofNat

/-- The reduction of an instruction that pushes a value. -/
def reducePush? (options : SimplifyOptions) (instruction : Instruction) (locals : Option Locals)
    (pushed : Value) : Option Reduction :=
  if pushed.isParticular && pushed.returnAddresses?.isNone then
    let narrows :=
      match instruction.operation with
      | .loadConstant _ => pushed.shortPush?.isSome
      | _ => false
    if options.foldConstants && (!instruction.isConstantPush || narrows) then
      some (.constant pushed)
    else none
  else if options.aliasLoads && pushed.symbol?.isSome then
    match instruction.localAccess?, locals with
    | some (.load, _, index), some locals => (lowestAlias? locals index pushed).map .alias
    | _, _ => none
  else none

/-- The reduction of the instruction at `offset`. -/
def reduce? (options : SimplifyOptions) (evaluation : Evaluation) (offset : Nat)
    (instruction : Instruction) : Except Failure (Option Reduction) :=
  match instruction.flow with
  | .conditional | .switch =>
    if options.simplifyBranches then reduceBranch? evaluation offset else return none
  | .sequential =>
    let reducePush := reducePush? options instruction (evaluation.localsBefore? offset)
    if instruction.isShuffle then return none
    else return (evaluation.pushedValue? offset).bind reducePush
  | _ => return none

/-- The reductions of all instructions that are reached and have no side effects. -/
def reductions (options : SimplifyOptions) (evaluation : Evaluation) (sideEffects : IndexSet) :
    Except Failure Reductions :=
  evaluation.instructions.foldlM (fun (found : Reductions) (offset, instruction) => do
    if evaluation.isTraced offset && !sideEffects.contains offset then
      let reduction ← reduce? options evaluation offset instruction
      let _ ← found.at offset
      return found.setIfInBounds offset reduction
    else return found)
    (Array.replicate evaluation.size none)

end JvmTrim
