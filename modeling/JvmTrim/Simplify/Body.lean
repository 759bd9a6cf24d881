import JvmTrim.Edit.Apply
import JvmTrim.SideEffect
import JvmTrim.Simplify.Necessity
import JvmTrim.Simplify.Repair

/-!
# Simplifying a method body

A method body is evaluated, its instructions are reduced and marked, the edits that follow are
collected, and all of them are applied at once.

## Main definitions

* `MethodContext`: a method with everything that its simplification depends on
* `MethodContext.decide`: what happens to the body
* `MethodContext.simplify`: the simplified body
-/

namespace JvmTrim

/-- A method body with everything that its simplification depends on, the constants apart. -/
structure MethodContext where
  /-- The program around the method. -/
  around : Surroundings
  /-- What is assumed about values from outside. -/
  assumptions : Assumptions
  /-- The name of the class. -/
  owner : String
  /-- The method. -/
  method : Method
  /-- Its body. -/
  code : Code

namespace MethodContext

variable (context : MethodContext)

/-- The precise evaluation of the body. -/
def evaluation (pool : ConstantPool) : Except Failure Evaluation :=
  let settings := context.around.settings
  evaluate ⟨context.assumptions, .precise, none, settings.maxVisits⟩ pool context.owner
    context.method context.code

/-- The reached offsets whose instructions have side effects. -/
def sideEffects (pool : ConstantPool) (evaluation : Evaluation) : Except Failure IndexSet :=
  evaluation.instructions.foldlM (fun (found : IndexSet) (offset, instruction) => do
    if evaluation.isTraced offset then
      if ← context.around.hasSideEffects context.owner pool evaluation offset instruction then
        found.add offset
      else return found
    else return found) (IndexSet.ofCapacity evaluation.size)

/-- What happens to the body, given its evaluation. -/
def decideFor (pool : ConstantPool) (evaluation : Evaluation) : Except Failure Decision := do
  let settings := context.around.settings
  let sideEffects ← context.sideEffects pool evaluation
  let reductions ← reductions settings.simplify evaluation sideEffects
  let subject : Subject := {
    pool, owner := context.owner, method := context.method, code := context.code, evaluation
    assumptions := context.assumptions, maxVisits := settings.maxVisits, sideEffects }
  let (marks, reductions) ← subject.mark reductions
  return ⟨evaluation, marks, reductions⟩

/-- What happens to the body. -/
def decide (pool : ConstantPool) : Except Failure Decision := do
  context.decideFor pool (← context.evaluation pool)

/-- The simplified body, and what was done to it; none if nothing changes. -/
def simplify : PoolM (Option (Code × Report)) := do
  let decision ← context.decide (← getThe ConstantPool)
  let (edit, report) ← decision.repair
  if !edit.isModified then return none
  let simplified ← edit.apply context.code (← getThe ConstantPool)
  return if simplified = context.code then none else some (simplified, report)

end MethodContext

/-- What happens to every instruction of a body, in order. -/
def Decision.letters (decision : Decision) : List (Nat × Char) :=
  decision.evaluation.instructions.map fun (offset, _) => (offset, decision.marks.letter offset)

end JvmTrim
