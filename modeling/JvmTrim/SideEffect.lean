import JvmTrim.Hierarchy
import JvmTrim.KeepSet
import JvmTrim.Linkage
import JvmTrim.Settings

/-!
# Side effects

Whether an instruction does more than move values between the stack and the variables. Such an
instruction has to stay even if nobody uses its result. With conservative settings that includes
instructions that may throw, unless the evaluation shows that they do not.

## Main definitions

* `Surroundings`: what is known of the program around a method
* `Surroundings.hasSideEffects`
-/

namespace JvmTrim

/-- What is known of the program around a method. -/
structure Surroundings where
  /-- The class hierarchy. -/
  hierarchy : Hierarchy
  /-- The settings. -/
  settings : Settings
  /-- What has to stay. -/
  keep : KeepSet

namespace Surroundings

variable (around : Surroundings)

/-- Whether using class `target` from class `user` may run a static initializer. -/
def triggersInitializer (user target : String) : Bool :=
  !isArrayName target && around.hierarchy.mayTriggerInitializer user target

/-- Whether calling a method from class `user` has side effects. -/
def callHasSideEffects (mode : Invocation) (user : String) (method : MemberRef) : Bool :=
  if !around.settings.isPure method || around.keep.keepsMember method.key then true
  else mode = .static && around.triggersInitializer user method.owner

/-- Whether reading a static field from class `user` has side effects. -/
def readHasSideEffects (user : String) (field : MemberRef) : Bool :=
  let declaring :=
    match around.hierarchy.resolve? field with
    | some resolved => resolved.owner
    | none => field.owner
  around.triggersInitializer user declaring

/-- Whether an instruction without an effect on anything else may throw, where `top` is the value on
top of the stack. -/
def mayThrow (operation : Operation) (top : Option Value) : Bool :=
  match operation with
  | .arithmetic .div .int | .arithmetic .rem .int =>
    !((top.bind (·.int?)).any (· != 0))
  | .arithmetic .div .long | .arithmetic .rem .long =>
    !((top.bind (·.long?)).any (· != 0))
  | .arrayLoad _ | .arrayLength | .newMultiArray => true
  | .getField false => !(top.any (·.isNotNull))
  | .checkCast => !(top.any (·.isNull))
  | .newArray => !((top.bind (·.int?)).any (0 ≤ ·))
  | _ => false

/-- Whether the instruction at `offset` of a method of class `owner` has side effects. -/
def hasSideEffects (owner : String) (pool : ConstantPool) (evaluation : Evaluation)
    (offset : Nat) (instruction : Instruction) : Except Failure Bool :=
  let top := ((evaluation.stackBefore? offset).bind (·.peek? 0)).map (·.value)
  match instruction.operation with
  | .store .. => return top.any (·.returnAddresses?.isSome)
  | .arrayStore _ | .putField _ | .monitor => return true
  | .returnValue _ | .returnVoid | .raise | .subroutine | .ret => return true
  | .invoke .dynamic => return true
  | .invoke mode => return around.callHasSideEffects mode owner (← instruction.member pool)
  | .getField true => return around.readHasSideEffects owner (← instruction.member pool)
  | .newObject => do
    let index ← orDefect .missingClass instruction.constantIndex?
    return around.triggersInitializer owner (← pool.className index)
  | operation => return around.settings.conservative && mayThrow operation top

end Surroundings

end JvmTrim
