import JvmTrim.Evaluation.Record
import JvmTrim.Evaluation.Transfer

/-!
# Evaluating a method body

The frame at the entry is followed along all edges of the control flow until nothing changes. The
lowest pending offset is always taken next; its instruction is executed on the frame recorded before
it, and the resulting frame is joined into the frame before every successor. An offset becomes
pending when the frame before it changes.

An exception handler is entered from every reached instruction that it protects, with the variables
from before that instruction and a stack that holds only the exception.

## Main definitions

* `EvaluationOptions`: what an evaluation assumes and how far it goes
* `entryLocals`: the variables when a method is entered
* `Progress.visit`: one step of the iteration
* `evaluate`: the evaluation of a method body
-/

namespace JvmTrim

/-- What an evaluation assumes and how far it goes. -/
structure EvaluationOptions where
  /-- What is assumed about values from outside. -/
  assumptions : Assumptions
  /-- How much is kept of values. -/
  detail : Detail
  /-- The only offsets that may be entered, if there is such a restriction. -/
  restriction : Option IndexSet
  /-- How often one offset may be visited. -/
  maxVisits : Nat

namespace EvaluationOptions

/-- How often one offset may be visited if nothing else is said. -/
def defaultMaxVisits : Nat := 1000

/-- A precise evaluation. -/
def precise (assumptions : Assumptions) : EvaluationOptions :=
  ⟨assumptions, .precise, none, defaultMaxVisits⟩

/-- A simple evaluation, possibly restricted to some offsets. -/
def simple (assumptions : Assumptions) (restriction : Option IndexSet) : EvaluationOptions :=
  ⟨assumptions, .simple, restriction, defaultMaxVisits⟩

/-- Whether control may enter an offset. -/
def allows (options : EvaluationOptions) (offset : Nat) : Bool :=
  match options.restriction with
  | some set => set.contains offset
  | none => true

/-- The value of a parameter slot when a method is entered. -/
def parameter (options : EvaluationOptions) (owner : String) (method : Method) (slot : UInt16)
    (kind : Kind) (notNull : Bool) : Value :=
  match options.detail.supplied? kind (options.assumptions.parameter owner method slot) with
  | some value => value
  | none => options.detail.named kind (.parameter slot) notNull

end EvaluationOptions

/-- Stores parameters into consecutive slots. -/
def storeParameters (options : EvaluationOptions) (owner : String) (method : Method) :
    List FieldType → UInt16 → Locals → Except Failure Locals
  | [], _, locals => .ok locals
  | type :: rest, slot, locals => do
    let value := options.parameter owner method slot type.kind false
    let locals ← locals.store slot value (OrderedSet.singleton .entry)
    storeParameters options owner method rest (slot + type.size.toUInt16) locals

/-- The variables when a method is entered: the receiver, the parameters, and unusable slots. -/
def entryLocals (options : EvaluationOptions) (owner : String) (method : Method)
    (maxLocals : UInt16) : Except Failure Locals := do
  let descriptor ← MethodDescriptor.parse method.descriptor
  let locals := Locals.ofSize maxLocals.toNat
  if method.isStatic then
    storeParameters options owner method descriptor.parameters 0 locals
  else
    let receiver := options.parameter owner method 0 .reference true
    let locals ← locals.store 0 receiver (OrderedSet.singleton .entry)
    storeParameters options owner method descriptor.parameters 1 locals

/-- The state of the iteration. -/
structure Progress where
  /-- What is known so far. -/
  evaluation : Evaluation
  /-- The offsets whose frames changed since they were last visited. -/
  pending : OffsetSet
  /-- How often each offset was visited. -/
  visits : Array Nat
  deriving Repr, Inhabited

/-- What holds of both frames before `offset`, which need stacks of the same height. -/
def Frame.joinAt (offset : Nat) (old new : Frame) : Except Failure Frame :=
  match old.stack.join new.stack with
  | .ok stack => .ok ⟨old.locals.join new.locals, stack⟩
  | .error _ => defect (.mergeHeights offset old.stack.height new.stack.height)

namespace Progress

/-- Joins a frame into the frame before `offset`, which becomes pending if that changes it. -/
def merge (progress : Progress) (offset : Nat) (frame : Frame) : Except Failure Progress := do
  match progress.evaluation.before? offset with
  | some old =>
    let joined ← old.joinAt offset frame
    if joined = old then return progress
    else
      let evaluation ← progress.evaluation.modifySite offset fun site =>
        { site with before := some joined }
      return { progress with evaluation, pending := progress.pending.insert offset }
  | none =>
    let evaluation ← progress.evaluation.modifySite offset fun site =>
      { site with before := some frame }
    return { progress with evaluation, pending := progress.pending.insert offset }

/-- Counts a visit of an offset, up to a limit. -/
def count (progress : Progress) (offset limit : Nat) : Except Failure Progress := do
  let visits ← orFail (.fault .outOfRange) progress.visits[offset]?
  if visits + 1 > limit then .error (.visitLimit offset limit)
  else return { progress with visits := progress.visits.setIfInBounds offset (visits + 1) }

end Progress

/-- Marks the subroutines returned from at `offsets`. -/
def Evaluation.markReturning (evaluation : Evaluation) (offsets : List Nat) :
    Except Failure Evaluation :=
  offsets.foldlM (fun (evaluation : Evaluation) offset =>
    match evaluation.returnPoints.lookup offset with
    | some entry => do return { evaluation with returning := ← evaluation.returning.add entry }
    | none => return evaluation) evaluation

/-- Records what the instruction at `offset` did beside changing the frame. -/
def Evaluation.note (evaluation : Evaluation) (method : Method) (offset : Nat) :
    Option Event → Except Failure Evaluation
  | some (.initialization (some (.instruction created))) =>
    -- A later call replaces the one that is recorded for the object.
    if ((evaluation.instruction? created).map (·.operation)) = some .newObject then
      .ok { evaluation with
        initializations := assign created offset evaluation.initializations }
    else .ok evaluation
  | some (.initialization (some (.parameter slot))) =>
    -- The first parameter of a constructor is the object itself, which its superclass initializes.
    if slot = 0 && method.isConstructor then
      .ok { evaluation with superInitialization := some offset }
    else .ok evaluation
  | some (.call target returnOffset) =>
    .ok { evaluation with returnPoints := assign returnOffset target evaluation.returnPoints }
  | some (.return offsets) => evaluation.markReturning offsets.elements
  | _ => .ok evaluation

/-- The frame with which a handler is entered from an instruction with these variables. -/
def handlerFrame (detail : Detail) (target : Nat) (locals : Locals) : Frame where
  locals := locals.forget (.caught target)
  stack := Stack.empty.push (detail.named .reference (.caught target) true)
    (OrderedSet.singleton (.handler target))

namespace Progress

variable (options : EvaluationOptions)

/-- Enters the handlers that protect `offset`. -/
def enterHandlers (progress : Progress) (handlers : List Handler) (offset : Nat)
    (locals : Locals) : Except Failure Progress :=
  handlers.foldlM (fun (progress : Progress) handler =>
    if !handler.covers offset || !options.allows handler.target then .ok progress
    else if (progress.evaluation.instruction? handler.target).isNone then
      .error (.invalidBranch offset handler.target)
    else progress.merge handler.target (handlerFrame options.detail handler.target locals))
    progress

/-- Continues at the successors of `offset`. -/
def enterSuccessors (progress : Progress) (successors : List Nat) (offset : Nat)
    (frame : Frame) : Except Failure Progress :=
  successors.foldlM (fun (progress : Progress) successor =>
    if (progress.evaluation.instruction? successor).isNone then
      .error (.invalidBranch offset successor)
    else if !options.allows successor then .ok progress
    else do
      let evaluation ← progress.evaluation.modifySite offset fun site =>
        { site with targets := OffsetSet.record site.targets successor }
      let evaluation ← evaluation.modifySite successor fun site =>
        { site with origins := OffsetSet.record site.origins offset }
      merge { progress with evaluation } successor frame)
    progress

/-- Visits an offset: executes its instruction and passes the result on. -/
def visit (pool : ConstantPool) (method : Method) (handlers : List Handler) (offset : Nat)
    (progress : Progress) : Except Failure Progress := do
  let progress ← progress.count offset options.maxVisits
  let evaluation := progress.evaluation
  let instruction ← orDefect (.noInstruction offset) (evaluation.instruction? offset)
  let before ← orDefect (.noState offset) (evaluation.before? offset)
  let context : Context := ⟨pool, options.detail, options.assumptions⟩
  let step ← context.execute offset (evaluation.nextOffset offset) instruction before
  let evaluation := { evaluation with traced := ← evaluation.traced.add offset }
  let evaluation ← evaluation.note method offset step.event
  let progress := { progress with evaluation }
  -- An exception leaves the variables as they were before the instruction.
  let progress ← progress.enterHandlers options handlers offset before.locals
  let progress ← progress.enterSuccessors options step.successors offset step.frame
  let evaluation ← progress.evaluation.modifySite offset fun site =>
    { site with after := some step.frame }
  return { progress with evaluation }

/-- Visits pending offsets, the lowest first, until there are none. -/
def iterate (pool : ConstantPool) (method : Method) (handlers : List Handler) :
    Nat → Progress → Except Failure Evaluation
  | bound, progress =>
    match progress.pending.popFirst? with
    | none => .ok progress.evaluation
    | some (offset, rest) =>
      match bound with
      | 0 => .error (.fault .exhausted)
      | bound + 1 => do
        let progress := { progress with pending := rest }
        iterate pool method handlers bound (← progress.visit options pool method handlers offset)

end Progress

/-- Evaluates a method body of a class. Every visit counts for its offset, so the visits that the
options allow bound the iteration. -/
def evaluate (options : EvaluationOptions) (pool : ConstantPool) (owner : String)
    (method : Method) (code : Code) : Except Failure Evaluation := do
  let listing ← Listing.ofCode code.bytes
  let evaluation := Evaluation.blank listing
  if listing.size = 0 || !options.allows 0 then return evaluation
  let start : Progress := ⟨evaluation, OrderedSet.empty, Array.replicate listing.size 0⟩
  let locals ← entryLocals options owner method code.maxLocals
  let start ← start.merge 0 ⟨locals, Stack.empty⟩
  start.iterate options pool method code.handlers (listing.size * options.maxVisits + 1)

end JvmTrim
