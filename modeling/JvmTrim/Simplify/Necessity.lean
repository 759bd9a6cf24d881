import JvmTrim.Instruction.StackEffect
import JvmTrim.Instruction.Text
import JvmTrim.Simplify.Marks
import JvmTrim.Simplify.Reduction

/-!
# Marking what is necessary

Marking starts with the instructions that have side effects and follows values back to whatever
produced them. Words that a `dup` or `swap` gives are followed to the words it copies, so stack
manipulations are never necessary themselves. Three more rules add marks until nothing changes:

* a branch is necessary if it jumps over code that stays;
* a store is necessary if a necessary instruction reads the variable, also along edges that the
  precise evaluation ruled out;
* a loop of which nothing is left and which has no way out is kept as a jump to itself.

A handler is live while its range protects a necessary instruction. Handlers that turn out dead make
less code reachable, so marking then starts again without them.

## Main definitions

* `Subject`: a method body with its evaluation
* `Subject.visit`: the marks that follow from one mark
* `Subject.propagate`: all marks that follow from some marks
* `Subject.saturate`: the marks for given live handlers
* `Subject.mark`: the marks of a method body
-/

namespace JvmTrim

/-- A method body that is to be simplified, with what is known of it. -/
structure Subject where
  /-- The constants of its class. -/
  pool : ConstantPool
  /-- The name of its class. -/
  owner : String
  /-- The method. -/
  method : Method
  /-- Its body. -/
  code : Code
  /-- The precise evaluation of the body. -/
  evaluation : Evaluation
  /-- What the evaluation assumed. -/
  assumptions : Assumptions
  /-- How often one offset may be visited in a further evaluation. -/
  maxVisits : Nat
  /-- The reached offsets whose instructions have side effects. -/
  sideEffects : IndexSet

namespace Subject

variable (subject : Subject)

/-! ## Looking up -/

/-- The instruction at an offset. -/
def instruction (offset : Nat) : Except Failure Instruction :=
  orDefect (.noInstruction offset) (subject.evaluation.instruction? offset)

/-- The stack before an offset. -/
def stackBefore (offset : Nat) : Except Failure Stack :=
  orDefect (.noStackBefore offset) (subject.evaluation.stackBefore? offset)

/-- The marks that make every producer of a word satisfy `mark`. -/
def producers (mark : StackWord → Mark) (stack : Stack) (position : Nat) : List Mark :=
  match stack.get? position with
  | some word => word.producers.elements.map fun origin => mark ⟨origin, position⟩
  | none => []

/-- The offset of the first target of a `goto`. -/
def gotoTarget? (offset : Nat) (instruction : Instruction) : Except Failure (Option Nat) := do
  if instruction.operation = .jump then return (← instruction.branchTargets offset).head?
  else return none

/-- For a word that a `dup` or `swap` gives, the position of the word that it copies. -/
def sourcePosition (offset position : Nat) : Except Failure (Option Nat) := do
  let instruction ← subject.instruction offset
  match instruction.shuffle? with
  | none => return none
  | some move =>
    if !move.copies then return none
    let before ← subject.stackBefore offset
    if before.height < move.pops then defect (.underflowAt offset)
    let base := before.height - move.pops
    let missing := Defect.noWordPushed instruction.text offset position
    if position < base then defect missing
    return some (base + (← orDefect missing move.outputs[position - base]?))

/-- The marks that make the producers of a variable necessary, as an evaluation knows them. -/
def variableProducers (marks : Marks) (evaluation : Evaluation) (offset : Nat) (slot : UInt16) :
    Except Failure (List Mark) := do
  match evaluation.localsBefore? offset with
  | none => return []
  | some locals =>
    return (OriginSet.instructions (← locals.load slot).producers).flatMap marks.require

/-! ## What follows from a mark -/

/-- What follows from a necessary instruction that is not reduced: the words and variables that it
reads are needed, and an object creation needs its initializer. -/
def visitUnreduced (marks : Marks) (offset : Nat) (instruction : Instruction) :
    Except Failure (List Mark) := do
  let stack ← subject.stackBefore offset
  let effect ← instruction.stackEffect subject.pool
  if stack.height < effect.pops then defect (.underflowAt offset)
  let bottom := stack.height - effect.pops
  let words := (List.range' bottom effect.pops).flatMap (producers .needed stack)
  let reads ←
    match instruction.readSlot? with
    | some slot => variableProducers marks subject.evaluation offset slot
    | none => pure []
  let initializer :=
    if instruction.operation = .newObject then
      ((subject.evaluation.initialization? offset).map marks.require).getD []
    else []
  return words ++ reads ++ initializer

/-- What follows from an instruction that is necessary. -/
def visitNecessary (reductions : Reductions) (marks : Marks) (offset : Nat) :
    Except Failure (List Mark) := do
  let instruction ← subject.instruction offset
  match ← reductions.at offset with
  | some (.alias slot) => variableProducers marks subject.evaluation offset slot
  | some _ => return []
  | none =>
    if instruction.isShuffle then return []
    else subject.visitUnreduced marks offset instruction

/-- What follows from a word that is needed: it is present, and its producer is necessary, or the
word that it copies is needed. -/
def visitNeeded (marks : Marks) (word : StackWord) : Except Failure (List Mark) := do
  let present := Mark.present word
  match word.origin.instruction? with
  | none => return [present]
  | some offset =>
    if !marks.reachable.contains offset then return [present]
    match ← subject.sourcePosition offset word.position with
    | some source => return present :: producers .needed (← subject.stackBefore offset) source
    | none => return present :: marks.require offset

/-- What follows at its producer from a word that is present: the word that it copies and the other
half of a two-word value are present. -/
def visitProducer (marks : Marks) (word : StackWord) : Except Failure (List Mark) := do
  match word.origin.instruction? with
  | none => return []
  | some offset =>
    if !marks.reachable.contains offset then return []
    let copied ←
      match ← subject.sourcePosition offset word.position with
      | some source => pure (producers .present (← subject.stackBefore offset) source)
      | none => pure []
    let partner := do (← subject.evaluation.stackAfter? offset).partner? word.position
    return copied ++ (partner.map fun position => Mark.present ⟨word.origin, position⟩).toList

/-- The reachable offsets before which a word is on the stack. -/
def occurrences (marks : Marks) (word : StackWord) : List Nat :=
  marks.reachable.toList.filter fun offset =>
    match (subject.evaluation.stackBefore? offset).bind (·.get? word.position) with
    | some slot => slot.producers.elements.contains word.origin
    | none => false

/-- What follows where it occurs from a word that is present: all other producers of the same word
and of the other half of a two-word value are present. -/
def visitOccurrence (word : StackWord) (offset : Nat) : Except Failure (List Mark) := do
  let stack ← subject.stackBefore offset
  let positions := word.position :: (stack.partner? word.position).toList
  return positions.flatMap (producers .present stack)

/-- What follows from a word that is present. -/
def visitPresent (marks : Marks) (word : StackWord) : Except Failure (List Mark) := do
  let producer ← subject.visitProducer marks word
  let elsewhere ← (subject.occurrences marks word).mapM (subject.visitOccurrence word)
  return producer ++ elsewhere.flatten

/-- What follows from a mark. -/
def visit (reductions : Reductions) (marks : Marks) : Mark → Except Failure (List Mark)
  | .necessary offset => subject.visitNecessary reductions marks offset
  | .needed word => subject.visitNeeded marks word
  | .present word => subject.visitPresent marks word

/-- Sets marks and all marks that follow from them, the latest first. Every step sets a mark that was
not set before. -/
def propagate (reductions : Reductions) : Nat → List Mark → Marks → Except Failure Marks
  | bound, pending, marks =>
    match pending.dropWhile marks.has with
    | [] => .ok marks
    | mark :: rest =>
      match bound with
      | 0 => .error (.fault .exhausted)
      | bound + 1 => do
        let marks ← marks.set mark
        let following ← subject.visit reductions marks mark
        propagate reductions bound (following.reverse ++ rest) marks

/-- The largest height of a recorded stack. -/
def highestStack : Nat :=
  subject.evaluation.sites.foldl (fun highest site =>
    let height (frame : Option Frame) := (frame.map (·.stack.height)).getD 0
    max highest (max (height site.before) (height site.after))) 0

/-- A bound on the number of marks: one for every offset, and two for every word, whose origin is
the entry, a handler or an instruction and whose position lies in some recorded stack. -/
def markBound : Nat :=
  let size := subject.evaluation.size
  size + 2 * (size + subject.code.handlers.length + 1) * (subject.highestStack + 1)

/-! ## Code that stays -/

/-- Whether an instruction that is not necessary leaves something in its place. -/
def leavesCode (marks : Marks) (offset : Nat) : Except Failure Bool := do
  let instruction ← subject.instruction offset
  let before ← subject.stackBefore offset
  if instruction.isShuffle then
    let (inputs, outputs) ← marks.shuffleWords offset instruction before
    return (planShuffles? inputs outputs).all (!·.isEmpty)
  else
    let effect ← instruction.stackEffect subject.pool
    -- Present words that it took are popped, and a placeholder stands for those it gave.
    let consumed := List.range' (before.height - effect.pops) (min effect.pops before.height)
    let produced :=
      match subject.evaluation.stackAfter? offset with
      | some after =>
        List.range' (after.height - effect.pushes) (min effect.pushes after.height)
      | none => []
    return consumed.any (marks.wordPresent before ·) ||
      produced.any (marks.isPresent (.ofInstruction offset) ·)

/-- The offsets for which the simplified body holds code. -/
def liveCode (marks : Marks) : Except Failure IndexSet :=
  marks.reachable.toList.foldlM (fun (live : IndexSet) offset => do
    if marks.necessary.contains offset then return live
    else if ← subject.leavesCode marks offset then live.add offset
    else return live) marks.necessary

/-! ## Further rules -/

/-- The targets of the branch at `offset` that has to stay if it jumps over code. -/
def straddlingTargets (reductions : Reductions) (offset : Nat) : Except Failure (List Nat) := do
  match ← reductions.at offset with
  | some (.goto target) => return [target]
  | some _ => return []
  | none =>
    match (← subject.instruction offset).flow with
    | .conditional | .unconditional | .switch =>
      return (← subject.evaluation.targets offset).elements
    | _ => return []

/-- Whether live code lies between the instruction at `offset` and a target. -/
def straddles (live : IndexSet) (offset target : Nat) : Bool :=
  let next := subject.evaluation.nextOffset offset
  -- A branch back jumps over what lies between its target and itself.
  if next ≤ target then live.anyIn next target else live.anyIn target offset

/-- The marks of unnecessary branches that jump over live code. -/
def straddlingBranches (reductions : Reductions) (marks : Marks) : Except Failure (List Mark) := do
  let live ← subject.liveCode marks
  let found ← marks.reachable.toList.mapM fun offset => do
    if marks.necessary.contains offset then return []
    else if (← subject.straddlingTargets reductions offset).any (subject.straddles live offset) then
      return marks.require offset
    else return []
  return found.flatten

/-- The slot that a necessary instruction reads, once it is reduced. -/
def slotRead? (reductions : Reductions) (offset : Nat) : Except Failure (Option UInt16) := do
  match ← reductions.at offset with
  | some (.alias slot) => return some slot
  | some _ => return none
  | none => return (← subject.instruction offset).readSlot?

/-- The marks of stores that, as the simple evaluation knows them, write a variable that a necessary
instruction reads. -/
def missingStores (reductions : Reductions) (simple : Evaluation) (marks : Marks) :
    Except Failure (List Mark) := do
  let found ← marks.necessary.toList.mapM fun offset => do
    match ← subject.slotRead? reductions offset with
    | some slot => variableProducers marks simple offset slot
    | none => return []
  return found.flatten

/-- The target of a backward `goto`, also of a branch that is reduced to one. -/
def backwardGoto? (reduction : Option Reduction) (offset : Nat) : Except Failure (Option Nat) := do
  let target ←
    match reduction with
    | some (.goto target) => pure (some target)
    | some _ => pure none
    | none => gotoTarget? offset (← subject.instruction offset)
  return target.filter (· ≤ offset)

/-- Where control continues after a reduced instruction. -/
def reducedTargets (reduction : Option Reduction) (offset : Nat) : Except Failure (List Nat) := do
  match reduction with
  | some (.goto target) => return [target]
  | some .drop => return [subject.evaluation.nextOffset offset]
  | some .loop => return [offset]
  | _ => return (← subject.evaluation.targets offset).elements

/-- Whether control can leave the range from `head` to `offset` from the instruction at `inner`. -/
def leavesFrom (reductions : Reductions) (marks : Marks) (head offset inner : Nat) :
    Except Failure Bool := do
  let outside (target : Nat) : Bool := target < head || offset < target
  match (← subject.instruction inner).flow with
  | .return | .throw => return true
  | _ =>
    let targets ← subject.reducedTargets (← reductions.at inner) inner
    let caught := (subject.code.handlers.zip marks.liveHandlers).any fun (handler, live) =>
      live && handler.covers inner && outside handler.target
    return targets.any outside || caught

/-- Whether some answer in a list of questions is yes, asked in order. -/
def anyE {α : Type} (ask : α → Except Failure Bool) : List α → Except Failure Bool
  | [] => return false
  | head :: tail => do if ← ask head then return true else anyE ask tail

/-- Whether control can leave the range from `head` to `offset` before it gets to `offset`. -/
def loopExits (reductions : Reductions) (marks : Marks) (head offset : Nat) :
    Except Failure Bool :=
  anyE (subject.leavesFrom reductions marks head offset)
    (marks.reachable.toList.filter fun inner => head ≤ inner && inner < offset)

/-- Whether the instruction at `offset` closes a loop of which nothing is left and which has no way
out. -/
def closesEmptyLoop (reductions : Reductions) (marks : Marks) (live : IndexSet) (offset : Nat) :
    Except Failure Bool := do
  if marks.necessary.contains offset then return false
  match ← subject.backwardGoto? (← reductions.at offset) offset with
  | none => return false
  | some head =>
    if live.anyIn head offset then return false
    let before ← subject.stackBefore offset
    let pops := (← (← subject.instruction offset).stackEffect subject.pool).pops
    -- Pops of present operands would be code of the loop.
    let consumed := List.range' (before.height - pops) (min pops before.height)
    if consumed.any (marks.wordPresent before ·) then return false
    return !(← subject.loopExits reductions marks head offset)

/-- The first member of a list that an answer is yes for. -/
def findE? {α : Type} (ask : α → Except Failure Bool) : List α → Except Failure (Option α)
  | [] => return none
  | head :: tail => do if ← ask head then return some head else findE? ask tail

/-- The first instruction that closes a loop of which nothing is left and which has no way out. -/
def emptyLoop? (reductions : Reductions) (marks : Marks) : Except Failure (Option Nat) := do
  let live ← subject.liveCode marks
  findE? (subject.closesEmptyLoop reductions marks live) marks.reachable.toList

/-- The reductions in which loops are taken back of which code is left after all. -/
def revertLoops (earlier reductions : Reductions) (marks : Marks) : Except Failure Reductions := do
  let live ← subject.liveCode marks
  (List.range reductions.size).foldlM (fun (reductions : Reductions) offset => do
    if (← reductions.at offset) = some .loop then
      let reduction ← earlier.at offset
      let head ← subject.backwardGoto? reduction offset
      -- Marks that were set later have filled the loop.
      if head.any (live.anyIn · offset) then return reductions.setIfInBounds offset reduction
      else return reductions
    else return reductions) reductions

/-! ## Marking a body -/

/-- Adds the offsets that can be reached from pending ones. Every step adds an offset. -/
def reach : Nat → List Nat → IndexSet → Except Failure IndexSet
  | bound, pending, reached =>
    match pending.dropWhile fun o => !subject.evaluation.isTraced o || reached.contains o with
    | [] => .ok reached
    | offset :: rest =>
      match bound with
      | 0 => .error (.fault .exhausted)
      | bound + 1 => do
        let targets ← subject.evaluation.targets offset
        reach bound (targets.elements ++ rest) (← reached.add offset)

/-- The targets of the live handlers. -/
def liveTargets (live : List Bool) : List Nat :=
  ((subject.code.handlers.zip live).filter (·.2)).map (·.1.target)

/-- No marks, for given live handlers. -/
def unmarked (live : List Bool) : Except Failure Marks := do
  let size := subject.evaluation.size
  let reachable ← subject.reach size (0 :: subject.liveTargets live) (IndexSet.ofCapacity size)
  return ⟨reachable, IndexSet.ofCapacity size, live, [], []⟩

/-- Whether the instruction at `offset` is necessary whatever else is. -/
def isRoot (reductions : Reductions) (offset : Nat) : Except Failure Bool := do
  let target ← gotoTarget? offset (← subject.instruction offset)
  if target = some offset then return true
  else if subject.sideEffects.contains offset then return (← reductions.at offset).isNone
  else return false

/-- The marks that marking starts with. -/
def roots (reductions : Reductions) (marks : Marks) : Except Failure (List Mark) := do
  let exceptions := (subject.liveTargets marks.liveHandlers).map fun target =>
    Mark.present ⟨.handler target, 0⟩
  let initialization := (subject.evaluation.superInitialization.map marks.require).getD []
  let offsets ← marks.reachable.toList.filterM (subject.isRoot reductions)
  return exceptions ++ initialization ++ offsets.flatMap marks.require

/-- Applies all rules until nothing changes. Every step but the last makes an instruction
necessary. -/
def saturate (simple : Evaluation) :
    Nat → List Mark → Reductions → Marks → Except Failure (Marks × Reductions)
  | bound, pending, reductions, marks => do
    let marks ← subject.propagate reductions subject.markBound pending.reverse marks
    let branches ← subject.straddlingBranches reductions marks
    let stores ← subject.missingStores reductions simple marks
    let following := branches ++ stores
    -- A loop is only taken for empty when no other rule puts code into it.
    let loop ← if following.isEmpty then subject.emptyLoop? reductions marks else pure none
    let (following, reductions) :=
      match loop with
      | some offset => (marks.require offset, reductions.setIfInBounds offset (some .loop))
      | none => (following, reductions)
    if following.isEmpty then return (marks, reductions)
    else
      match bound with
      | 0 => .error (.fault .exhausted)
      | bound + 1 => saturate simple bound following reductions marks

/-- The marks and reductions of a body with given live handlers. -/
def markWith (reductions : Reductions) (live : List Bool) :
    Except Failure (Marks × Reductions) := do
  let marks ← subject.unmarked live
  let options : EvaluationOptions :=
    ⟨subject.assumptions, .simple, some marks.reachable, subject.maxVisits⟩
  let simple ← evaluate options subject.pool subject.owner subject.method subject.code
  let roots ← subject.roots reductions marks
  subject.saturate simple subject.evaluation.size roots reductions marks

/-- The handlers that are still live: those that protect a necessary instruction. -/
def stillLive (marks : Marks) : List Bool :=
  (subject.code.handlers.zip marks.liveHandlers).map fun (handler, live) =>
    live && marks.necessary.anyIn handler.start handler.stop

/-- Marks a body, again with fewer live handlers as long as some of them turn out dead. -/
def markFrom (reductions : Reductions) :
    Nat → List Bool → Except Failure (Marks × Reductions)
  | bound, live => do
    let (marks, reduced) ← subject.markWith reductions live
    -- A handler that protects nothing necessary is never entered, so its code may go as well.
    let left := subject.stillLive marks
    if left = live then return (marks, ← subject.revertLoops reductions reduced marks)
    else
      match bound with
      | 0 => .error (.fault .exhausted)
      | bound + 1 => markFrom reductions bound left

/-- The marks of a body, and its reductions with the loops that are kept. -/
def mark (reductions : Reductions) : Except Failure (Marks × Reductions) :=
  subject.markFrom reductions subject.code.handlers.length
    (subject.code.handlers.map fun handler => subject.evaluation.isTraced handler.target)

end Subject

end JvmTrim
