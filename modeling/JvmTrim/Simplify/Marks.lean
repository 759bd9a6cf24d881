import JvmTrim.Evaluation.Record
import JvmTrim.Shuffle
import JvmTrim.Simplify.StackPlan

/-!
# Marks

What is decided about a method body before it is changed: which instructions are necessary, and which
stack words are present. A stack word is named by its producer and its position. A word that a
necessary instruction takes is needed; a needed word is present, and so is every word that has to be
there because some other path to the same place brings one.

## Main definitions

* `StackWord`, `Mark`, `Marks`
* `Marks.wordPresent`: whether a position of a recorded stack is present
* `Marks.shuffleWords`: what is left of the words that a stack manipulation takes and gives
-/

namespace JvmTrim

/-- A stack word, named by its producer and its position. -/
structure StackWord where
  /-- What produced it. -/
  origin : Origin
  /-- Its position, counted from the bottom. -/
  position : Nat
  deriving DecidableEq, Repr, Inhabited

/-- A single mark. -/
inductive Mark where
  /-- The instruction at an offset stays, possibly reduced. -/
  | necessary (offset : Nat)
  /-- A necessary instruction takes the word. -/
  | needed (word : StackWord)
  /-- The word is on the stack. -/
  | present (word : StackWord)
  deriving DecidableEq, Repr, Inhabited

/-- The marks of a method body. -/
structure Marks where
  /-- The offsets reachable from the entry or from a live handler. -/
  reachable : IndexSet
  /-- The offsets whose instructions stay. -/
  necessary : IndexSet
  /-- For every entry of the exception table, whether it stays. -/
  liveHandlers : List Bool
  /-- The words that necessary instructions take. -/
  needed : List StackWord
  /-- The words that are on the stack. -/
  present : List StackWord
  deriving DecidableEq, Repr, Inhabited

namespace Marks

/-- Whether a mark is set. -/
def has (marks : Marks) : Mark → Bool
  | .necessary offset => marks.necessary.contains offset
  | .needed word => marks.needed.contains word
  | .present word => marks.present.contains word

/-- Sets a mark. -/
def set (marks : Marks) : Mark → Except Failure Marks
  | .necessary offset => return { marks with necessary := ← marks.necessary.add offset }
  | .needed word => return { marks with needed := word :: marks.needed }
  | .present word => return { marks with present := word :: marks.present }

/-- Whether a word of an origin is present. -/
def isPresent (marks : Marks) (origin : Origin) (position : Nat) : Bool :=
  marks.present.contains ⟨origin, position⟩

/-- Whether the word at a position of a recorded stack is present. -/
def wordPresent (marks : Marks) (stack : Stack) (position : Nat) : Bool :=
  match stack.get? position with
  | some word => word.producers.elements.any (marks.isPresent · position)
  | none => false

/-- The mark that makes an instruction necessary, if it is reachable and not necessary yet. -/
def require (marks : Marks) (offset : Nat) : List Mark :=
  if marks.reachable.contains offset && !marks.necessary.contains offset then
    [.necessary offset]
  else []

/-- The present words among those that the stack manipulation at `offset` takes and gives. -/
def shuffleWords (marks : Marks) (offset : Nat) (instruction : Instruction) (before : Stack) :
    Except Failure (List Word × List Word) := do
  let move ← orDefect (.notShuffle instruction.mnemonic) instruction.shuffle?
  if before.height < move.pops then defect (.underflowAt offset)
  let base := before.height - move.pops
  let word (source : Nat) : Word :=
    ⟨source, ((before.get? (base + source)).map (·.value.isWide)).getD false⟩
  let inputs := (List.range move.pops).filter fun k => marks.wordPresent before (base + k)
  let outputs := move.outputs.zipIdx.filter fun (_, k) =>
    marks.isPresent (.ofInstruction offset) (base + k)
  return (inputs.map word, outputs.map fun (source, _) => word source)

/-- How the marks say of an instruction what happens to it: it is not reachable, it is necessary, or
it is not. -/
def letter (marks : Marks) (offset : Nat) : Char :=
  if !marks.reachable.contains offset then 'x'
  else if marks.necessary.contains offset then '+'
  else '-'

end Marks

end JvmTrim
