import JvmTrim.Frame
import JvmTrim.IndexSet
import JvmTrim.Instruction.Listing

/-!
# What an evaluation finds out about a method body

For every offset the frames before and after its instruction and the edges of the control flow graph;
for the body as a whole the instructions that are reached, the initializer call of every object
creation, and the subroutines that return.

## Main definitions

* `Site`: what is known of one offset
* `Evaluation`: what is known of a body
* `Evaluation.pushedValue?`: the value an instruction leaves on the stack
-/

namespace JvmTrim

/-- What is known of one offset. -/
structure Site where
  /-- The frame before its instruction; none if it is not reached. -/
  before : Option Frame
  /-- The frame after its instruction. -/
  after : Option Frame
  /-- The offsets at which control may continue, exception handlers apart. -/
  targets : OffsetSet
  /-- The offsets that control may come from. -/
  origins : OffsetSet
  deriving DecidableEq, Repr, Inhabited

/-- An offset of which nothing is known. -/
def Site.blank : Site := ⟨none, none, OrderedSet.empty, OrderedSet.empty⟩

/-- What is known of a method body. -/
structure Evaluation where
  /-- The decoded body. -/
  listing : Listing
  /-- One site for every offset. -/
  sites : Array Site
  /-- The offsets whose instructions are reached. -/
  traced : IndexSet
  /-- The entries of subroutines that return. -/
  returning : IndexSet
  /-- For an object creation the call that initializes the object. -/
  initializations : List (Nat × Nat)
  /-- In a constructor, its call of another constructor on the same object. -/
  superInitialization : Option Nat
  /-- For an offset behind a subroutine call the entry of the subroutine. -/
  returnPoints : List (Nat × Nat)
  deriving Repr, Inhabited

namespace Evaluation

/-- Nothing known of a body. -/
def blank (listing : Listing) : Evaluation where
  listing := listing
  sites := Array.replicate listing.size Site.blank
  traced := IndexSet.ofCapacity listing.size
  returning := IndexSet.ofCapacity listing.size
  initializations := []
  superInitialization := none
  returnPoints := []

/-- Length of the body in bytes. -/
def size (evaluation : Evaluation) : Nat := evaluation.listing.size

/-- The instruction that starts at `offset`. -/
def instruction? (evaluation : Evaluation) (offset : Nat) : Option Instruction :=
  evaluation.listing.get? offset

/-- The instructions with their offsets, reached or not. -/
def instructions (evaluation : Evaluation) : List (Nat × Instruction) :=
  evaluation.listing.instructions

/-- The offset behind the instruction at `offset`. -/
def nextOffset (evaluation : Evaluation) (offset : Nat) : Nat :=
  evaluation.listing.nextOffset offset

/-- Whether the instruction at `offset` is reached. -/
def isTraced (evaluation : Evaluation) (offset : Nat) : Bool := evaluation.traced.contains offset

/-- The frame before the instruction at `offset`. -/
def before? (evaluation : Evaluation) (offset : Nat) : Option Frame :=
  evaluation.sites[offset]?.bind (·.before)

/-- The frame after the instruction at `offset`. -/
def after? (evaluation : Evaluation) (offset : Nat) : Option Frame :=
  evaluation.sites[offset]?.bind (·.after)

/-- The operand stack before the instruction at `offset`. -/
def stackBefore? (evaluation : Evaluation) (offset : Nat) : Option Stack :=
  (evaluation.before? offset).map (·.stack)

/-- The operand stack after the instruction at `offset`. -/
def stackAfter? (evaluation : Evaluation) (offset : Nat) : Option Stack :=
  (evaluation.after? offset).map (·.stack)

/-- The variables before the instruction at `offset`. -/
def localsBefore? (evaluation : Evaluation) (offset : Nat) : Option Locals :=
  (evaluation.before? offset).map (·.locals)

/-- The offsets at which control may continue after `offset`, exception handlers apart. -/
def targets (evaluation : Evaluation) (offset : Nat) : Except Failure OffsetSet :=
  orFail (.fault .outOfRange) (evaluation.sites[offset]?.map (·.targets))

/-- The offsets from which control may come to `offset`. -/
def origins (evaluation : Evaluation) (offset : Nat) : Except Failure OffsetSet :=
  orFail (.fault .outOfRange) (evaluation.sites[offset]?.map (·.origins))

/-- The call that initializes the object created at `offset`. -/
def initialization? (evaluation : Evaluation) (offset : Nat) : Option Nat :=
  evaluation.initializations.lookup offset

/-- Whether the subroutine entered at `offset` returns. -/
def isReturning (evaluation : Evaluation) (offset : Nat) : Bool :=
  evaluation.returning.contains offset

/-- The value that the instruction at `offset` leaves on top of the stack, if it pushes one. -/
def pushedValue? (evaluation : Evaluation) (offset : Nat) : Option Value := do
  let top ← (← evaluation.stackAfter? offset).peek? 0
  if top.producers.contains (.ofInstruction offset) then some top.value else none

/-- Changes the site of an offset, which has to lie inside the body. -/
def modifySite (evaluation : Evaluation) (offset : Nat) (change : Site → Site) :
    Except Failure Evaluation :=
  if offset < evaluation.sites.size then
    .ok { evaluation with sites := evaluation.sites.modify offset change }
  else .error (.fault .outOfRange)

end Evaluation

end JvmTrim
