import JvmTrim.Edit.Basic
import JvmTrim.Edit.Placement
import JvmTrim.StackHeight

/-!
# Applying edits

An edited body holds, for every instruction of the body in order, what the edit emits for it. The
tables of the body move along: an offset goes to the position of the first instruction emitted for
it, and ranges that become empty are dropped. The stack height of the edited body is computed anew.

## Main definitions

* `Edit.emit`: the instructions of the edited body
* `Edit.apply`: the edited body
-/

namespace JvmTrim

/-- Whether an offset is the start of an instruction or the end of the body. -/
def Listing.isEdge (listing : Listing) (offset : Nat) : Bool :=
  offset = listing.size || listing.isBoundary offset

/-- Fails unless every branch of an instruction at `offset` leads to an instruction. -/
def Listing.checkTargets (listing : Listing) (offset : Nat) (instruction : Instruction) :
    Except Failure Unit := do
  (← instruction.branchTargets offset).forM fun target =>
    if listing.isBoundary target then .ok () else .error (.invalidBranch offset target)

namespace Edit

/-- Fails unless every edit is attached to an instruction. -/
def checkSites (edit : Edit) (listing : Listing) : Except Failure Unit :=
  edit.sites.forM fun (offset, _) =>
    if listing.isBoundary offset then .ok () else defect (.offBoundary offset)

/-- What the edit emits for the instruction at `offset`. -/
def emitAt (edit : Edit) (listing : Listing) (offset : Nat) (instruction : Instruction) :
    Except Failure (List Emitted) :=
  ((edit.site offset).emitted instruction).mapM fun emitted => do
    listing.checkTargets offset emitted
    return ⟨offset, emitted.narrowed⟩

/-- The instructions of the edited body, in groups by the instruction that they are emitted for. -/
def emit (edit : Edit) (listing : Listing) : Except Failure (List (Nat × List Emitted)) :=
  listing.instructions.mapM fun (offset, instruction) => do
    return (offset, ← edit.emitAt listing offset instruction)

/-- For every offset the index of the first item emitted for it, where groups of items follow one
another from index `count` on; the end of the body comes after all items. -/
def firstItems : List (Nat × List Emitted) → Nat → Array Nat → Array Nat
  | [], count, table => table.setIfInBounds (table.size - 1) count
  | (offset, items) :: rest, count, table =>
    firstItems rest (count + items.length) (table.setIfInBounds offset count)

end Edit

/-- The position that an offset in a table moves to. An offset beyond the end counts as the end;
none if no instruction starts there. -/
def Placement.mapOffset (placement : Placement) (listing : Listing) (offset : Nat) :
    Except Failure (Option Nat) :=
  let offset := min offset listing.size
  if listing.isEdge offset then some <$> placement.newOffset offset else .ok none

namespace Edit

variable (placement : Placement) (listing : Listing) (size : Nat)

/-- An exception handler in an edited body of `size` bytes. -/
def moveHandler (handler : Handler) : Except Failure (Option Handler) := do
  let start ← placement.mapOffset listing handler.start
  let stop ← placement.mapOffset listing handler.stop
  let target ← placement.mapOffset listing handler.target
  match start, stop, target with
  | some start, some stop, some target =>
    -- A handler of an empty range, or with no code behind its target, disappears.
    return if start < stop && target < size then some ⟨start, stop, target, handler.catchType⟩
      else none
  | _, _, _ => return none

/-- A line number in an edited body of `size` bytes. -/
def moveLine (entry : LineEntry) : Except Failure (Option LineEntry) := do
  match ← placement.mapOffset listing entry.start with
  | some start => return if start < size then some ⟨start, entry.line⟩ else none
  | none => return none

/-- The live range of a variable in an edited body. -/
def moveVariable (entry : VariableEntry) : Except Failure (Option VariableEntry) := do
  let start ← placement.mapOffset listing entry.start
  let stop ← placement.mapOffset listing (entry.start + entry.length)
  match start, stop with
  | some start, some stop =>
    return if start < stop then some { entry with start, length := stop - start } else none
  | _, _ => return none

end Edit

/-- The members of a list whose images exist. -/
def filterMapE {α β : Type} (f : α → Except Failure (Option β)) (list : List α) :
    Except Failure (List β) := do
  return (← list.mapM f).filterMap id

/-- The entries of a list that are not at one of some indices. -/
def withoutIndices {α : Type} (removed : List Nat) (list : List α) : List α :=
  (list.zipIdx.filter fun (_, index) => !removed.contains index).map (·.1)

/-- The edited body. -/
def Edit.apply (edit : Edit) (code : Code) (pool : ConstantPool) : Except Failure Code := do
  if code.size ≠ edit.size then defect (.bodyLength edit.size code.size)
  let listing ← Listing.ofCode code.bytes
  edit.checkSites listing
  let groups ← edit.emit listing
  let firstItem := firstItems groups 0 (Array.replicate (listing.size + 1) 0)
  let placement ← Placement.ofEmitted (groups.flatMap (·.2)) firstItem
  let bytes ← placement.encode
  let handlers := withoutIndices edit.removedHandlers code.handlers
  let edited : Code := {
    maxStack := code.maxStack
    maxLocals := code.maxLocals
    bytes := bytes
    handlers := ← filterMapE (moveHandler placement listing bytes.length) handlers
    lines := ← filterMapE (moveLine placement listing bytes.length) code.lines
    localRanges := ← filterMapE (moveVariable placement listing) code.localRanges }
  return { edited with maxStack := ← maxStackHeight edited pool }

end JvmTrim
