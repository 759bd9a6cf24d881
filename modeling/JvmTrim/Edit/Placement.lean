import JvmTrim.Instruction.Codec

/-!
# Placing instructions

Instructions that are emitted for the offsets of a body are placed one after another. A branch leads
to the first instruction emitted for its target, or to whatever follows if none was. `goto` and `jsr`
take their short form unless the distance needs the long one. Widening a branch moves everything
behind it, so the placement is repeated until every distance fits.

## Main definitions

* `Emitted`: an instruction with the offset that its displacements count from
* `offsetsFrom`: where instructions start that are placed one after another
* `Placement`: emitted instructions with their positions
* `Placement.ofEmitted`: the placement in which every displacement fits
-/

namespace JvmTrim

/-- An instruction of an edited body. -/
structure Emitted where
  /-- The offset in the body before the edit that its displacements count from. -/
  origin : Nat
  /-- The instruction. -/
  instruction : Instruction
  deriving DecidableEq, Repr, Inhabited

/-- The offsets at which instructions start that are placed one after another from `offset` on,
and the offset behind the last one. -/
def offsetsFrom (offset : Nat) : List Instruction → List Nat
  | [] => [offset]
  | instruction :: rest => offset :: offsetsFrom (offset + instruction.length offset) rest

theorem length_offsetsFrom (offset : Nat) (instructions : List Instruction) :
    (offsetsFrom offset instructions).length = instructions.length + 1 := by
  induction instructions generalizing offset with
  | nil => rfl
  | cons head tail ih => simp [offsetsFrom, ih]

namespace Instruction

/-- The instruction in its short form, if it is a branch that has a long one. -/
def narrowed (instruction : Instruction) : Instruction :=
  if instruction.opcode = Opcode.gotoW then { instruction with opcode := Opcode.goto }
  else if instruction.opcode = Opcode.jsrW then { instruction with opcode := Opcode.jsr }
  else instruction

/-- The instruction in its long form, if it is a branch that has one. -/
def widened? (instruction : Instruction) : Option Instruction :=
  if instruction.opcode = Opcode.goto then some { instruction with opcode := Opcode.gotoW }
  else if instruction.opcode = Opcode.jsr then some { instruction with opcode := Opcode.jsrW }
  else Option.none

/-- Whether displacements of the opcode take four bytes. -/
def hasWideDisplacements (instruction : Instruction) : Bool :=
  isWideBranch instruction.opcode || instruction.operation = .switch

end Instruction

/-- Emitted instructions with their positions. -/
structure Placement where
  /-- The instructions in order. -/
  items : List Emitted
  /-- For an offset of the body before the edit, the index of the first item emitted for it. -/
  firstItem : Array Nat
  /-- The position of every item, and the length of all of them. -/
  positions : Array Nat
  deriving DecidableEq, Repr, Inhabited

namespace Placement

/-- Items placed one after another. -/
def place (items : List Emitted) (firstItem : Array Nat) : Placement :=
  ⟨items, firstItem, (offsetsFrom 0 (items.map (·.instruction))).toArray⟩

/-- The position that an offset of the body before the edit moves to. -/
def newOffset (placement : Placement) (offset : Nat) : Except Failure Nat :=
  orFail (.fault .outOfRange) do placement.positions[← placement.firstItem[offset]?]?

/-- Makes room for the displacements of one item at a position: none if they fit. -/
def widenItem (placement : Placement) (item : Emitted) (position : Nat) :
    Except Failure (Option Emitted) := do
  if item.instruction.hasWideDisplacements then return none
  let distances ← (← item.instruction.branchTargets item.origin).mapM fun target => do
    return (← placement.newOffset target : Int) - position
  match distances.find? (!Instruction.fitsShort ·) with
  | none => return none
  | some distance =>
    match item.instruction.widened? with
    | some instruction => return some { item with instruction }
    | none => .error (.branchOverflow position distance)

/-- Makes room for the displacements of all items; none if they fit. -/
def widen (placement : Placement) : Except Failure (Option (List Emitted)) := do
  let widened ← (placement.items.zip placement.positions.toList).mapM fun (item, position) =>
    placement.widenItem item position
  if widened.all (·.isNone) then return none
  return some (placement.items.zipWith (fun item wider => wider.getD item) widened)

/-- Places items and widens branches until every displacement fits. Every round but the last makes
one more branch wide, so a bound of the number of items is never used up. -/
def settle : Nat → Placement → Except Failure Placement
  | bound, placement => do
    match ← placement.widen with
    | none => return placement
    | some items =>
      match bound with
      | 0 => .error (.fault .exhausted)
      | bound + 1 => settle bound (place items placement.firstItem)

/-- The placement of items in which every displacement fits. -/
def ofEmitted (items : List Emitted) (firstItem : Array Nat) : Except Failure Placement :=
  settle items.length (place items firstItem)

/-- An item with its displacements as they are from its position. -/
def relocate (placement : Placement) (item : Emitted) (position : Nat) :
    Except Failure Instruction :=
  item.instruction.mapDisplacementsM fun displacement => do
    let target ← placement.newOffset (← Instruction.target item.origin displacement)
    return Int32.ofInt ((target : Int) - position)

/-- The bytes of all items. -/
def encode (placement : Placement) : Except Failure (List UInt8) := do
  let parts ← (placement.items.zip placement.positions.toList).mapM fun (item, position) => do
    (← placement.relocate item position).encode position
  return parts.flatten

end Placement

end JvmTrim
