import JvmTrim.Instruction.Codec

/-!
# Listings

A listing is the decoded form of a method body: its instructions in order, each with the offset it
starts at, together with a table for finding the instruction at an offset. The offsets of a listing
are the instruction boundaries of the body.

## Main definitions

* `decodeAll`: all instructions of some code with their offsets
* `Listing`: decoded code with look-up by offset
* `Listing.nextOffset`: where the instruction after the one at an offset starts
-/

namespace JvmTrim

/-- Reads instructions until the code ends, in reverse order; every instruction takes at least one
byte, so a bound of the number of bytes is never used up. -/
def decodeLoop : Nat → Cursor → List (Nat × Instruction) → Except Failure (List (Nat × Instruction))
  | _, ⟨_, []⟩, decoded => .ok decoded.reverse
  | 0, _, _ => .error (.fault .exhausted)
  | bound + 1, cursor, decoded => do
    let (instruction, next) ← Instruction.decode cursor.position cursor
    decodeLoop bound next ((cursor.position, instruction) :: decoded)

/-- All instructions of some code with their offsets. -/
def decodeAll (code : List UInt8) : Except Failure (List (Nat × Instruction)) :=
  decodeLoop code.length (Cursor.start code) []

/-- Decoded code. -/
structure Listing where
  /-- Length of the code in bytes. -/
  size : Nat
  /-- The instructions with their offsets, in order. -/
  instructions : List (Nat × Instruction)
  /-- The instruction that starts at each offset, if one does. -/
  table : Array (Option Instruction)
  deriving DecidableEq, Repr, Inhabited

namespace Listing

/-- The listing of instructions with their offsets in code of `size` bytes. -/
def ofInstructions (size : Nat) (instructions : List (Nat × Instruction)) : Listing where
  size := size
  instructions := instructions
  table := instructions.foldl (fun table entry => table.setIfInBounds entry.1 (some entry.2))
    (Array.replicate size none)

/-- The listing of some code. -/
def ofCode (code : List UInt8) : Except Failure Listing :=
  (ofInstructions code.length ·) <$> decodeAll code

/-- The instruction that starts at `offset`. -/
def get? (listing : Listing) (offset : Nat) : Option Instruction :=
  (listing.table[offset]?).join

/-- Whether an instruction starts at `offset`. -/
def isBoundary (listing : Listing) (offset : Nat) : Bool := (listing.get? offset).isSome

/-- The offset behind the instruction at `offset`, by the length of its canonical encoding. -/
def nextOffset (listing : Listing) (offset : Nat) : Nat :=
  match listing.table[offset]? with
  | some (some instruction) => offset + instruction.length offset
  | some none => offset
  | none => offset + 1

end Listing

end JvmTrim
