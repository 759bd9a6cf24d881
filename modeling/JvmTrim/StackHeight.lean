import JvmTrim.ClassFile.Code
import JvmTrim.Instruction.StackEffect

/-!
# Heights of the operand stack

The height of the operand stack before every instruction that control can reach, from the entry with
an empty stack and from every exception handler with the exception on the stack. Wherever paths
meet, the heights have to agree. A subroutine is taken to return with the height that its caller had.

## Main definitions

* `stackHeights`: the height before every reachable instruction
* `maxStackHeight`: the largest height a body needs
-/

namespace JvmTrim

/-- Heights found so far, and the offsets whose instructions are still to be followed. -/
structure HeightSearch where
  /-- The height before each offset, once it is known. -/
  heights : Array (Option Nat)
  /-- Offsets to be followed, the latest first. -/
  pending : List Nat
  deriving DecidableEq, Repr, Inhabited

namespace HeightSearch

/-- Notes that control reaches `offset` with a stack of some height. -/
def reach (listing : Listing) (search : HeightSearch) (offset height : Nat) :
    Except Failure HeightSearch :=
  if listing.isBoundary offset then
    match search.heights[offset]?.join with
    | some existing =>
      if existing = height then .ok search
      else defect (.inconsistentHeight offset existing height)
    | none => .ok ⟨search.heights.setIfInBounds offset (some height), offset :: search.pending⟩
  else defect (.invalidFlow offset)

/-- Notes that control reaches each of some offsets. -/
def reachAll (listing : Listing) (search : HeightSearch) (offsets : List Nat) (height : Nat) :
    Except Failure HeightSearch :=
  offsets.foldlM (fun search offset => search.reach listing offset height) search

/-- Follows the instruction at `offset`. -/
def follow (listing : Listing) (pool : ConstantPool) (offset : Nat) (search : HeightSearch) :
    Except Failure HeightSearch := do
  let instruction ← orFail (.fault .outOfRange) (listing.get? offset)
  let before := (search.heights[offset]?.join).getD 0
  let effect ← instruction.stackEffect pool
  if effect.pops > before then
    defect (.heightUnderflow offset instruction.mnemonic effect.pops before)
  let after := before - effect.pops + effect.pushes
  let next := offset + instruction.length offset
  let search ← search.reachAll listing (← instruction.branchTargets offset) after
  match instruction.flow with
  | .subroutine => if next < listing.size then search.reach listing next before else return search
  | _ => if instruction.fallsThrough then search.reach listing next after else return search

/-- Follows pending offsets until there are none. Every offset becomes pending at most once, so a
bound of the length of the code is never used up. -/
def run (listing : Listing) (pool : ConstantPool) :
    Nat → HeightSearch → Except Failure (Array (Option Nat))
  | bound, search =>
    match search.pending with
    | [] => .ok search.heights
    | offset :: rest =>
      match bound with
      | 0 => .error (.fault .exhausted)
      | bound + 1 => do
        run listing pool bound (← follow listing pool offset { search with pending := rest })

end HeightSearch

/-- The height of the stack before every offset; none where no instruction starts or where control
never gets. -/
def stackHeights (code : Code) (pool : ConstantPool) : Except Failure (Array (Option Nat)) := do
  let listing ← Listing.ofCode code.bytes
  let start : HeightSearch := ⟨Array.replicate listing.size none, []⟩
  let search ← if listing.size > 0 then start.reach listing 0 0 else pure start
  let search ← search.reachAll listing (code.handlers.map (·.target)) 1
  search.run listing pool listing.size

/-- The largest height of the stack in front of and behind the instructions of a body. -/
def maxStackHeight (code : Code) (pool : ConstantPool) : Except Failure UInt16 := do
  let instructions ← decodeAll code.bytes
  let heights ← stackHeights code pool
  let highest ← instructions.foldlM (fun highest (offset, instruction) =>
    match heights[offset]?.join with
    | none => return highest
    | some before => do
      let effect ← instruction.stackEffect pool
      return max (max highest before) (before - effect.pops + effect.pushes)) 0
  if highest < 65536 then return highest.toUInt16 else defect (.stackTooHigh highest)

end JvmTrim
