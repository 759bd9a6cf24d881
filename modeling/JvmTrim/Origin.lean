import JvmTrim.OrderedSet

/-!
# Offsets and origins

Sets of code offsets, used for branch targets and return addresses, and sets of origins, which tell
where a value came from. Offsets are recorded in 32 bits.

## Main definitions

* `OffsetSet`: offsets in ascending order
* `Origin`, `OriginSet`: the instructions, handlers or method entry that produced a value
-/

namespace JvmTrim

/-- An offset as it is recorded, in 32 bits. -/
def recordedOffset (offset : Nat) : Nat := offset % UInt32.size

/-- A set of recorded offsets, in ascending order. -/
abbrev OffsetSet := OrderedSet (fun offset : Nat => offset)

namespace OffsetSet

/-- The set with one offset. -/
def single (offset : Nat) : OffsetSet := OrderedSet.singleton (recordedOffset offset)

/-- Adds an offset. -/
def record (set : OffsetSet) (offset : Nat) : OffsetSet := set.insert (recordedOffset offset)

/-- The offset of a set with exactly one. -/
def single? (set : OffsetSet) : Option Nat :=
  match set.elements with
  | [only] => some only
  | _ => none

/-- The offsets in braces. -/
def text (set : OffsetSet) : String :=
  "\x7b" ++ String.intercalate "," (set.elements.map toString) ++ "\x7d"

end OffsetSet

/-- Where a value came from. -/
inductive Origin where
  /-- Parameters, and variables that were never written. -/
  | entry
  /-- The exception that the handler at an offset caught. -/
  | handler (offset : Nat)
  /-- The instruction at an offset. -/
  | instruction (offset : Nat)
  deriving DecidableEq, Repr, Inhabited, Hashable

namespace Origin

/-- The place in the order of origins: the method entry first, then handlers and instructions by
offset, with all handlers of recorded offsets before all instructions. -/
def rank : Origin → Nat
  | entry => 0
  | handler offset => 1 + offset
  | instruction offset => 1 + UInt32.size + offset

/-- The offset of an instruction. -/
def instruction? : Origin → Option Nat
  | instruction offset => some offset
  | entry | handler _ => none

/-- The origin of what the instruction at an offset produces. -/
def ofInstruction (offset : Nat) : Origin := .instruction (recordedOffset offset)

end Origin

/-- A set of origins in their order. -/
abbrev OriginSet := OrderedSet Origin.rank

namespace OriginSet

/-- The origin set of what the instruction at an offset produces. -/
def ofInstruction (offset : Nat) : OriginSet := OrderedSet.singleton (.ofInstruction offset)

/-- The offsets of the instructions among the origins. -/
def instructions (set : OriginSet) : List Nat := set.elements.filterMap Origin.instruction?

end OriginSet

end JvmTrim
