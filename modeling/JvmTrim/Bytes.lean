import JvmTrim.Failure

/-!
# Big-endian words and reading them

Code is a list of bytes, and all words in it are big-endian. A `Cursor` is a position in the code
with the bytes from there on; a read either consumes exactly its bytes or fails and names the
position, the number of bytes it needed and the number that were left.

## Main definitions

* `Bytes.ofUInt16`, `Bytes.ofUInt32` and their inverses `Bytes.toUInt16`, `Bytes.toUInt32`
* `Cursor`, `Read`: the reading position and reads from it
-/

namespace JvmTrim

namespace Bytes

/-- The two bytes of a word, the high one first. -/
def ofUInt16 (word : UInt16) : List UInt8 := [(word >>> 8).toUInt8, word.toUInt8]

/-- The word with the given bytes, the high one first. -/
def toUInt16 (high low : UInt8) : UInt16 := high.toUInt16 <<< 8 ||| low.toUInt16

/-- The four bytes of a word, the highest one first. -/
def ofUInt32 (word : UInt32) : List UInt8 :=
  [(word >>> 24).toUInt8, (word >>> 16).toUInt8, (word >>> 8).toUInt8, word.toUInt8]

/-- The word with the given bytes, the highest one first. -/
def toUInt32 (a b c d : UInt8) : UInt32 :=
  a.toUInt32 <<< 24 ||| b.toUInt32 <<< 16 ||| c.toUInt32 <<< 8 ||| d.toUInt32

/-- The bytes of a signed word in two's complement. -/
def ofInt16 (word : Int16) : List UInt8 := ofUInt16 word.toUInt16

/-- The bytes of a signed word in two's complement. -/
def ofInt32 (word : Int32) : List UInt8 := ofUInt32 word.toUInt32

@[simp] theorem length_ofUInt16 (word : UInt16) : (ofUInt16 word).length = 2 := rfl

@[simp] theorem length_ofInt16 (word : Int16) : (ofInt16 word).length = 2 := rfl

@[simp] theorem length_ofUInt32 (word : UInt32) : (ofUInt32 word).length = 4 := rfl

@[simp] theorem length_ofInt32 (word : Int32) : (ofInt32 word).length = 4 := rfl

end Bytes

/-- A position in the code and the bytes from there on. -/
structure Cursor where
  /-- Offset of the next byte. -/
  position : Nat
  /-- The bytes that have not been read. -/
  rest : List UInt8
  deriving DecidableEq, Repr, Inhabited

/-- A computation that reads from a cursor. -/
abbrev Read := StateT Cursor (Except Failure)

namespace Cursor

/-- The cursor at the start of the code. -/
def start (code : List UInt8) : Cursor := ⟨0, code⟩

/-- The cursor at `position`, which may be the end of the code but not lie beyond it. -/
def seek (code : List UInt8) (position : Nat) : Except Failure Cursor :=
  if position > code.length then defect (.seekBeyondEnd position code.length)
  else .ok ⟨position, code.drop position⟩

/-- Number of bytes left. -/
def remaining (cursor : Cursor) : Nat := cursor.rest.length

/-- The failure of a read of `need` bytes when fewer are left. -/
def short {α : Type} (cursor : Cursor) (need : Nat) : Except Failure α :=
  defect (.truncated need cursor.position cursor.remaining)

end Cursor

namespace Read

/-- Reads an unsigned byte. -/
def uint8 : Read UInt8 := fun cursor =>
  match cursor.rest with
  | a :: rest => .ok (a, ⟨cursor.position + 1, rest⟩)
  | [] => cursor.short 1

/-- Reads a signed byte. -/
def int8 : Read Int8 := do return (← uint8).toInt8

/-- Reads an unsigned two-byte word. -/
def uint16 : Read UInt16 := fun cursor =>
  match cursor.rest with
  | a :: b :: rest => .ok (Bytes.toUInt16 a b, ⟨cursor.position + 2, rest⟩)
  | _ => cursor.short 2

/-- Reads a signed two-byte word. -/
def int16 : Read Int16 := do return (← uint16).toInt16

/-- Reads a signed four-byte word. -/
def int32 : Read Int32 := fun cursor =>
  match cursor.rest with
  | a :: b :: c :: d :: rest => .ok ((Bytes.toUInt32 a b c d).toInt32, ⟨cursor.position + 4, rest⟩)
  | _ => cursor.short 4

/-- Reads `count` bytes and drops them. -/
def skip (count : Nat) : Read Unit := fun cursor =>
  if (cursor.rest.take count).length < count then cursor.short count
  else .ok ((), ⟨cursor.position + count, cursor.rest.drop count⟩)

/-- Drops bytes until the position is a multiple of `alignment`. -/
def align (alignment : Nat) : Read Unit := fun cursor =>
  if alignment = 0 then .error (.fault .outOfRange)
  else skip ((alignment - cursor.position % alignment) % alignment) cursor

/-- Number of bytes left. -/
def remaining : Read Nat := fun cursor => .ok (cursor.remaining, cursor)

/-- Reads `count` items one after another. -/
def repeated {α : Type} (item : Read α) : Nat → List α → Read (List α)
  | 0, acc => return acc.reverse
  | count + 1, acc => do repeated item count ((← item) :: acc)

end Read

end JvmTrim
