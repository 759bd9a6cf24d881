import JvmTrim.Bytes
import JvmTrim.Instruction.Basic

/-!
# Encoding and decoding

Encoding picks the short or the wide form of an instruction from its operand: a variable slot
above 255 or an increment beyond a byte needs the `wide` marker, and a one-byte constant load of an
index above 255 becomes its two-byte variant. Decoding folds the `wide` marker into the operand of
the instruction it stands in front of. Switches are padded so that their words are aligned to
four bytes, which makes their length depend on their offset.

## Main definitions

* `Instruction.length`: encoded length at an offset
* `Instruction.encode`: the bytes of an instruction at an offset
* `Instruction.decode`: reads the instruction at a cursor
* `Instruction.decodeAt`: the instruction at an offset of some code
-/

namespace JvmTrim

namespace Instruction

/-- Number of bytes between the opcode of a switch at `offset` and its first aligned word. -/
def switchPadding (offset : Nat) : Nat := (4 - (offset + 1) % 4) % 4

/-- Whether a signed word fits into one byte. -/
def fitsByte (value : Int16) : Bool := decide (-128 ≤ value ∧ value ≤ 127)

/-- Whether a signed word fits into two bytes. -/
def fitsShort (value : Int) : Bool := decide (-32768 ≤ value ∧ value ≤ 32767)

/-- Whether the operand needs the `wide` marker. -/
def needsWide (instruction : Instruction) : Bool :=
  match instruction.operand with
  | .slot index => decide (index > 255)
  | .increment index delta => decide (index > 255) || !fitsByte delta
  | _ => false

/-- Whether the opcode takes a four-byte displacement. -/
def isWideBranch (opcode : Opcode) : Bool :=
  opcode == Opcode.gotoW || opcode == Opcode.jsrW

/-- Encoded length in bytes when placed at `offset`. -/
def length (instruction : Instruction) (offset : Nat) : Nat :=
  match instruction.operand with
  | .none => 1
  | .byte _ | .arrayType _ => 2
  | .short _ => 3
  | .slot _ => if instruction.needsWide then 4 else 2
  | .increment _ _ => if instruction.needsWide then 6 else 3
  | .constant index =>
    if instruction.opcode = Opcode.ldc ∧ index ≤ 255 then 2
    else if instruction.opcode = Opcode.invokedynamic then 5
    else 3
  | .branch _ => if isWideBranch instruction.opcode then 5 else 3
  | .interfaceCall _ _ => 5
  | .multiArray _ _ => 4
  | .table _ _ _ displacements => 1 + switchPadding offset + 12 + 4 * displacements.length
  | .lookup _ cases => 1 + switchPadding offset + 8 + 8 * cases.length

/-- The bytes of the instruction when placed at `offset`. Only a displacement that needs more
than its two bytes makes this fail. -/
def encode (instruction : Instruction) (offset : Nat) : Except Failure (List UInt8) :=
  let opcode := instruction.opcode
  match instruction.operand with
  | .none => .ok [opcode]
  | .byte value => .ok [opcode, value.toUInt8]
  | .short value => .ok (opcode :: Bytes.ofInt16 value)
  | .slot index =>
    .ok (if instruction.needsWide then Opcode.wide :: opcode :: Bytes.ofUInt16 index
      else [opcode, index.toUInt8])
  | .increment index delta =>
    .ok (if instruction.needsWide then
        Opcode.wide :: Opcode.iinc :: (Bytes.ofUInt16 index ++ Bytes.ofInt16 delta)
      else [Opcode.iinc, index.toUInt8, delta.toInt8.toUInt8])
  | .constant index =>
    .ok (if opcode = Opcode.ldc then
        if index ≤ 255 then [Opcode.ldc, index.toUInt8]
        else Opcode.ldcW :: Bytes.ofUInt16 index
      else if opcode = Opcode.invokedynamic then opcode :: (Bytes.ofUInt16 index ++ [0, 0])
      else opcode :: Bytes.ofUInt16 index)
  | .branch displacement =>
    if isWideBranch opcode then .ok (opcode :: Bytes.ofInt32 displacement)
    else if fitsShort displacement.toInt then
      .ok (opcode :: Bytes.ofInt16 displacement.toInt16)
    else .error (.branchOverflow offset displacement.toInt)
  | .arrayType code => .ok [opcode, code]
  | .interfaceCall index count => .ok (opcode :: (Bytes.ofUInt16 index ++ [count, 0]))
  | .multiArray index dimensions => .ok (opcode :: (Bytes.ofUInt16 index ++ [dimensions]))
  | .table default low high displacements =>
    .ok (opcode :: (List.replicate (switchPadding offset) 0 ++
      (default :: low :: high :: displacements).flatMap Bytes.ofInt32))
  | .lookup default cases =>
    .ok (opcode :: (List.replicate (switchPadding offset) 0 ++ Bytes.ofInt32 default ++
      Bytes.ofInt32 (Int32.ofNat cases.length) ++
      cases.flatMap fun c => Bytes.ofInt32 c.1 ++ Bytes.ofInt32 c.2))

/-- Reads the operand of a table switch at `offset`. -/
def readTable (offset : Nat) : Read Operand := do
  Read.align 4
  let default ← Read.int32
  let low ← Read.int32
  let high ← Read.int32
  if high < low then defect (.invertedTable offset high low)
  let count := (high.toInt - low.toInt + 1).toNat
  if count * 4 > (← Read.remaining) then defect (.truncatedTable offset)
  return .table default low high (← Read.repeated Read.int32 count [])

/-- Reads a key and the displacement it selects. -/
def readCase : Read (Int32 × Int32) := do
  let key ← Read.int32
  let displacement ← Read.int32
  return (key, displacement)

/-- Reads the operand of a lookup switch at `offset`. -/
def readLookup (offset : Nat) : Read Operand := do
  Read.align 4
  let default ← Read.int32
  let count ← Read.int32
  if count < 0 then defect (.negativeLookup offset)
  let count := count.toInt.toNat
  if count * 8 > (← Read.remaining) then defect (.truncatedLookup offset)
  return .lookup default (← Read.repeated readCase count [])

/-- Reads what follows the `wide` marker at `offset`. -/
def readWide (offset : Nat) : Read Instruction := do
  let opcode ← Read.uint8
  match Opcode.layout? opcode with
  | some .slot => return ⟨opcode, .slot (← Read.uint16)⟩
  | some .increment =>
    let index ← Read.uint16
    let delta ← Read.int16
    return ⟨opcode, .increment index delta⟩
  | _ => defect (.wideTarget offset opcode)

/-- Reads what follows an opcode at `offset`, by the layout of its operand. -/
def readOperand (offset : Nat) (opcode : Opcode) : Layout → Read Instruction
  | .bare => return ⟨opcode, .none⟩
  | .byte => return ⟨opcode, .byte (← Read.int8)⟩
  | .short => return ⟨opcode, .short (← Read.int16)⟩
  | .shortConstant => return ⟨opcode, .constant (← Read.uint8).toUInt16⟩
  | .constant => return ⟨opcode, .constant (← Read.uint16)⟩
  | .slot => return ⟨opcode, .slot (← Read.uint8).toUInt16⟩
  | .increment => do
    let index ← Read.uint8
    let delta ← Read.int8
    return ⟨opcode, .increment index.toUInt16 delta.toInt16⟩
  | .branch => return ⟨opcode, .branch (← Read.int16).toInt32⟩
  | .wideBranch => return ⟨opcode, .branch (← Read.int32)⟩
  | .table => return ⟨opcode, ← readTable offset⟩
  | .lookup => return ⟨opcode, ← readLookup offset⟩
  | .interfaceCall => do
    let index ← Read.uint16
    let count ← Read.uint8
    let _ ← Read.uint8
    return ⟨opcode, .interfaceCall index count⟩
  | .dynamicCall => do
    let index ← Read.uint16
    let _ ← Read.uint16
    return ⟨opcode, .constant index⟩
  | .arrayType => return ⟨opcode, .arrayType (← Read.uint8)⟩
  | .multiArray => do
    let index ← Read.uint16
    let dimensions ← Read.uint8
    return ⟨opcode, .multiArray index dimensions⟩
  | .wide => readWide offset

/-- Reads the instruction at `offset`, where the cursor stands. -/
def decode (offset : Nat) : Read Instruction := do
  let opcode ← Read.uint8
  match Opcode.layout? opcode with
  | some layout => readOperand offset opcode layout
  | none => throw (Failure.invalidOpcode opcode)

/-- The instruction at `offset` of some code. -/
def decodeAt (code : List UInt8) (offset : Nat) : Except Failure Instruction := do
  let cursor ← Cursor.seek code offset
  let (instruction, _) ← decode offset cursor
  return instruction

/-- The bytes of instructions placed one after another from `offset` on. -/
def encodeFrom : Nat → List Instruction → Except Failure (List UInt8)
  | _, [] => .ok []
  | offset, instruction :: rest => do
    let bytes ← instruction.encode offset
    let others ← encodeFrom (offset + instruction.length offset) rest
    return bytes ++ others

end Instruction

end JvmTrim
