import JvmTrim.Edit.Placement
import JvmTrim.Instruction.Listing
import Mathlib.Algebra.GroupWithZero.Nat

/-!
# Writing and reading instructions

An instruction is well formed if its operand is one that the layout of its opcode has room for. The
bytes of a well-formed instruction read back as that instruction, with one exception that is by
design: a one-byte constant load whose index needs two bytes is stored as the two-byte load. Reading
gives well-formed instructions only, so writing and reading are inverse to one another on them, one
instruction at a time and over whole bodies.

## Main definitions

* `Instruction.WellFormed`: the operand fits the layout of the opcode
* `Instruction.stored`: the form in which an instruction is read back

## Main results

* `Instruction.wellFormed_of_decode`: what is read is well formed
* `Instruction.decode_encode`: what is written is read back
* `decodeAll_encodeFrom`: the same for instructions placed one after another
-/

namespace JvmTrim

/-! ## Words -/

namespace Bytes

theorem toUInt16_bytes (word : UInt16) :
    toUInt16 (word >>> 8).toUInt8 word.toUInt8 = word := by
  unfold toUInt16
  apply UInt16.toNat_inj.1
  simp only [UInt16.toNat_or, UInt16.toNat_shiftLeft, UInt8.toNat_toUInt16, UInt16.toNat_toUInt8,
    UInt16.toNat_shiftRight, show UInt16.toNat 8 % 16 = 8 from rfl]
  have h := word.toNat_lt
  generalize word.toNat = n at h ⊢
  rw [Nat.mod_eq_of_lt (by simp only [Nat.shiftLeft_eq, Nat.shiftRight_eq_div_pow]; omega),
    ← Nat.shiftLeft_add_eq_or_of_lt (by omega)]
  simp only [Nat.shiftLeft_eq, Nat.shiftRight_eq_div_pow]
  omega

/-- A byte shifted by at most three places stays inside a four-byte word. -/
theorem shifted_byte_mod (byte places : Nat) (h : places ≤ 24) :
    (byte % 2 ^ 8) <<< places % 2 ^ 32 = (byte % 2 ^ 8) <<< places := by
  refine Nat.mod_eq_of_lt ?_
  rw [Nat.shiftLeft_eq]
  calc byte % 2 ^ 8 * 2 ^ places
      < 2 ^ 8 * 2 ^ places :=
        Nat.mul_lt_mul_of_pos_right (Nat.mod_lt _ (by decide)) (Nat.two_pow_pos _)
    _ = 2 ^ (8 + places) := (Nat.pow_add ..).symm
    _ ≤ 2 ^ 32 := Nat.pow_le_pow_right (by decide) (by omega)

theorem toUInt32_bytes (word : UInt32) :
    toUInt32 (word >>> 24).toUInt8 (word >>> 16).toUInt8 (word >>> 8).toUInt8 word.toUInt8 =
      word := by
  unfold toUInt32
  apply UInt32.toNat_inj.1
  simp only [UInt32.toNat_or, UInt32.toNat_shiftLeft, UInt8.toNat_toUInt32, UInt32.toNat_toUInt8,
    UInt32.toNat_shiftRight, Nat.shiftRight_eq_div_pow, show UInt32.toNat 8 % 32 = 8 from rfl,
    show UInt32.toNat 16 % 32 = 16 from rfl, show UInt32.toNat 24 % 32 = 24 from rfl]
  have h := word.toNat_lt
  generalize word.toNat = n at h ⊢
  rw [shifted_byte_mod _ 24 (by decide), shifted_byte_mod _ 16 (by decide),
    shifted_byte_mod _ 8 (by decide), Nat.or_assoc, Nat.or_assoc,
    ← Nat.shiftLeft_add_eq_or_of_lt (i := 8) (by omega),
    ← Nat.shiftLeft_add_eq_or_of_lt (i := 16) (by simp only [Nat.shiftLeft_eq]; omega),
    ← Nat.shiftLeft_add_eq_or_of_lt (i := 24) (by simp only [Nat.shiftLeft_eq]; omega)]
  simp only [Nat.shiftLeft_eq]
  omega

end Bytes

/-! ## Reads -/

namespace Read

variable {α β : Type}

theorem bind_of_ok {read : Read α} {next : α → Read β} {cursor cursor' : Cursor} {a : α}
    (h : read cursor = .ok (a, cursor')) : (read >>= next) cursor = next a cursor' := by
  simp only [bind, StateT.bind, Except.bind, h]

theorem bind_eq_ok {read : Read α} {next : α → Read β} {cursor : Cursor} {result : β × Cursor}
    (h : (read >>= next) cursor = .ok result) :
    ∃ a cursor', read cursor = .ok (a, cursor') ∧ next a cursor' = .ok result := by
  simp only [bind, StateT.bind, Except.bind] at h
  cases hr : read cursor with
  | error failure => simp [hr] at h
  | ok pair => exact ⟨pair.1, pair.2, rfl, by simpa [hr] using h⟩

@[simp] theorem pure_apply (a : α) (cursor : Cursor) :
    (pure a : Read α) cursor = .ok (a, cursor) := rfl

theorem remaining_apply (cursor : Cursor) :
    remaining cursor = .ok (cursor.rest.length, cursor) := rfl

variable (position : Nat) (rest : List UInt8)

@[simp] theorem uint8_cons (byte : UInt8) :
    uint8 ⟨position, byte :: rest⟩ = .ok (byte, ⟨position + 1, rest⟩) := rfl

@[simp] theorem int8_cons (byte : UInt8) :
    int8 ⟨position, byte :: rest⟩ = .ok (byte.toInt8, ⟨position + 1, rest⟩) := rfl

@[simp] theorem uint16_append (word : UInt16) :
    uint16 ⟨position, Bytes.ofUInt16 word ++ rest⟩ = .ok (word, ⟨position + 2, rest⟩) := by
  simp [uint16, Bytes.ofUInt16, Bytes.toUInt16_bytes]

@[simp] theorem int16_append (word : Int16) :
    int16 ⟨position, Bytes.ofInt16 word ++ rest⟩ = .ok (word, ⟨position + 2, rest⟩) := by
  rw [int16, Bytes.ofInt16, bind_of_ok (uint16_append ..)]
  simp

@[simp] theorem int32_append (word : Int32) :
    int32 ⟨position, Bytes.ofInt32 word ++ rest⟩ = .ok (word, ⟨position + 4, rest⟩) := by
  simp [int32, Bytes.ofInt32, Bytes.ofUInt32, Bytes.toUInt32_bytes]

/-- Padding is dropped whatever its bytes are. -/
theorem align_four (padding : List UInt8)
    (h : padding.length = (4 - position % 4) % 4) :
    align 4 ⟨position, padding ++ rest⟩ = .ok ((), ⟨position + padding.length, rest⟩) := by
  simp [align, skip, ← h]

/-- Items that are written one after another are read one after another. -/
theorem repeated_flatMap {item : Read α} {write : α → List UInt8}
    (h : ∀ a position rest, item ⟨position, write a ++ rest⟩ =
      .ok (a, ⟨position + (write a).length, rest⟩)) (items acc : List α) :
    repeated item items.length acc ⟨position, items.flatMap write ++ rest⟩ =
      .ok (acc.reverse ++ items, ⟨position + (items.flatMap write).length, rest⟩) := by
  induction items generalizing position acc with
  | nil => simp [repeated]
  | cons head tail ih =>
    rw [List.length_cons, repeated, List.flatMap_cons, List.append_assoc, bind_of_ok (h ..), ih]
    simp [Nat.add_assoc]

end Read

/-! ## Opcodes and their layouts -/

namespace Opcode

/-- What holds of all bytes holds of all opcodes. -/
theorem of_all {p : Opcode → Bool} (h : (List.range 256).all fun n => p (UInt8.ofNat n)) :
    ∀ opcode, p opcode = true := by
  intro opcode
  have hmem : opcode.toNat ∈ List.range 256 := List.mem_range.mpr opcode.toNat_lt
  simpa using List.all_eq_true.mp h _ hmem

/-- The layouts that only one opcode has, and the opcodes that others exclude. -/
def layoutAgrees (opcode : Opcode) : Bool :=
  match opcode.layout? with
  | some .shortConstant => opcode == ldc
  | some .increment => opcode == iinc
  | some .dynamicCall => opcode == invokedynamic
  | some .constant => opcode != ldc && opcode != invokedynamic
  | some .wideBranch => Instruction.isWideBranch opcode
  | some .branch => !Instruction.isWideBranch opcode
  | some .wide => opcode == wide
  | _ => true

theorem layoutAgrees_eq_true : ∀ opcode, layoutAgrees opcode = true := of_all (by decide +kernel)

variable {opcode : Opcode}

theorem eq_ldc_of_layout (h : opcode.layout? = some .shortConstant) : opcode = ldc := by
  have agrees := layoutAgrees_eq_true opcode
  unfold layoutAgrees at agrees
  rw [h] at agrees
  exact eq_of_beq agrees

theorem eq_iinc_of_layout (h : opcode.layout? = some .increment) : opcode = iinc := by
  have agrees := layoutAgrees_eq_true opcode
  unfold layoutAgrees at agrees
  rw [h] at agrees
  exact eq_of_beq agrees

theorem eq_invokedynamic_of_layout (h : opcode.layout? = some .dynamicCall) :
    opcode = invokedynamic := by
  have agrees := layoutAgrees_eq_true opcode
  unfold layoutAgrees at agrees
  rw [h] at agrees
  exact eq_of_beq agrees

theorem eq_wide_of_layout (h : opcode.layout? = some .wide) : opcode = wide := by
  have agrees := layoutAgrees_eq_true opcode
  unfold layoutAgrees at agrees
  rw [h] at agrees
  exact eq_of_beq agrees

theorem ne_of_layout_constant (h : opcode.layout? = some .constant) :
    opcode ≠ ldc ∧ opcode ≠ invokedynamic := by
  have agrees := layoutAgrees_eq_true opcode
  unfold layoutAgrees at agrees
  rw [h] at agrees
  simpa only [Bool.and_eq_true, bne_iff_ne] using agrees

theorem isWideBranch_of_layout (h : opcode.layout? = some .wideBranch) :
    Instruction.isWideBranch opcode = true := by
  have agrees := layoutAgrees_eq_true opcode
  unfold layoutAgrees at agrees
  rw [h] at agrees
  exact agrees

theorem not_isWideBranch_of_layout (h : opcode.layout? = some .branch) :
    Instruction.isWideBranch opcode = false := by
  have agrees := layoutAgrees_eq_true opcode
  unfold layoutAgrees at agrees
  rw [h] at agrees
  simpa only [Bool.not_eq_true'] using agrees

end Opcode

/-- The operands that a layout has room for. A displacement may still turn out too large for its
two bytes. -/
def Layout.Admits : Layout → Operand → Prop
  | .bare, .none | .byte, .byte _ | .short, .short _ | .shortConstant, .constant _
  | .constant, .constant _ | .slot, .slot _ | .increment, .increment .. | .branch, .branch _
  | .wideBranch, .branch _ | .interfaceCall, .interfaceCall .. | .dynamicCall, .constant _
  | .arrayType, .arrayType _ | .multiArray, .multiArray .. => True
  | .table, .table _ low high displacements =>
    low ≤ high ∧ displacements.length = (high.toInt - low.toInt + 1).toNat
  | .lookup, .lookup _ cases => cases.length < 2 ^ 31
  | _, _ => False

namespace Instruction

/-- Whether the operand is one that the layout of the opcode has room for. -/
def WellFormed (instruction : Instruction) : Prop :=
  ∃ layout, instruction.opcode.layout? = some layout ∧ layout.Admits instruction.operand

/-- The form in which an instruction is read back: a one-byte constant load whose index needs two
bytes is stored as the two-byte load. -/
def stored (instruction : Instruction) : Instruction :=
  match instruction.operand with
  | .constant index =>
    if instruction.opcode = Opcode.ldc ∧ 255 < index then ⟨Opcode.ldcW, .constant index⟩
    else instruction
  | _ => instruction

/-! ## What is written is read back -/

/-- What follows the opcode of a table switch is read back. -/
theorem readTable_append (offset : Nat) (padding rest : List UInt8)
    (hpadding : padding.length = switchPadding offset) (default low high : Int32)
    (displacements : List Int32) (hle : low ≤ high)
    (hcount : displacements.length = (high.toInt - low.toInt + 1).toNat) :
    readTable offset ⟨offset + 1, padding ++
        ((default :: low :: high :: displacements).flatMap Bytes.ofInt32 ++ rest)⟩ =
      .ok (.table default low high displacements,
        ⟨offset + 1 + padding.length + (12 + 4 * displacements.length), rest⟩) := by
  have hle' : ¬high < low := Int32.not_lt.mpr hle
  have hlength : (displacements.flatMap Bytes.ofInt32).length = displacements.length * 4 := by
    simp [List.length_flatMap, List.map_const']
  rw [readTable, Read.bind_of_ok (Read.align_four _ _ _ hpadding)]
  simp only [List.flatMap_cons, List.append_assoc]
  rw [Read.bind_of_ok (Read.int32_append ..), Read.bind_of_ok (Read.int32_append ..),
    Read.bind_of_ok (Read.int32_append ..)]
  simp only [if_neg hle', ← hcount]
  rw [Read.bind_of_ok (Read.remaining_apply _), List.length_append, hlength, if_neg (by omega),
    Read.bind_of_ok (Read.repeated_flatMap _ _
      (fun a position rest => Read.int32_append position rest a) displacements [])]
  simp only [Read.pure_apply, List.reverse_nil, List.nil_append, hlength]
  congr 3
  omega

/-- What follows the opcode of a lookup switch is read back. -/
theorem readLookup_append (offset : Nat) (padding rest : List UInt8)
    (hpadding : padding.length = switchPadding offset) (default : Int32)
    (cases : List (Int32 × Int32)) (hcount : cases.length < 2 ^ 31) :
    readLookup offset ⟨offset + 1, padding ++ (Bytes.ofInt32 default ++
        (Bytes.ofInt32 (Int32.ofNat cases.length) ++
          ((cases.flatMap fun c => Bytes.ofInt32 c.1 ++ Bytes.ofInt32 c.2) ++ rest)))⟩ =
      .ok (.lookup default cases,
        ⟨offset + 1 + padding.length + (8 + 8 * cases.length), rest⟩) := by
  have hint : (Int32.ofNat cases.length).toInt = cases.length :=
    Int32.toInt_ofNat_of_lt hcount
  have hnonneg : ¬Int32.ofNat cases.length < 0 := by
    rw [Int32.lt_iff_toInt_lt, hint]
    simp
  have hcase : ∀ (c : Int32 × Int32) (position : Nat) (rest : List UInt8),
      readCase ⟨position, (Bytes.ofInt32 c.1 ++ Bytes.ofInt32 c.2) ++ rest⟩ =
        .ok (c, ⟨position + (Bytes.ofInt32 c.1 ++ Bytes.ofInt32 c.2).length, rest⟩) := by
    intro c position rest
    rw [readCase, List.append_assoc, Read.bind_of_ok (Read.int32_append ..),
      Read.bind_of_ok (Read.int32_append ..)]
    rfl
  have hlength : (cases.flatMap fun c => Bytes.ofInt32 c.1 ++ Bytes.ofInt32 c.2).length =
      cases.length * 8 := by
    simp [List.length_flatMap, List.map_const']
  rw [readLookup, Read.bind_of_ok (Read.align_four _ _ _ hpadding),
    Read.bind_of_ok (Read.int32_append ..), Read.bind_of_ok (Read.int32_append ..)]
  simp only [if_neg hnonneg, hint, Int.toNat_natCast]
  rw [Read.bind_of_ok (Read.remaining_apply _), List.length_append, hlength, if_neg (by omega),
    Read.bind_of_ok (Read.repeated_flatMap _ _ hcase cases [])]
  simp only [Read.pure_apply, List.reverse_nil, List.nil_append, hlength]
  congr 3
  omega

/-- An opcode is followed by what its layout says. -/
theorem decode_cons {opcode : Opcode} {layout : Layout} (h : opcode.layout? = some layout)
    (offset position : Nat) (rest : List UInt8) :
    decode offset ⟨position, opcode :: rest⟩ =
      readOperand offset opcode layout ⟨position + 1, rest⟩ := by
  rw [decode, Read.bind_of_ok (Read.uint8_cons ..)]
  simp only [h]

theorem layout?_wide : Opcode.wide.layout? = some .wide := by decide +kernel

theorem layout?_ldcW : Opcode.ldcW.layout? = some .constant := by decide +kernel

/-- **The encoded length.** -/
theorem length_of_encode {instruction : Instruction} {offset : Nat} {bytes : List UInt8}
    (h : instruction.encode offset = .ok bytes) : bytes.length = instruction.length offset := by
  obtain ⟨opcode, operand⟩ := instruction
  cases operand with
  | slot index | increment index delta =>
    simp only [encode, length, Except.ok.injEq] at h ⊢
    subst h
    split <;> simp
  | constant index =>
    simp only [encode, length, Except.ok.injEq] at h ⊢
    subst h
    have hne : Opcode.ldc ≠ Opcode.invokedynamic := by decide
    grind [Bytes.length_ofUInt16]
  | branch displacement =>
    simp only [encode, length] at h ⊢
    split at h
    · cases h
      simp_all
    · split at h
      · cases h
        simp_all
      · cases h
  | table default low high displacements | lookup default cases =>
    cases h
    simp [length, List.length_flatMap, List.map_const']
    omega
  | _ =>
    cases h
    simp [length]

theorem stored_of_ne_ldc {instruction : Instruction} (h : instruction.opcode ≠ Opcode.ldc) :
    instruction.stored = instruction := by
  unfold stored
  split
  · exact if_neg fun hc => h hc.1
  · rfl

theorem toUInt16_toUInt8 {word : UInt16} (h : word ≤ 255) : word.toUInt8.toUInt16 = word := by
  apply UInt16.toNat_inj.1
  have : word.toNat ≤ 255 := UInt16.le_iff_toNat_le.mp h
  simp only [UInt8.toNat_toUInt16, UInt16.toNat_toUInt8]
  omega

theorem toInt16_toInt8 {word : Int16} (h : fitsByte word = true) : word.toInt8.toInt16 = word := by
  simp only [fitsByte, decide_eq_true_eq, Int16.le_iff_toInt_le] at h
  apply Int16.toInt_inj.1
  rw [Int8.toInt_toInt16, Int16.toInt_toInt8, Int.bmod_eq_of_le (by simpa using h.1)]
  have := h.2
  simp at this ⊢
  omega

theorem toInt32_toInt16 {word : Int32} (h : fitsShort word.toInt = true) :
    word.toInt16.toInt32 = word := by
  simp only [fitsShort, decide_eq_true_eq] at h
  apply Int32.toInt_inj.1
  rw [Int16.toInt_toInt32, Int32.toInt_toInt16, Int.bmod_eq_of_le (by simpa using h.1)]
  have := h.2
  simp
  omega

theorem toUInt16_le (byte : UInt8) : byte.toUInt16 ≤ 255 := by
  have h := byte.toNat_lt
  rw [UInt16.le_iff_toNat_le, UInt8.toNat_toUInt16]
  exact Nat.le_of_lt_succ h

theorem fitsByte_toInt16 (byte : Int8) : fitsByte byte.toInt16 = true := by
  have hlow := byte.le_toInt
  have hhigh := byte.toInt_lt
  simp only [fitsByte, decide_eq_true_eq, Int16.le_iff_toInt_le, Int8.toInt_toInt16]
  exact ⟨hlow, Int.lt_add_one_iff.mp hhigh⟩

theorem fitsShort_toInt32 (word : Int16) : fitsShort word.toInt32.toInt = true := by
  have hlow := word.le_toInt
  have hhigh := word.toInt_lt
  simp only [fitsShort, Int16.toInt_toInt32, decide_eq_true_eq]
  omega

/-- A byte that was read as a slot does not need the `wide` marker. -/
theorem needsWide_toUInt16 (opcode : Opcode) (byte : UInt8) :
    needsWide ⟨opcode, .slot byte.toUInt16⟩ = false := by
  simpa [needsWide] using toUInt16_le byte

/-- Bytes that were read as a slot and an increment do not need the `wide` marker. -/
theorem needsWide_toInt16 (opcode : Opcode) (index : UInt8) (delta : Int8) :
    needsWide ⟨opcode, .increment index.toUInt16 delta.toInt16⟩ = false := by
  simp [needsWide, fitsByte_toInt16, UInt16.not_lt.mpr (toUInt16_le index)]

/-- **What is written is read back.** -/
theorem decode_encode {instruction : Instruction} (h : instruction.WellFormed) {offset : Nat}
    {bytes : List UInt8} (he : instruction.encode offset = .ok bytes) (rest : List UInt8) :
    decode offset ⟨offset, bytes ++ rest⟩ =
      .ok (instruction.stored, ⟨offset + bytes.length, rest⟩) := by
  obtain ⟨layout, hl, ha⟩ := h
  obtain ⟨opcode, operand⟩ := instruction
  have hlength := length_of_encode he
  match layout, operand, ha with
  | .bare, .none, _ | .byte, .byte _, _ | .arrayType, .arrayType _, _ =>
    cases he
    rw [List.cons_append, decode_cons hl]
    rfl
  | .short, .short value, _ =>
    cases he
    rw [List.cons_append, decode_cons hl, readOperand, Read.bind_of_ok (Read.int16_append ..)]
    rfl
  | .slot, .slot index, _ =>
    simp only [encode, Except.ok.injEq] at he
    subst he
    split
    · rw [List.cons_append, decode_cons layout?_wide, readOperand, readWide, List.cons_append,
        Read.bind_of_ok (Read.uint8_cons ..)]
      simp only [hl]
      rw [Read.bind_of_ok (Read.uint16_append ..)]
      rfl
    · rename_i hw
      have hle : index ≤ 255 := by simpa [needsWide] using hw
      rw [List.cons_append, decode_cons hl]
      simp only [readOperand, List.cons_append, Read.bind_of_ok (Read.uint8_cons ..),
        toUInt16_toUInt8 hle]
      rfl
  | .increment, .increment index delta, _ =>
    have hop := Opcode.eq_iinc_of_layout hl
    simp only at hop hl
    subst hop
    simp only [encode, Except.ok.injEq] at he
    subst he
    split
    · rw [List.cons_append, decode_cons layout?_wide, readOperand, readWide, List.cons_append,
        Read.bind_of_ok (Read.uint8_cons ..)]
      simp only [hl, List.append_assoc]
      rw [Read.bind_of_ok (Read.uint16_append ..), Read.bind_of_ok (Read.int16_append ..)]
      rfl
    · rename_i hw
      have hfits : index ≤ 255 ∧ fitsByte delta = true := by simpa [needsWide] using hw
      rw [List.cons_append, decode_cons hl]
      simp only [readOperand, List.cons_append, Read.bind_of_ok (Read.uint8_cons ..),
        Read.bind_of_ok (Read.int8_cons ..), toUInt16_toUInt8 hfits.1, Int8.toInt8_toUInt8,
        toInt16_toInt8 hfits.2]
      rfl
  | .shortConstant, .constant index, _ =>
    have hop := Opcode.eq_ldc_of_layout hl
    simp only at hop hl
    subst hop
    simp only [encode, Except.ok.injEq, if_true] at he
    subst he
    split
    · rename_i hle
      have hstored : stored ⟨Opcode.ldc, .constant index⟩ = ⟨Opcode.ldc, .constant index⟩ :=
        if_neg fun hc => UInt16.not_lt.mpr hle hc.2
      rw [List.cons_append, decode_cons hl, hstored]
      simp only [readOperand, List.cons_append, Read.bind_of_ok (Read.uint8_cons ..),
        toUInt16_toUInt8 hle]
      rfl
    · rename_i hgt
      have hstored : stored ⟨Opcode.ldc, .constant index⟩ = ⟨Opcode.ldcW, .constant index⟩ :=
        if_pos ⟨rfl, UInt16.not_le.mp hgt⟩
      rw [List.cons_append, decode_cons layout?_ldcW, hstored, readOperand,
        Read.bind_of_ok (Read.uint16_append ..)]
      rfl
  | .constant, .constant index, _ =>
    have hop := Opcode.ne_of_layout_constant hl
    simp only at hop hl
    rw [stored_of_ne_ldc hop.1]
    simp only [encode, Except.ok.injEq, if_neg hop.1, if_neg hop.2] at he
    subst he
    rw [List.cons_append, decode_cons hl, readOperand, Read.bind_of_ok (Read.uint16_append ..)]
    rfl
  | .dynamicCall, .constant index, _ =>
    have hop := Opcode.eq_invokedynamic_of_layout hl
    simp only at hop hl
    subst hop
    have hne : Opcode.invokedynamic ≠ Opcode.ldc := by decide
    rw [stored_of_ne_ldc hne]
    simp only [encode, Except.ok.injEq, if_neg hne, if_true] at he
    subst he
    rw [List.cons_append, decode_cons hl, readOperand, List.append_assoc,
      Read.bind_of_ok (Read.uint16_append ..)]
    rfl
  | .branch, .branch displacement, _ =>
    simp only [encode, Opcode.not_isWideBranch_of_layout hl, Bool.false_eq_true, if_false] at he
    split at he
    · rename_i hfits
      cases he
      rw [List.cons_append, decode_cons hl, readOperand, Read.bind_of_ok (Read.int16_append ..),
        toInt32_toInt16 hfits]
      rfl
    · cases he
  | .wideBranch, .branch displacement, _ =>
    simp only [encode, Opcode.isWideBranch_of_layout hl, if_true, Except.ok.injEq] at he
    subst he
    rw [List.cons_append, decode_cons hl, readOperand, Read.bind_of_ok (Read.int32_append ..)]
    rfl
  | .interfaceCall, .interfaceCall index count, _ =>
    cases he
    rw [List.cons_append, decode_cons hl, readOperand, List.append_assoc,
      Read.bind_of_ok (Read.uint16_append ..)]
    rfl
  | .multiArray, .multiArray index dimensions, _ =>
    cases he
    rw [List.cons_append, decode_cons hl, readOperand, List.append_assoc,
      Read.bind_of_ok (Read.uint16_append ..)]
    rfl
  | .table, .table default low high displacements, ⟨hle, hcount⟩ =>
    rw [hlength]
    cases he
    rw [List.cons_append, decode_cons hl, readOperand, List.append_assoc,
      Read.bind_of_ok (readTable_append offset _ rest (by simp) default low high displacements
        hle hcount)]
    simp [length, stored, Nat.add_assoc]
  | .lookup, .lookup default cases, hcount =>
    rw [hlength]
    cases he
    simp only [List.cons_append, List.append_assoc]
    rw [decode_cons hl, readOperand,
      Read.bind_of_ok (readLookup_append offset _ rest (by simp) default cases hcount)]
    simp [length, stored, Nat.add_assoc]

/-! ## What was read -/

/-- Items that were read are as many as were asked for. -/
theorem length_repeated {α : Type} {item : Read α} {count : Nat} {acc items : List α}
    {cursor cursor' : Cursor} (h : Read.repeated item count acc cursor = .ok (items, cursor')) :
    items.length = acc.length + count := by
  induction count generalizing acc cursor with
  | zero =>
    cases h
    simp
  | succ count ih =>
    obtain ⟨a, middle, -, h⟩ := Read.bind_eq_ok h
    simpa [Nat.add_assoc, Nat.add_comm 1] using ih h

/-- A table switch that was read: the padding, its three words, and one displacement for each key of
a range that is not empty. -/
theorem readTable_eq_ok {offset : Nat} {cursor cursor' : Cursor} {operand : Operand}
    (h : readTable offset cursor = .ok (operand, cursor')) :
    ∃ default low high displacements c₁ c₂ c₃ c₄,
      operand = .table default low high displacements ∧ low ≤ high ∧
      Read.align 4 cursor = .ok ((), c₁) ∧ Read.int32 c₁ = .ok (default, c₂) ∧
      Read.int32 c₂ = .ok (low, c₃) ∧ Read.int32 c₃ = .ok (high, c₄) ∧
      Read.repeated Read.int32 (high.toInt - low.toInt + 1).toNat [] c₄ =
        .ok (displacements, cursor') := by
  obtain ⟨_, c₁, h₁, h⟩ := Read.bind_eq_ok h
  obtain ⟨default, c₂, h₂, h⟩ := Read.bind_eq_ok h
  obtain ⟨low, c₃, h₃, h⟩ := Read.bind_eq_ok h
  obtain ⟨high, c₄, h₄, h⟩ := Read.bind_eq_ok h
  simp only at h
  split at h
  · obtain ⟨_, _, h, -⟩ := Read.bind_eq_ok h
    cases h
  · rename_i hle
    obtain ⟨left, _, hleft, h⟩ := Read.bind_eq_ok h
    cases hleft
    split at h
    · obtain ⟨_, _, h, -⟩ := Read.bind_eq_ok h
      cases h
    · obtain ⟨displacements, _, hd, h⟩ := Read.bind_eq_ok h
      cases h
      exact ⟨default, low, high, displacements, c₁, c₂, c₃, c₄, rfl, Int32.not_lt.mp hle, h₁, h₂,
        h₃, h₄, hd⟩

/-- A case of a lookup switch that was read: its key, then its displacement. -/
theorem readCase_eq_ok {cursor cursor' : Cursor} {entry : Int32 × Int32}
    (h : readCase cursor = .ok (entry, cursor')) :
    ∃ middle, Read.int32 cursor = .ok (entry.1, middle) ∧
      Read.int32 middle = .ok (entry.2, cursor') := by
  obtain ⟨key, middle, hk, h⟩ := Read.bind_eq_ok h
  obtain ⟨displacement, _, hd, h⟩ := Read.bind_eq_ok h
  cases h
  exact ⟨middle, hk, hd⟩

/-- A lookup switch that was read: the padding, its two words, and as many cases as the second of
them says. -/
theorem readLookup_eq_ok {offset : Nat} {cursor cursor' : Cursor} {operand : Operand}
    (h : readLookup offset cursor = .ok (operand, cursor')) :
    ∃ default count cases c₁ c₂ c₃, operand = .lookup default cases ∧ 0 ≤ count ∧
      Read.align 4 cursor = .ok ((), c₁) ∧ Read.int32 c₁ = .ok (default, c₂) ∧
      Read.int32 c₂ = .ok (count, c₃) ∧
      Read.repeated readCase count.toInt.toNat [] c₃ = .ok (cases, cursor') := by
  obtain ⟨_, c₁, h₁, h⟩ := Read.bind_eq_ok h
  obtain ⟨default, c₂, h₂, h⟩ := Read.bind_eq_ok h
  obtain ⟨count, c₃, h₃, h⟩ := Read.bind_eq_ok h
  simp only at h
  split at h
  · obtain ⟨_, _, h, -⟩ := Read.bind_eq_ok h
    cases h
  · rename_i hnonneg
    obtain ⟨left, _, hleft, h⟩ := Read.bind_eq_ok h
    cases hleft
    split at h
    · obtain ⟨_, _, h, -⟩ := Read.bind_eq_ok h
      cases h
    · obtain ⟨cases, _, hc, h⟩ := Read.bind_eq_ok h
      cases h
      exact ⟨default, count, cases, c₁, c₂, c₃, rfl, Int32.not_lt.mp hnonneg, h₁, h₂, h₃, hc⟩

/-- What was read behind the `wide` marker: an instruction on a variable, its words of two bytes. -/
theorem readWide_eq_ok {offset : Nat} {cursor cursor' : Cursor} {instruction : Instruction}
    (h : readWide offset cursor = .ok (instruction, cursor')) :
    ∃ opcode middle, Read.uint8 cursor = .ok (opcode, middle) ∧
      ((Opcode.layout? opcode = some .slot ∧ ∃ index, Read.uint16 middle = .ok (index, cursor') ∧
          instruction = ⟨opcode, .slot index⟩) ∨
        (Opcode.layout? opcode = some .increment ∧ ∃ index after delta,
          Read.uint16 middle = .ok (index, after) ∧ Read.int16 after = .ok (delta, cursor') ∧
            instruction = ⟨opcode, .increment index delta⟩)) := by
  obtain ⟨opcode, middle, hopcode, h⟩ := Read.bind_eq_ok h
  refine ⟨opcode, middle, hopcode, ?_⟩
  cases hlayout : Opcode.layout? opcode with
  | none =>
    simp only [hlayout] at h
    cases h
  | some layout =>
    simp only [hlayout] at h
    cases layout with
    | slot =>
      obtain ⟨index, _, hindex, h⟩ := Read.bind_eq_ok h
      cases h
      exact .inl ⟨rfl, index, hindex, rfl⟩
    | increment =>
      obtain ⟨index, after, hindex, h⟩ := Read.bind_eq_ok h
      obtain ⟨delta, _, hdelta, h⟩ := Read.bind_eq_ok h
      cases h
      exact .inr ⟨rfl, index, after, delta, hindex, hdelta, rfl⟩
    | _ => cases h

/-! ## What is read is well formed -/

theorem admits_of_readTable {offset : Nat} {cursor cursor' : Cursor} {operand : Operand}
    (h : readTable offset cursor = .ok (operand, cursor')) : Layout.table.Admits operand := by
  obtain ⟨_, _, _, _, _, _, _, _, rfl, hle, -, -, -, -, hd⟩ := readTable_eq_ok h
  exact ⟨hle, by simpa using length_repeated hd⟩

/-- The cases that were read are as many as the word before them says. -/
theorem toInt_eq_length_of_readCases {count : Int32} {cursor cursor' : Cursor}
    {cases : List (Int32 × Int32)} (hnonneg : 0 ≤ count)
    (h : Read.repeated readCase count.toInt.toNat [] cursor = .ok (cases, cursor')) :
    count.toInt = cases.length := by
  have hlength : cases.length = count.toInt.toNat := by simpa using length_repeated h
  have hlow : 0 ≤ count.toInt := Int32.le_iff_toInt_le.mp hnonneg
  omega

theorem admits_of_readLookup {offset : Nat} {cursor cursor' : Cursor} {operand : Operand}
    (h : readLookup offset cursor = .ok (operand, cursor')) : Layout.lookup.Admits operand := by
  obtain ⟨_, count, _, _, _, _, rfl, hnonneg, -, -, -, hc⟩ := readLookup_eq_ok h
  have hlength := toInt_eq_length_of_readCases hnonneg hc
  have hlt := count.toInt_lt
  simp only [Layout.Admits]
  omega

/-- Without the `wide` marker, what is read keeps its opcode and has an operand of its layout. -/
theorem admits_of_readOperand {offset : Nat} {opcode : Opcode} {layout : Layout}
    (hwide : layout ≠ .wide) {cursor cursor' : Cursor} {instruction : Instruction}
    (h : readOperand offset opcode layout cursor = .ok (instruction, cursor')) :
    instruction.opcode = opcode ∧ layout.Admits instruction.operand := by
  cases layout with
  | bare =>
    cases h
    exact ⟨rfl, trivial⟩
  | table =>
    obtain ⟨operand, _, ho, h⟩ := Read.bind_eq_ok h
    cases h
    exact ⟨rfl, admits_of_readTable ho⟩
  | lookup =>
    obtain ⟨operand, _, ho, h⟩ := Read.bind_eq_ok h
    cases h
    exact ⟨rfl, admits_of_readLookup ho⟩
  | wide => exact absurd rfl hwide
  | interfaceCall =>
    obtain ⟨_, _, -, h⟩ := Read.bind_eq_ok h
    obtain ⟨_, _, -, h⟩ := Read.bind_eq_ok h
    obtain ⟨_, _, -, h⟩ := Read.bind_eq_ok h
    cases h
    exact ⟨rfl, trivial⟩
  | increment | dynamicCall | multiArray =>
    obtain ⟨_, _, -, h⟩ := Read.bind_eq_ok h
    obtain ⟨_, _, -, h⟩ := Read.bind_eq_ok h
    cases h
    exact ⟨rfl, trivial⟩
  | _ =>
    obtain ⟨_, _, -, h⟩ := Read.bind_eq_ok h
    cases h
    exact ⟨rfl, trivial⟩

/-- Behind the `wide` marker stands an instruction on a variable. -/
theorem admits_of_readWide {offset : Nat} {cursor cursor' : Cursor} {instruction : Instruction}
    (h : readWide offset cursor = .ok (instruction, cursor')) :
    ∃ layout, (layout = .slot ∨ layout = .increment) ∧
      instruction.opcode.layout? = some layout ∧ layout.Admits instruction.operand := by
  obtain ⟨opcode, _, -, ⟨hlayout, _, -, rfl⟩ | ⟨hlayout, _, _, _, -, -, rfl⟩⟩ := readWide_eq_ok h
  · exact ⟨.slot, .inl rfl, hlayout, trivial⟩
  · exact ⟨.increment, .inr rfl, hlayout, trivial⟩

/-- Reading an instruction is reading what follows its first byte. -/
theorem decode_eq_ok {offset : Nat} {cursor cursor' : Cursor} {instruction : Instruction}
    (h : decode offset cursor = .ok (instruction, cursor')) :
    ∃ opcode layout middle, Opcode.layout? opcode = some layout ∧
      readOperand offset opcode layout middle = .ok (instruction, cursor') := by
  obtain ⟨opcode, middle, -, h⟩ := Read.bind_eq_ok h
  cases hlayout : Opcode.layout? opcode with
  | none =>
    simp only [hlayout] at h
    cases h
  | some layout =>
    simp only [hlayout] at h
    exact ⟨opcode, layout, middle, hlayout, h⟩

/-- **What is read is well formed.** -/
theorem wellFormed_of_decode {offset : Nat} {cursor cursor' : Cursor} {instruction : Instruction}
    (h : decode offset cursor = .ok (instruction, cursor')) : instruction.WellFormed := by
  obtain ⟨opcode, layout, middle, hlayout, h⟩ := decode_eq_ok h
  by_cases hwide : layout = .wide
  · subst hwide
    rw [readOperand] at h
    obtain ⟨inner, -, hinner, hadmits⟩ := admits_of_readWide h
    exact ⟨inner, hinner, hadmits⟩
  · obtain ⟨hopcode, hadmits⟩ := admits_of_readOperand hwide h
    exact ⟨layout, hopcode ▸ hlayout, hadmits⟩

theorem length_pos (instruction : Instruction) (offset : Nat) : 0 < instruction.length offset := by
  unfold length
  split
  all_goals grind

theorem length_stored (instruction : Instruction) (offset : Nat) :
    instruction.stored.length offset = instruction.length offset := by
  unfold stored
  split
  · rename_i index hoperand
    split
    · rename_i hc
      have hne : ¬index ≤ 255 := UInt16.not_le.mpr hc.2
      have h₁ : Opcode.ldcW ≠ Opcode.ldc := by decide
      have h₂ : Opcode.ldcW ≠ Opcode.invokedynamic := by decide
      have h₃ : Opcode.ldc ≠ Opcode.invokedynamic := by decide
      simp [length, hoperand, hc.1, hne, h₁, h₂, h₃]
    · rfl
  · rfl

end Instruction

/-! ## Whole bodies -/

open Instruction in
theorem decodeLoop_encodeFrom {instructions : List Instruction}
    (h : ∀ instruction ∈ instructions, instruction.WellFormed) {offset bound : Nat}
    {bytes : List UInt8} (he : encodeFrom offset instructions = .ok bytes)
    (hb : bytes.length ≤ bound) (acc : List (Nat × Instruction)) :
    decodeLoop bound ⟨offset, bytes⟩ acc =
      .ok (acc.reverse ++ (offsetsFrom offset instructions).zip (instructions.map stored)) := by
  induction instructions generalizing offset bound bytes acc with
  | nil =>
    cases he
    simp [decodeLoop]
  | cons head tail ih =>
    simp only [encodeFrom, bind, Except.bind] at he
    cases hh : head.encode offset with
    | error failure => simp [hh] at he
    | ok first =>
      cases ht : encodeFrom (offset + head.length offset) tail with
      | error failure => simp [hh, ht] at he
      | ok others =>
        simp only [hh, ht, pure, Except.pure, Except.ok.injEq] at he
        subst he
        have hlength := length_of_encode hh
        have hpos := head.length_pos offset
        obtain ⟨byte, first', rfl⟩ : ∃ byte first', first = byte :: first' :=
          List.exists_cons_of_length_pos (by omega)
        obtain ⟨bound, rfl⟩ : ∃ k, bound = k + 1 := ⟨bound - 1, by simp at hb; omega⟩
        have hdecode := decode_encode (h head List.mem_cons_self) hh others
        rw [List.cons_append] at hdecode ⊢
        simp only [decodeLoop, bind, Except.bind, hdecode]
        rw [hlength, ih (fun i hi => h i (List.mem_cons_of_mem _ hi)) ht (by simp at hb; omega)]
        simp [offsetsFrom]

/-- **Instructions that are placed one after another are read back in order**, each at the offset it
was placed at. -/
theorem decodeAll_encodeFrom {instructions : List Instruction}
    (h : ∀ instruction ∈ instructions, instruction.WellFormed) {bytes : List UInt8}
    (he : Instruction.encodeFrom 0 instructions = .ok bytes) :
    decodeAll bytes =
      .ok ((offsetsFrom 0 instructions).zip (instructions.map Instruction.stored)) :=
  decodeLoop_encodeFrom h he (Nat.le_refl _) []

end JvmTrim
