import JvmTrim.Proofs.Relocation

/-!
# Whole bodies, written and read

Well-formedness says that an operand has the shape the layout of its opcode asks for; it does not
say that writing succeeds, since a two-byte branch may carry a displacement of four bytes. What
reading gives is narrower: the word that was read for a two-byte branch has two bytes, and the index
that was read for a one-byte constant load has one. So every instruction that can be read can be
written at any offset, and only constant loads with a longer index, which reading never gives, come
back in another form.

## Main definitions

* `Instruction.Fits`: the operand has the width the opcode has room for

## Main results

* `Instruction.fits_of_decode`: what is read fits
* `Instruction.exists_encode`: what fits can be written at every offset
* `decodeAll_flatten_encodings`: a body of instructions that can be read is written without failure,
  every instruction takes the length it announces, and reading the body gives the instructions back
-/

namespace JvmTrim

namespace Instruction

/-- The operand has the width the opcode has room for: two bytes for the displacement of a short
branch, one for the index of a one-byte constant load. -/
def Fits (instruction : Instruction) : Prop :=
  match instruction.operand with
  | .branch displacement =>
    isWideBranch instruction.opcode = true ∨ fitsShort displacement.toInt = true
  | .constant index => instruction.opcode = Opcode.ldc → index ≤ 255
  | _ => True

/-! ## What reading gives -/

/-- A layout without displacement and constant index leaves nothing to fit. -/
theorem fits_of_admits {opcode : Opcode} {operand : Operand} {layout : Layout}
    (h : layout.Admits operand) (hbranch : layout ≠ .branch) (hshort : layout ≠ .shortConstant)
    (hlayout : opcode.layout? = some layout) : Fits ⟨opcode, operand⟩ := by
  cases layout with
  | wideBranch =>
    cases operand <;> first | exact h.elim | exact .inl (Opcode.isWideBranch_of_layout hlayout)
  | constant =>
    cases operand <;> first
      | exact h.elim
      | exact fun heq => absurd heq (Opcode.ne_of_layout_constant hlayout).1
  | dynamicCall =>
    have hne : opcode ≠ Opcode.ldc := by
      rw [Opcode.eq_invokedynamic_of_layout hlayout]
      decide
    cases operand <;> first | exact h.elim | exact fun heq => absurd heq hne
  | branch => exact absurd rfl hbranch
  | shortConstant => exact absurd rfl hshort
  | _ => cases operand <;> first | exact h.elim | trivial

/-- **What is read fits.** -/
theorem fits_of_decode {offset : Nat} {cursor cursor' : Cursor} {instruction : Instruction}
    (h : decode offset cursor = .ok (instruction, cursor')) : instruction.Fits := by
  obtain ⟨opcode, layout, middle, hlayout, h⟩ := decode_eq_ok h
  cases layout with
  | branch =>
    obtain ⟨word, _, -, h⟩ := Read.bind_eq_ok h
    cases h
    exact .inr (fitsShort_toInt32 word)
  | shortConstant =>
    obtain ⟨byte, _, -, h⟩ := Read.bind_eq_ok h
    cases h
    exact fun _ => toUInt16_le byte
  | wide =>
    rw [readOperand] at h
    obtain ⟨layout, rfl | rfl, hinner, hadmits⟩ := admits_of_readWide h
    · exact fits_of_admits hadmits (by simp) (by simp) hinner
    · exact fits_of_admits hadmits (by simp) (by simp) hinner
  | _ =>
    obtain ⟨hopcode, hadmits⟩ := admits_of_readOperand (by simp) h
    exact fits_of_admits hadmits (by simp) (by simp) (hopcode ▸ hlayout)

theorem Decodable.fits {instruction : Instruction} (h : instruction.Decodable) :
    instruction.Fits := by
  obtain ⟨code, offset, h⟩ := h
  obtain ⟨cursor, -, h⟩ := Except.bind_eq_ok.1 h
  obtain ⟨⟨_, cursor'⟩, hdecode, h⟩ := Except.bind_eq_ok.1 h
  cases h
  exact fits_of_decode hdecode

/-- What can be read is stored as it is. -/
theorem stored_of_fits {instruction : Instruction} (h : instruction.Fits) :
    instruction.stored = instruction := by
  obtain ⟨opcode, operand⟩ := instruction
  cases operand with
  | constant index =>
    have hnot : ¬ (opcode = Opcode.ldc ∧ 255 < index) :=
      fun hlong => UInt16.not_le.2 hlong.2 (h hlong.1)
    simp only [stored, if_neg hnot]
  | _ => rfl

theorem fits_of_pushInt? {value : Int32} {push : Instruction}
    (h : pushInt? value = some push) : push.Fits := by
  unfold pushInt? at h
  split at h
  · cases h
    trivial
  · split at h
    · cases h
      trivial
    · split at h
      · cases h
        trivial
      · cases h

/-! ## Writing never fails -/

/-- Only a displacement that is too long for its branch keeps an instruction from being written. -/
theorem exists_encode {instruction : Instruction} (h : instruction.Fits) (offset : Nat) :
    ∃ bytes, instruction.encode offset = .ok bytes := by
  obtain ⟨opcode, operand⟩ := instruction
  cases operand with
  | branch displacement =>
    by_cases hwide : isWideBranch opcode = true
    · exact ⟨_, by simp only [encode, hwide, if_true]; rfl⟩
    · have hshort := h.resolve_left hwide
      exact ⟨_, by simp only [encode, hwide, hshort, if_true]; rfl⟩
  | _ => exact ⟨_, rfl⟩

/-- Instructions that can be written at every offset can be written one after another. The offsets
at which they are placed are the numbers of bytes written before them. -/
theorem exists_encodings {instructions : List Instruction}
    (h : ∀ instruction ∈ instructions, ∀ offset, ∃ bytes, instruction.encode offset = .ok bytes)
    (offset : Nat) :
    ∃ encodings,
      List.Forall₂ (fun place encoding => place.2.encode place.1 = .ok encoding)
        ((offsetsFrom offset instructions).zip instructions) encodings ∧
      (∀ count ≤ instructions.length, (offsetsFrom offset instructions)[count]? =
        some (offset + (encodings.take count).flatten.length)) ∧
      encodeFrom offset instructions = .ok encodings.flatten := by
  induction instructions generalizing offset with
  | nil =>
    refine ⟨[], .nil, fun count hcount => ?_, rfl⟩
    obtain rfl := Nat.le_zero.1 hcount
    rfl
  | cons head tail ih =>
    obtain ⟨first, hfirst⟩ := h head List.mem_cons_self offset
    obtain ⟨others, hforall, hoffsets, hothers⟩ :=
      ih (fun i hi => h i (List.mem_cons_of_mem _ hi)) (offset + head.length offset)
    refine ⟨first :: others, .cons hfirst hforall, fun count hcount => ?_, ?_⟩
    · cases count with
      | zero => rfl
      | succ count =>
        rw [offsetsFrom, List.getElem?_cons_succ, hoffsets count (Nat.le_of_succ_le_succ hcount),
          List.take_succ_cons, List.flatten_cons, List.length_append, length_of_encode hfirst,
          Nat.add_assoc]
    · simp only [encodeFrom, hfirst, hothers, bind, Except.bind, pure, Except.pure,
        List.flatten_cons]

end Instruction

open Instruction

/-- **A body reads back as it was written.** Instructions that can be read from some code, and
one-byte constant loads of any index, are written one after another without failure. Each takes as
many bytes as it announces for its offset, the offsets are the numbers of bytes before them, and
reading the body gives the instructions with their offsets, where a constant load with an index
above 255 has become the two-byte load of the same index. In particular instructions that can all be
read come back unchanged. -/
theorem decodeAll_flatten_encodings (instructions : List Instruction)
    (h : ∀ instruction ∈ instructions,
      instruction.Decodable ∨ ∃ index, instruction = ⟨Opcode.ldc, .constant index⟩) :
    ∃ encodings : List (List UInt8),
      List.Forall₂ (fun place encoding => place.2.encode place.1 = .ok encoding ∧
          encoding.length = place.2.length place.1)
        ((offsetsFrom 0 instructions).zip instructions) encodings ∧
      (∀ count ≤ instructions.length, (offsetsFrom 0 instructions)[count]? =
        some (encodings.take count).flatten.length) ∧
      decodeAll encodings.flatten =
        .ok ((offsetsFrom 0 instructions).zip (instructions.map stored)) ∧
      ((∀ instruction ∈ instructions, instruction.Decodable) →
        decodeAll encodings.flatten = .ok ((offsetsFrom 0 instructions).zip instructions)) := by
  have hencode : ∀ instruction ∈ instructions, ∀ offset, ∃ bytes,
      instruction.encode offset = .ok bytes := by
    intro instruction hmem offset
    obtain hdecodable | ⟨index, rfl⟩ := h instruction hmem
    · exact exists_encode hdecodable.fits offset
    · exact ⟨_, rfl⟩
  have hwellFormed : ∀ instruction ∈ instructions, instruction.WellFormed :=
    fun instruction hmem => Writable.wellFormed (h instruction hmem)
  obtain ⟨encodings, hforall, hoffsets, hbytes⟩ := exists_encodings hencode 0
  have hdecode := decodeAll_encodeFrom hwellFormed hbytes
  refine ⟨encodings, hforall.imp fun _ _ he => ⟨he, length_of_encode he⟩,
    fun count hcount => by simpa using hoffsets count hcount, hdecode, fun hdecodable => ?_⟩
  have hstored : instructions.map stored = instructions := by
    refine List.map_congr_left (fun instruction hmem => ?_) |>.trans (List.map_id _)
    exact stored_of_fits (hdecodable instruction hmem).fits
  rw [hdecode, hstored]

/-- A load from a wide slot, a constant load with a long index, a table switch behind them, where it
needs padding, and a branch back. -/
theorem decodeAll_flatten_encodings_switch :
    ∃ instructions : List Instruction,
      instructions = [⟨Opcode.iload, .slot 300⟩, ⟨Opcode.ldc, .constant 256⟩,
        ⟨Opcode.tableswitch, .table 20 (-1) 0 [24, -7]⟩, ⟨Opcode.goto, .branch (-40)⟩] ∧
      ∃ encodings : List (List UInt8),
        List.Forall₂ (fun place encoding => place.2.encode place.1 = .ok encoding ∧
            encoding.length = place.2.length place.1)
          ((offsetsFrom 0 instructions).zip instructions) encodings ∧
        decodeAll encodings.flatten = .ok [(0, ⟨Opcode.iload, .slot 300⟩),
          (4, ⟨Opcode.ldcW, .constant 256⟩), (7, ⟨Opcode.tableswitch, .table 20 (-1) 0 [24, -7]⟩),
          (28, ⟨Opcode.goto, .branch (-40)⟩)] := by
  refine ⟨_, rfl, ?_⟩
  obtain ⟨encodings, hforall, -, hdecode, -⟩ := decodeAll_flatten_encodings
    [⟨Opcode.iload, .slot 300⟩, ⟨Opcode.ldc, .constant 256⟩,
      ⟨Opcode.tableswitch, .table 20 (-1) 0 [24, -7]⟩, ⟨Opcode.goto, .branch (-40)⟩] (by
    intro instruction hmem
    simp only [List.mem_cons, List.not_mem_nil, or_false] at hmem
    obtain rfl | rfl | rfl | rfl := hmem
    · exact .inl ⟨[0xC4, 0x15, 0x01, 0x2C], 0, by decide +kernel⟩
    · exact .inr ⟨256, rfl⟩
    · exact .inl ⟨[0, 0, 0, 0xAA, 0, 0, 0, 20, 0xFF, 0xFF, 0xFF, 0xFF, 0, 0, 0, 0, 0, 0, 0, 24,
        0xFF, 0xFF, 0xFF, 0xF9], 3, by decide +kernel⟩
    · exact .inl ⟨[0xA7, 0xFF, 0xD8], 0, by decide +kernel⟩)
  exact ⟨encodings, hforall, hdecode⟩

end JvmTrim
