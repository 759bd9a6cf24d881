import JvmTrim.Proofs.RoundTrip

/-!
# What an instruction is read from and what it is written as

Reading a body cuts it into pieces, one for each instruction, without gaps. Writing an instruction
at its offset gives its piece back, with two exceptions. Some bytes of a piece are skipped when it
is read, the padding of a switch and the reserved bytes of two kinds of calls, and these are written
as zeros whatever they were. A `wide` marker that the operand does not need is not written at all,
so the instruction becomes shorter; it still reads as the same instruction.

## Main definitions

* `Instruction.skips`: the bytes of an instruction that reading skips
* `Instruction.Restores`: some bytes are those of a piece, apart from what is skipped
* `Instruction.Rewrites`: an instruction is written as the bytes that it was read from
* `Instruction.TakenFrom`: what holds of an instruction and the piece that it was read from

## Main results

* `Instruction.rewrites_of_decode`: an instruction is written as it was read
* `decodeAll_pieces`: the pieces of a decoded body and what its instructions are written as
-/

namespace JvmTrim

/-! ## Words -/

namespace Bytes

theorem toNat_toUInt16 (high low : UInt8) :
    (toUInt16 high low).toNat = high.toNat * 2 ^ 8 + low.toNat := by
  have hhigh := high.toNat_lt
  have hlow := low.toNat_lt
  simp only [toUInt16, UInt16.toNat_or, UInt16.toNat_shiftLeft, UInt8.toNat_toUInt16,
    show UInt16.toNat 8 % 16 = 8 from rfl]
  rw [Nat.mod_eq_of_lt (by simp only [Nat.shiftLeft_eq]; omega),
    ← Nat.shiftLeft_add_eq_or_of_lt (by omega), Nat.shiftLeft_eq]

theorem ofUInt16_toUInt16 (high low : UInt8) : ofUInt16 (toUInt16 high low) = [high, low] := by
  have hlow := low.toNat_lt
  have hhigh := high.toNat_lt
  simp only [ofUInt16, List.cons.injEq, and_true]
  constructor
  · apply UInt8.toNat_inj.1
    simp only [UInt16.toNat_toUInt8, UInt16.toNat_shiftRight, Nat.shiftRight_eq_div_pow,
      toNat_toUInt16, show UInt16.toNat 8 % 16 = 8 from rfl]
    omega
  · apply UInt8.toNat_inj.1
    simp only [UInt16.toNat_toUInt8, toNat_toUInt16]
    omega

theorem toNat_toUInt32 (a b c d : UInt8) : (toUInt32 a b c d).toNat =
    a.toNat * 2 ^ 24 + b.toNat * 2 ^ 16 + c.toNat * 2 ^ 8 + d.toNat := by
  have ha := a.toNat_lt
  have hb := b.toNat_lt
  have hc := c.toNat_lt
  have hd := d.toNat_lt
  simp only [toUInt32, UInt32.toNat_or, UInt32.toNat_shiftLeft, UInt8.toNat_toUInt32,
    show UInt32.toNat 8 % 32 = 8 from rfl, show UInt32.toNat 16 % 32 = 16 from rfl,
    show UInt32.toNat 24 % 32 = 24 from rfl]
  rw [Nat.mod_eq_of_lt (a := a.toNat <<< 24) (by simp only [Nat.shiftLeft_eq]; omega),
    Nat.mod_eq_of_lt (a := b.toNat <<< 16) (by simp only [Nat.shiftLeft_eq]; omega),
    Nat.mod_eq_of_lt (a := c.toNat <<< 8) (by simp only [Nat.shiftLeft_eq]; omega),
    Nat.or_assoc, Nat.or_assoc, ← Nat.shiftLeft_add_eq_or_of_lt (i := 8) (by omega),
    ← Nat.shiftLeft_add_eq_or_of_lt (i := 16) (by simp only [Nat.shiftLeft_eq]; omega),
    ← Nat.shiftLeft_add_eq_or_of_lt (i := 24) (by simp only [Nat.shiftLeft_eq]; omega)]
  simp only [Nat.shiftLeft_eq]
  omega

theorem ofUInt32_toUInt32 (a b c d : UInt8) : ofUInt32 (toUInt32 a b c d) = [a, b, c, d] := by
  have ha := a.toNat_lt
  have hb := b.toNat_lt
  have hc := c.toNat_lt
  have hd := d.toNat_lt
  simp only [ofUInt32, List.cons.injEq, and_true]
  refine ⟨?_, ?_, ?_, ?_⟩
  all_goals
    apply UInt8.toNat_inj.1
    simp only [UInt32.toNat_toUInt8, UInt32.toNat_shiftRight, Nat.shiftRight_eq_div_pow,
      toNat_toUInt32, show UInt32.toNat 8 % 32 = 8 from rfl,
      show UInt32.toNat 16 % 32 = 16 from rfl, show UInt32.toNat 24 % 32 = 24 from rfl]
    omega

end Bytes

/-! ## What a read took -/

namespace Read

variable {α : Type} {cursor cursor' : Cursor}

theorem rest_uint8 {a : UInt8} (h : uint8 cursor = .ok (a, cursor')) :
    cursor.rest = a :: cursor'.rest := by
  obtain ⟨position, rest⟩ := cursor
  match rest, h with
  | _ :: _, h =>
    cases h
    rfl

theorem rest_uint16 {a : UInt16} (h : uint16 cursor = .ok (a, cursor')) :
    cursor.rest = Bytes.ofUInt16 a ++ cursor'.rest := by
  obtain ⟨position, rest⟩ := cursor
  match rest, h with
  | _ :: _ :: _, h =>
    cases h
    rw [Bytes.ofUInt16_toUInt16]
    rfl

theorem rest_int8 {a : Int8} (h : int8 cursor = .ok (a, cursor')) :
    cursor.rest = a.toUInt8 :: cursor'.rest := by
  obtain ⟨byte, middle, hbyte, h⟩ := bind_eq_ok h
  cases h
  rw [rest_uint8 hbyte, UInt8.toUInt8_toInt8]

theorem rest_int16 {a : Int16} (h : int16 cursor = .ok (a, cursor')) :
    cursor.rest = Bytes.ofInt16 a ++ cursor'.rest := by
  obtain ⟨word, middle, hword, h⟩ := bind_eq_ok h
  cases h
  rw [rest_uint16 hword, Bytes.ofInt16, UInt16.toUInt16_toInt16]

theorem rest_int32 {a : Int32} (h : int32 cursor = .ok (a, cursor')) :
    cursor.rest = Bytes.ofInt32 a ++ cursor'.rest := by
  obtain ⟨position, rest⟩ := cursor
  match rest, h with
  | _ :: _ :: _ :: _ :: _, h =>
    cases h
    rw [Bytes.ofInt32, UInt32.toUInt32_toInt32, Bytes.ofUInt32_toUInt32]
    rfl

/-- Aligning takes as many bytes as are missing to the next multiple of four. -/
theorem rest_align_four {a : Unit} (h : align 4 cursor = .ok (a, cursor')) :
    ∃ padding, padding.length = (4 - cursor.position % 4) % 4 ∧
      cursor.rest = padding ++ cursor'.rest := by
  obtain ⟨padding, hposition, hrest⟩ := Consumes.align_four _ _ _ h
  have hlength := position_align_four h
  exact ⟨padding, by omega, hrest⟩

/-- Items that are read one after another were written one after another. -/
theorem rest_repeated {item : Read α} {write : α → List UInt8}
    (hitem : ∀ c c' a, item c = .ok (a, c') → c.rest = write a ++ c'.rest) {count : Nat}
    {acc items : List α} (h : repeated item count acc cursor = .ok (items, cursor')) :
    ∃ fresh, items = acc.reverse ++ fresh ∧ cursor.rest = fresh.flatMap write ++ cursor'.rest := by
  induction count generalizing acc cursor with
  | zero =>
    cases h
    exact ⟨[], by simp, rfl⟩
  | succ count ih =>
    obtain ⟨a, middle, ha, h⟩ := bind_eq_ok h
    obtain ⟨fresh, rfl, hfresh⟩ := ih h
    refine ⟨a :: fresh, by simp, ?_⟩
    rw [hitem _ _ _ ha, hfresh, List.flatMap_cons, List.append_assoc]

end Read

namespace Instruction

/-! ## Bytes that are skipped -/

/-- Whether reading an instruction at an offset skips the byte at an index of it: the padding of a
switch, and what is reserved behind the operands of two kinds of calls. -/
def skips (instruction : Instruction) (offset index : Nat) : Bool :=
  match instruction.operand with
  | .table .. | .lookup .. => 0 < index && index ≤ switchPadding offset
  | .interfaceCall .. => index == 4
  | .constant _ => instruction.opcode == Opcode.invokedynamic && (index == 3 || index == 4)
  | _ => false

/-- Whether the bytes that an instruction is written as are those of a piece, apart from bytes that
are skipped when the piece is read. -/
structure Restores (instruction : Instruction) (offset : Nat) (piece written : List UInt8) :
    Prop where
  length_eq : written.length = piece.length
  agree : ∀ index, instruction.skips offset index = false → written[index]? = piece[index]?

theorem Restores.refl (instruction : Instruction) (offset : Nat) (piece : List UInt8) :
    instruction.Restores offset piece piece := ⟨rfl, fun _ _ => rfl⟩

/-- Only a part in the middle differs, and all of it is skipped. -/
theorem restores_of_middle {instruction : Instruction} {offset : Nat}
    (front skipped zeros back : List UInt8) (hlength : zeros.length = skipped.length)
    (h : ∀ index, front.length ≤ index → index < front.length + skipped.length →
      instruction.skips offset index = true) :
    instruction.Restores offset (front ++ (skipped ++ back)) (front ++ (zeros ++ back)) where
  length_eq := by simp [hlength]
  agree index hkept := by
    rcases Nat.lt_or_ge index front.length with hfront | hfront
    · rw [List.getElem?_append_left hfront, List.getElem?_append_left hfront]
    rcases Nat.lt_or_ge index (front.length + skipped.length) with hmiddle | hback
    · rw [h index hfront hmiddle] at hkept
      cases hkept
    · rw [List.getElem?_append_right hfront, List.getElem?_append_right hfront,
        List.getElem?_append_right (by omega), List.getElem?_append_right (by omega), hlength]

/-! ## Writing what was read -/

theorem encode_of_readTable {offset position : Nat} {rest : List UInt8} {cursor' : Cursor}
    {operand : Operand} (h : readTable offset ⟨position, rest⟩ = .ok (operand, cursor')) :
    ∃ padding default low high displacements,
      operand = .table default low high displacements ∧
      padding.length = (4 - position % 4) % 4 ∧
      rest = padding ++ (default :: low :: high :: displacements).flatMap Bytes.ofInt32 ++
        cursor'.rest := by
  obtain ⟨default, low, high, displacements, _, _, _, _, rfl, -, h₁, h₂, h₃, h₄, hd⟩ :=
    readTable_eq_ok h
  obtain ⟨padding, hpadding, hrest⟩ := Read.rest_align_four h₁
  obtain ⟨fresh, hfresh, hentries⟩ := Read.rest_repeated (fun _ _ _ => Read.rest_int32) hd
  rw [List.reverse_nil, List.nil_append] at hfresh
  subst hfresh
  refine ⟨padding, default, low, high, displacements, rfl, hpadding, ?_⟩
  simp only at hrest
  rw [hrest, Read.rest_int32 h₂, Read.rest_int32 h₃, Read.rest_int32 h₄, hentries]
  simp only [List.flatMap_cons, List.append_assoc]

theorem rest_readCase {cursor cursor' : Cursor} {entry : Int32 × Int32}
    (h : readCase cursor = .ok (entry, cursor')) :
    cursor.rest = (Bytes.ofInt32 entry.1 ++ Bytes.ofInt32 entry.2) ++ cursor'.rest := by
  obtain ⟨middle, hk, hd⟩ := readCase_eq_ok h
  rw [Read.rest_int32 hk, Read.rest_int32 hd, List.append_assoc]

theorem encode_of_readLookup {offset position : Nat} {rest : List UInt8} {cursor' : Cursor}
    {operand : Operand} (h : readLookup offset ⟨position, rest⟩ = .ok (operand, cursor')) :
    ∃ padding default cases, operand = .lookup default cases ∧
      padding.length = (4 - position % 4) % 4 ∧
      rest = padding ++ (Bytes.ofInt32 default ++ (Bytes.ofInt32 (Int32.ofNat cases.length) ++
        cases.flatMap fun c => Bytes.ofInt32 c.1 ++ Bytes.ofInt32 c.2)) ++ cursor'.rest := by
  obtain ⟨default, count, cases, _, _, _, rfl, hnonneg, h₁, h₂, h₃, hc⟩ := readLookup_eq_ok h
  obtain ⟨padding, hpadding, hrest⟩ := Read.rest_align_four h₁
  obtain ⟨fresh, hfresh, hentries⟩ := Read.rest_repeated (fun _ _ _ => rest_readCase) hc
  rw [List.reverse_nil, List.nil_append] at hfresh
  subst hfresh
  have hcount : Int32.ofNat cases.length = count := by
    have hlength := toInt_eq_length_of_readCases hnonneg hc
    have hhigh := count.toInt_lt
    apply Int32.toInt_inj.1
    rw [Int32.toInt_ofNat_of_lt (by omega), hlength]
  refine ⟨padding, default, cases, rfl, hpadding, ?_⟩
  simp only at hrest
  rw [hrest, Read.rest_int32 h₂, Read.rest_int32 h₃, hentries, hcount]
  simp only [List.append_assoc]

/-- Behind the `wide` marker, what is read is written again if its operand needs the marker. -/
theorem encode_of_readWide {offset position : Nat} {rest : List UInt8} {cursor' : Cursor}
    {instruction : Instruction}
    (h : readWide offset ⟨position, rest⟩ = .ok (instruction, cursor'))
    (hneeds : instruction.needsWide = true) :
    ∃ taken, rest = taken ++ cursor'.rest ∧
      instruction.encode offset = .ok (Opcode.wide :: taken) := by
  obtain ⟨opcode, middle, ho, ⟨-, index, hi, rfl⟩ | ⟨hl, index, after, delta, hi, hd, rfl⟩⟩ :=
    readWide_eq_ok h
  all_goals
    have hrest := Read.rest_uint8 ho
    simp only at hrest
  · refine ⟨opcode :: Bytes.ofUInt16 index, ?_, ?_⟩
    · rw [hrest, Read.rest_uint16 hi, List.cons_append]
    · simp only [encode, hneeds, if_true]
  · obtain rfl := Opcode.eq_iinc_of_layout hl
    refine ⟨Opcode.iinc :: (Bytes.ofUInt16 index ++ Bytes.ofInt16 delta), ?_, ?_⟩
    · rw [hrest, Read.rest_uint16 hi, Read.rest_int16 hd, List.cons_append, List.append_assoc]
    · simp only [encode, hneeds, if_true]

/-- Whether an instruction is written as the first byte and what was taken behind it, apart from
bytes that are skipped. -/
def Rewrites (offset : Nat) (opcode : Opcode) (rest : List UInt8) (cursor' : Cursor)
    (instruction : Instruction) : Prop :=
  ∃ taken written, rest = taken ++ cursor'.rest ∧ instruction.encode offset = .ok written ∧
    instruction.Restores offset (opcode :: taken) written

theorem rewrites_of_eq {offset : Nat} {opcode : Opcode} {rest : List UInt8} {cursor' : Cursor}
    {instruction : Instruction} (taken : List UInt8) (hrest : rest = taken ++ cursor'.rest)
    (hwritten : instruction.encode offset = .ok (opcode :: taken)) :
    instruction.Rewrites offset opcode rest cursor' :=
  ⟨taken, _, hrest, hwritten, .refl _ _ _⟩

/-- Behind any opcode but the `wide` marker, what is read is what is written. -/
theorem rewrites_of_readOperand {offset : Nat} {opcode : Opcode} {layout : Layout}
    {rest : List UInt8} {cursor' : Cursor} {instruction : Instruction}
    (hl : opcode.layout? = some layout) (hne : layout ≠ .wide)
    (h : readOperand offset opcode layout ⟨offset + 1, rest⟩ = .ok (instruction, cursor')) :
    instruction.Rewrites offset opcode rest cursor' := by
  cases layout with
  | bare =>
    cases h
    exact rewrites_of_eq [] (List.nil_append rest).symm rfl
  | byte =>
    obtain ⟨value, c₁, h₁, h⟩ := Read.bind_eq_ok h
    cases h
    exact rewrites_of_eq [value.toUInt8] (Read.rest_int8 h₁) rfl
  | short =>
    obtain ⟨value, c₁, h₁, h⟩ := Read.bind_eq_ok h
    cases h
    exact rewrites_of_eq _ (Read.rest_int16 h₁) rfl
  | shortConstant =>
    obtain ⟨index, c₁, h₁, h⟩ := Read.bind_eq_ok h
    cases h
    obtain rfl := Opcode.eq_ldc_of_layout hl
    refine rewrites_of_eq [index] (Read.rest_uint8 h₁) ?_
    simp only [encode, toUInt16_le, if_true, UInt8.toUInt8_toUInt16]
  | constant =>
    obtain ⟨index, c₁, h₁, h⟩ := Read.bind_eq_ok h
    cases h
    obtain ⟨hldc, hdynamic⟩ := Opcode.ne_of_layout_constant hl
    refine rewrites_of_eq _ (Read.rest_uint16 h₁) ?_
    simp only [encode, if_neg hldc, if_neg hdynamic]
  | slot =>
    obtain ⟨index, c₁, h₁, h⟩ := Read.bind_eq_ok h
    cases h
    refine rewrites_of_eq [index] (Read.rest_uint8 h₁) ?_
    simp only [encode, needsWide_toUInt16, Bool.false_eq_true, if_false, UInt8.toUInt8_toUInt16]
  | increment =>
    obtain ⟨index, c₁, h₁, h⟩ := Read.bind_eq_ok h
    obtain ⟨delta, c₂, h₂, h⟩ := Read.bind_eq_ok h
    cases h
    obtain rfl := Opcode.eq_iinc_of_layout hl
    refine rewrites_of_eq [index, delta.toUInt8] ?_ ?_
    · exact (Read.rest_uint8 h₁).trans (congrArg (index :: ·) (Read.rest_int8 h₂))
    · simp only [encode, needsWide_toInt16, Bool.false_eq_true, if_false, UInt8.toUInt8_toUInt16,
        Int8.toInt8_toInt16]
  | branch =>
    obtain ⟨value, c₁, h₁, h⟩ := Read.bind_eq_ok h
    cases h
    refine rewrites_of_eq _ (Read.rest_int16 h₁) ?_
    simp only [encode, Opcode.not_isWideBranch_of_layout hl, fitsShort_toInt32, Bool.false_eq_true,
      if_false, if_true, Int16.toInt16_toInt32]
  | wideBranch =>
    obtain ⟨value, c₁, h₁, h⟩ := Read.bind_eq_ok h
    cases h
    refine rewrites_of_eq _ (Read.rest_int32 h₁) ?_
    simp only [encode, Opcode.isWideBranch_of_layout hl, if_true]
  | arrayType =>
    obtain ⟨code, c₁, h₁, h⟩ := Read.bind_eq_ok h
    cases h
    exact rewrites_of_eq [code] (Read.rest_uint8 h₁) rfl
  | multiArray =>
    obtain ⟨index, c₁, h₁, h⟩ := Read.bind_eq_ok h
    obtain ⟨dimensions, c₂, h₂, h⟩ := Read.bind_eq_ok h
    cases h
    refine rewrites_of_eq (Bytes.ofUInt16 index ++ [dimensions]) ?_ rfl
    rw [List.append_assoc]
    exact (Read.rest_uint16 h₁).trans (congrArg (Bytes.ofUInt16 index ++ ·) (Read.rest_uint8 h₂))
  | table =>
    obtain ⟨operand, c₁, h₁, h⟩ := Read.bind_eq_ok h
    obtain ⟨padding, default, low, high, displacements, rfl, hpadding, hrest⟩ :=
      encode_of_readTable h₁
    cases h
    rw [← switchPadding] at hpadding
    refine ⟨_, _, hrest, rfl, restores_of_middle [opcode] padding _ _ ?_ fun index hlow hhigh => ?_⟩
    · rw [List.length_replicate, hpadding]
    · simp only [List.length_singleton, hpadding] at hlow hhigh
      simp only [skips, Bool.and_eq_true, decide_eq_true_eq]
      omega
  | lookup =>
    obtain ⟨operand, c₁, h₁, h⟩ := Read.bind_eq_ok h
    obtain ⟨padding, default, cases, rfl, hpadding, hrest⟩ := encode_of_readLookup h₁
    cases h
    rw [← switchPadding] at hpadding
    refine ⟨_, _, hrest, ?_, restores_of_middle [opcode] padding
      (List.replicate (switchPadding offset) 0) _ ?_ fun index hlow hhigh => ?_⟩
    · simp only [encode, List.singleton_append, List.append_assoc]
    · rw [List.length_replicate, hpadding]
    · simp only [List.length_singleton, hpadding] at hlow hhigh
      simp only [skips, Bool.and_eq_true, decide_eq_true_eq]
      omega
  | interfaceCall =>
    obtain ⟨index, c₁, h₁, h⟩ := Read.bind_eq_ok h
    obtain ⟨count, c₂, h₂, h⟩ := Read.bind_eq_ok h
    obtain ⟨reserved, c₃, h₃, h⟩ := Read.bind_eq_ok h
    cases h
    refine ⟨Bytes.ofUInt16 index ++ [count, reserved], _, ?_, rfl,
      restores_of_middle (opcode :: (Bytes.ofUInt16 index ++ [count])) [reserved] [0] [] rfl
        fun position hlow hhigh => ?_⟩
    · rw [List.append_assoc]
      refine (Read.rest_uint16 h₁).trans (congrArg (Bytes.ofUInt16 index ++ ·) ?_)
      exact (Read.rest_uint8 h₂).trans (congrArg (count :: ·) (Read.rest_uint8 h₃))
    · simp only [List.length_cons, List.length_append, Bytes.length_ofUInt16, List.length_nil]
        at hlow hhigh
      simp only [skips, beq_iff_eq]
      omega
  | dynamicCall =>
    obtain ⟨index, c₁, h₁, h⟩ := Read.bind_eq_ok h
    obtain ⟨reserved, c₂, h₂, h⟩ := Read.bind_eq_ok h
    cases h
    obtain rfl := Opcode.eq_invokedynamic_of_layout hl
    have hne : Opcode.invokedynamic ≠ Opcode.ldc := by decide
    refine ⟨Bytes.ofUInt16 index ++ Bytes.ofUInt16 reserved,
      Opcode.invokedynamic :: (Bytes.ofUInt16 index ++ [0, 0]), ?_, ?_,
      restores_of_middle (Opcode.invokedynamic :: Bytes.ofUInt16 index) (Bytes.ofUInt16 reserved)
        [0, 0] [] rfl fun position hlow hhigh => ?_⟩
    · rw [List.append_assoc]
      exact (Read.rest_uint16 h₁).trans
        (congrArg (Bytes.ofUInt16 index ++ ·) (Read.rest_uint16 h₂))
    · simp only [encode, if_neg hne, if_true]
    · simp only [List.length_cons, Bytes.length_ofUInt16] at hlow hhigh
      simp only [skips, beq_self_eq_true, Bool.true_and, Bool.or_eq_true, beq_iff_eq]
      omega
  | wide => exact absurd rfl hne

/-- **An instruction is written as it was read**, apart from bytes that were skipped, unless it was
read behind a `wide` marker that it does not need. -/
theorem rewrites_of_decode {offset : Nat} {first : UInt8} {rest : List UInt8} {cursor' : Cursor}
    {instruction : Instruction}
    (h : decode offset ⟨offset, first :: rest⟩ = .ok (instruction, cursor'))
    (hneeded : instruction.isOverwide first = false) :
    instruction.Rewrites offset first rest cursor' := by
  cases hlayout : Opcode.layout? first with
  | none =>
    obtain ⟨_, _, hfirst, h⟩ := Read.bind_eq_ok h
    cases hfirst
    simp only [hlayout] at h
    cases h
  | some layout =>
    rw [decode_cons hlayout] at h
    by_cases hwide : layout = .wide
    · subst hwide
      obtain rfl := Opcode.eq_wide_of_layout hlayout
      rw [readOperand] at h
      rw [isOverwide, beq_self_eq_true, Bool.true_and, Bool.not_eq_false'] at hneeded
      obtain ⟨taken, hrest, hwritten⟩ := encode_of_readWide h hneeded
      exact rewrites_of_eq taken hrest hwritten
    · exact rewrites_of_readOperand hlayout hwide h

/-- What holds of an instruction at an offset and the piece of the code that it was read from. -/
structure TakenFrom (offset : Nat) (instruction : Instruction) (piece : List UInt8) : Prop where
  /-- The piece is as long as the instruction, and longer only for a needless `wide` marker. -/
  length_eq : ∃ first ∈ piece.head?,
    piece.length = instruction.length offset + instruction.surplus first
  /-- The instruction can be written at its offset, what is written reads as the instruction in
  whatever code it stands, and it is the piece again unless there is such a marker. -/
  written : ∃ written, instruction.encode offset = .ok written ∧
    (∀ front rest, front.length = offset →
      decodeAt (front ++ (written ++ rest)) offset = .ok instruction) ∧
    ((∀ first ∈ piece.head?, instruction.isOverwide first = false) →
      instruction.Restores offset piece written)

/-- What stands behind the front of some code is read at the length of the front. -/
theorem decodeAt_of_decode {front rest : List UInt8} {instruction : Instruction} {cursor' : Cursor}
    (h : decode front.length ⟨front.length, rest⟩ = .ok (instruction, cursor')) :
    decodeAt (front ++ rest) front.length = .ok instruction := by
  have hseek : Cursor.seek (front ++ rest) front.length = .ok ⟨front.length, rest⟩ := by
    have hinside : ¬ front.length > (front ++ rest).length := by simp
    rw [Cursor.seek, if_neg hinside, List.drop_left]
  simp only [decodeAt, hseek, h, bind, Except.bind, pure, Except.pure]

/-- What is written at an offset of some code is read there. -/
theorem decodeAt_of_encode {front bytes : List UInt8} {instruction : Instruction}
    (hwell : instruction.WellFormed) (hfits : instruction.Fits)
    (h : instruction.encode front.length = .ok bytes) (rest : List UInt8) :
    decodeAt (front ++ (bytes ++ rest)) front.length = .ok instruction := by
  have hdecode := decode_encode hwell h rest
  rw [stored_of_fits hfits] at hdecode
  exact decodeAt_of_decode hdecode

theorem takenFrom_of_decode {offset : Nat} {first : UInt8} {taken rest : List UInt8}
    {instruction : Instruction}
    (h : decode offset ⟨offset, first :: (taken ++ rest)⟩ =
      .ok (instruction, ⟨offset + (first :: taken).length, rest⟩)) :
    TakenFrom offset instruction (first :: taken) where
  length_eq := by
    have hlength := position_of_decode h
    simp only at hlength
    exact ⟨first, rfl, by omega⟩
  written := by
    have hfits := fits_of_decode h
    obtain ⟨written, hwritten⟩ := exists_encode hfits offset
    refine ⟨written, hwritten, fun front rest hfront => ?_, fun hneeded => ?_⟩
    · subst hfront
      exact decodeAt_of_encode (wellFormed_of_decode h) hfits hwritten rest
    · obtain ⟨taken', written', hrest, hwritten', hrestores⟩ :=
        rewrites_of_decode h (hneeded first rfl)
      obtain rfl := List.append_cancel_right hrest
      obtain rfl := Except.ok.inj (hwritten.symm.trans hwritten')
      exact hrestores

end Instruction

open Instruction

/-! ## Whole bodies -/

/-- The loop cuts what is left of the code into pieces and reads one instruction from each. -/
theorem pieces_of_decodeLoop {bound : Nat} {front rest : List UInt8}
    {decoded instructions : List (Nat × Instruction)}
    (h : decodeLoop bound ⟨front.length, rest⟩ decoded = .ok instructions) :
    ∃ others pieces, instructions = decoded.reverse ++ others ∧ pieces.flatten = rest ∧
      (∀ count ≤ others.length, (others.map (·.1) ++ [(front ++ rest).length])[count]? =
        some (front.length + (pieces.take count).flatten.length)) ∧
      List.Forall₂ (fun entry piece => TakenFrom entry.1 entry.2 piece) others pieces ∧
      ∀ entry ∈ others, decodeAt (front ++ rest) entry.1 = .ok entry.2 := by
  have hend (front : List UInt8) : ∀ count ≤ 0, [(front ++ []).length][count]? =
      some (front.length + (([] : List (List UInt8)).take count).flatten.length) := by
    intro count hcount
    obtain rfl := Nat.le_zero.1 hcount
    simp
  induction bound generalizing front rest decoded with
  | zero =>
    cases rest with
    | nil =>
      cases h
      exact ⟨[], [], by simp, rfl, hend front, .nil, by simp⟩
    | cons first rest => cases h
  | succ bound ih =>
    cases rest with
    | nil =>
      cases h
      exact ⟨[], [], by simp, rfl, hend front, .nil, by simp⟩
    | cons first rest =>
      obtain ⟨⟨instruction, ⟨position, rest'⟩⟩, hdecode, h⟩ := Except.bind_eq_ok.mp h
      obtain ⟨_, taken, hposition, hrest⟩ := Instruction.exists_taken_of_decode hdecode
      simp only [List.cons_append, List.cons.injEq] at hposition hrest
      obtain ⟨rfl, rfl⟩ := hrest
      have hhere := decodeAt_of_decode hdecode
      subst hposition
      have hfront : front.length + (first :: taken).length = (front ++ first :: taken).length := by
        rw [List.length_append]
      rw [hfront] at h
      obtain ⟨others, pieces, rfl, rfl, hoffsets, hpieces, hread⟩ := ih h
      rw [List.append_assoc, List.cons_append] at hoffsets hread
      refine ⟨(front.length, instruction) :: others, (first :: taken) :: pieces, by simp, rfl, ?_,
        .cons (takenFrom_of_decode hdecode) hpieces, ?_⟩
      · intro count hcount
        cases count with
        | zero => simp
        | succ count =>
          have hothers := hoffsets count (Nat.le_of_succ_le_succ hcount)
          simpa [Nat.add_assoc, Nat.add_comm 1] using hothers
      · intro entry hentry
        obtain rfl | hentry := List.mem_cons.1 hentry
        · exact hhere
        · exact hread entry hentry

/-- **Reading cuts a body into pieces and writing gives them back.** The pieces make up the whole
code, each begins at the offset of its instruction, where the one before ends, and the last one ends
with the code. An instruction can be written at its offset, is read again from what was written, and
what was written is its piece, apart from bytes that were skipped, unless the piece has a `wide`
marker that the operand does not need. -/
theorem decodeAll_pieces {code : List UInt8} {instructions : List (Nat × Instruction)}
    (h : decodeAll code = .ok instructions) :
    ∃ pieces : List (List UInt8), pieces.flatten = code ∧
      (∀ count ≤ instructions.length, (instructions.map (·.1) ++ [code.length])[count]? =
        some (pieces.take count).flatten.length) ∧
      List.Forall₂ (fun entry piece => TakenFrom entry.1 entry.2 piece) instructions pieces ∧
      instructions.Pairwise (fun a b => a.1 < b.1) ∧
      ∀ entry ∈ instructions, decodeAt code entry.1 = .ok entry.2 := by
  have hloop : decodeLoop code.length ⟨([] : List UInt8).length, code⟩ [] = .ok instructions := h
  obtain ⟨others, pieces, rfl, hcode, hoffsets, hpieces, hread⟩ := pieces_of_decodeLoop hloop
  exact ⟨pieces, hcode, by simpa using hoffsets, hpieces, ascending_of_decodeAll h, hread⟩

/-- A `wide` marker before slot 5, a switch behind padding that is not zero, and an interface call
whose reserved byte is not zero. -/
theorem decodeAll_pieces_skipped :
    ∃ code : List UInt8, ∃ instructions : List (Nat × Instruction),
      code = [0xC4, 0x15, 0, 5, 0xAA, 1, 2, 3, 0, 0, 0, 20, 0, 0, 0, 0, 0, 0, 0, 0, 0, 0, 0, 20,
        0xB9, 0, 1, 1, 7, 0xB1] ∧
      instructions = [(0, ⟨Opcode.iload, .slot 5⟩), (4, ⟨Opcode.tableswitch, .table 20 0 0 [20]⟩),
        (24, ⟨Opcode.invokeinterface, .interfaceCall 1 1⟩), (29, simple 0xB1)] ∧
      decodeAll code = .ok instructions ∧
      ∃ pieces : List (List UInt8), pieces.flatten = code ∧
        (∀ count ≤ instructions.length, (instructions.map (·.1) ++ [code.length])[count]? =
          some (pieces.take count).flatten.length) ∧
        List.Forall₂ (fun entry piece => TakenFrom entry.1 entry.2 piece) instructions pieces ∧
        instructions.Pairwise (fun a b => a.1 < b.1) ∧
        ∀ entry ∈ instructions, decodeAt code entry.1 = .ok entry.2 := by
  have hdecode : decodeAll [0xC4, 0x15, 0, 5, 0xAA, 1, 2, 3, 0, 0, 0, 20, 0, 0, 0, 0, 0, 0, 0, 0,
      0, 0, 0, 20, 0xB9, 0, 1, 1, 7, 0xB1] = .ok [(0, ⟨Opcode.iload, .slot 5⟩),
        (4, ⟨Opcode.tableswitch, .table 20 0 0 [20]⟩),
        (24, ⟨Opcode.invokeinterface, .interfaceCall 1 1⟩), (29, simple 0xB1)] := by
    decide +kernel
  exact ⟨_, _, rfl, rfl, hdecode, decodeAll_pieces hdecode⟩

end JvmTrim
