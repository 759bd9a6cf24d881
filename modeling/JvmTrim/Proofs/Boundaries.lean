import JvmTrim.Proofs.Codec
import JvmTrim.Proofs.Outcome
import Mathlib.Data.List.Chain

/-!
# Instruction boundaries

Reading consumes bytes from the front and nothing else, and an instruction takes at least one. So the
offsets that a body decodes to ascend and lie inside the body, and looking up an offset in a listing
finds exactly the instruction that was decoded there.

## Main results

* `Instruction.lt_of_decode`: an instruction takes at least one byte
* `Instruction.position_of_decode`: an instruction takes its own length, up to a needless `wide`
* `Instruction.length_le_of_decode`: no instruction is longer than what it was read from
* `ascending_of_decodeAll`, `lt_of_decodeAll`: the offsets of a decoded body
* `next_of_decodeAll`: the offset of the next instruction
* `Listing.get?_eq_some_iff`: looking up an offset
-/

namespace JvmTrim

/-- Whether a read takes bytes from the front of what is left and leaves the others. -/
def Read.Consumes {α : Type} (read : Read α) : Prop :=
  ∀ cursor cursor' a, read cursor = .ok (a, cursor') →
    ∃ taken, cursor'.position = cursor.position + taken.length ∧
      cursor.rest = taken ++ cursor'.rest

namespace Read.Consumes

variable {α β : Type}

theorem pure (a : α) : (Pure.pure a : Read α).Consumes := by
  intro cursor cursor' b h
  cases h
  exact ⟨[], rfl, rfl⟩

theorem bind {read : Read α} {next : α → Read β} (hr : read.Consumes)
    (hn : ∀ a, (next a).Consumes) : (read >>= next).Consumes := by
  intro cursor cursor' b h
  obtain ⟨a, middle, ha, hb⟩ := Read.bind_eq_ok h
  obtain ⟨first, hp, hl⟩ := hr _ _ _ ha
  obtain ⟨second, hp', hl'⟩ := hn a _ _ _ hb
  refine ⟨first ++ second, ?_, by rw [hl, hl', List.append_assoc]⟩
  rw [hp', hp, List.length_append, Nat.add_assoc]

theorem ite {p : Prop} [Decidable p] {a b : Read α} (ha : a.Consumes) (hb : b.Consumes) :
    (if p then a else b).Consumes := by
  split
  · exact ha
  · exact hb

theorem lift_error (failure : Failure) : (liftM (Except.error failure : Except Failure α) :
    Read α).Consumes := by
  intro cursor cursor' b h
  cases h

/-- A check in front of a read. -/
theorem check {p : Prop} [Decidable p] {cause : Defect} {read : Read α} (h : read.Consumes) :
    (if p then (liftM (defect cause : Except Failure Unit) : Read Unit) >>= fun _ => read
      else read).Consumes :=
  .ite ((lift_error _).bind fun _ => h) h

theorem uint8 : Read.uint8.Consumes := by
  intro ⟨position, rest⟩ cursor' a h
  match rest, h with
  | _ :: _, h =>
    cases h
    exact ⟨[a], rfl, rfl⟩

theorem uint16 : Read.uint16.Consumes := by
  intro ⟨position, rest⟩ cursor' a h
  match rest, h with
  | first :: second :: _, h =>
    cases h
    exact ⟨[first, second], rfl, rfl⟩

theorem int8 : Read.int8.Consumes := uint8.bind fun _ => pure _

theorem int16 : Read.int16.Consumes := uint16.bind fun _ => pure _

theorem int32 : Read.int32.Consumes := by
  intro ⟨position, rest⟩ cursor' a h
  match rest, h with
  | first :: second :: third :: fourth :: _, h =>
    cases h
    exact ⟨[first, second, third, fourth], rfl, rfl⟩

theorem align_four : (Read.align 4).Consumes := by
  intro cursor cursor' a h
  simp only [Read.align, Read.skip, show ¬(4 = 0) by decide, if_false] at h
  split at h
  · cases h
  · rename_i hlong
    cases h
    have hle := Nat.le_of_not_lt hlong
    have hexact := Nat.le_antisymm (List.length_take_le _ cursor.rest) hle
    exact ⟨_, congrArg (cursor.position + ·) hexact.symm, (List.take_append_drop _ _).symm⟩

theorem remaining : Read.remaining.Consumes := by
  intro cursor cursor' a h
  cases h
  exact ⟨[], rfl, rfl⟩

theorem repeated {item : Read α} (h : item.Consumes) (count : Nat) (acc : List α) :
    (Read.repeated item count acc).Consumes := by
  induction count generalizing acc with
  | zero => exact pure _
  | succ count ih => exact h.bind fun _ => ih _

end Read.Consumes

namespace Read

variable {α : Type} {cursor cursor' : Cursor}

theorem position_uint8 {a : UInt8} (h : uint8 cursor = .ok (a, cursor')) :
    cursor'.position = cursor.position + 1 := by
  obtain ⟨position, rest⟩ := cursor
  match rest, h with
  | _ :: _, h =>
    cases h
    rfl

theorem position_uint16 {a : UInt16} (h : uint16 cursor = .ok (a, cursor')) :
    cursor'.position = cursor.position + 2 := by
  obtain ⟨position, rest⟩ := cursor
  match rest, h with
  | _ :: _ :: _, h =>
    cases h
    rfl

theorem position_int8 {a : Int8} (h : int8 cursor = .ok (a, cursor')) :
    cursor'.position = cursor.position + 1 := by
  obtain ⟨byte, _, hbyte, h⟩ := bind_eq_ok h
  cases h
  exact position_uint8 hbyte

theorem position_int16 {a : Int16} (h : int16 cursor = .ok (a, cursor')) :
    cursor'.position = cursor.position + 2 := by
  obtain ⟨word, _, hword, h⟩ := bind_eq_ok h
  cases h
  exact position_uint16 hword

theorem position_int32 {a : Int32} (h : int32 cursor = .ok (a, cursor')) :
    cursor'.position = cursor.position + 4 := by
  obtain ⟨position, rest⟩ := cursor
  match rest, h with
  | _ :: _ :: _ :: _ :: _, h =>
    cases h
    rfl

theorem position_align_four {a : Unit} (h : align 4 cursor = .ok (a, cursor')) :
    cursor'.position = cursor.position + (4 - cursor.position % 4) % 4 := by
  simp only [align, skip, show ¬(4 = 0) by decide, if_false] at h
  split at h
  · cases h
  · cases h
    rfl

theorem position_repeated {item : Read α} {count width : Nat} {acc items : List α}
    (hitem : ∀ c c' a, item c = .ok (a, c') → c'.position = c.position + width)
    (h : repeated item count acc cursor = .ok (items, cursor')) :
    cursor'.position = cursor.position + width * count := by
  induction count generalizing acc cursor with
  | zero =>
    cases h
    simp
  | succ count ih =>
    obtain ⟨a, middle, ha, h⟩ := bind_eq_ok h
    rw [ih h, hitem _ _ _ ha, Nat.mul_succ]
    omega

end Read

namespace Instruction

open Read

theorem consumes_readTable (offset : Nat) : (readTable offset).Consumes := by
  refine Consumes.align_four.bind fun _ => Consumes.int32.bind fun default =>
    Consumes.int32.bind fun low => Consumes.int32.bind fun high => ?_
  exact Consumes.check (Consumes.remaining.bind fun _ =>
    Consumes.check ((Consumes.int32.repeated _ _).bind fun _ => Consumes.pure _))

theorem consumes_readLookup (offset : Nat) : (readLookup offset).Consumes := by
  refine Consumes.align_four.bind fun _ => Consumes.int32.bind fun default =>
    Consumes.int32.bind fun count => ?_
  have hcase : readCase.Consumes :=
    Consumes.int32.bind fun _ => Consumes.int32.bind fun _ => Consumes.pure _
  exact Consumes.check (Consumes.remaining.bind fun _ =>
    Consumes.check ((hcase.repeated _ _).bind fun _ => Consumes.pure _))

theorem consumes_readWide (offset : Nat) : (readWide offset).Consumes := by
  refine Consumes.uint8.bind fun opcode => ?_
  split
  · exact Consumes.uint16.bind fun _ => Consumes.pure _
  · exact Consumes.uint16.bind fun _ => Consumes.int16.bind fun _ => Consumes.pure _
  · exact Consumes.lift_error _

theorem consumes_readOperand (offset : Nat) (opcode : Opcode) (layout : Layout) :
    (readOperand offset opcode layout).Consumes := by
  cases layout with
  | bare => exact Consumes.pure _
  | byte => exact Consumes.int8.bind fun _ => Consumes.pure _
  | short => exact Consumes.int16.bind fun _ => Consumes.pure _
  | shortConstant => exact Consumes.uint8.bind fun _ => Consumes.pure _
  | constant => exact Consumes.uint16.bind fun _ => Consumes.pure _
  | slot => exact Consumes.uint8.bind fun _ => Consumes.pure _
  | increment =>
    exact Consumes.uint8.bind fun _ => Consumes.int8.bind fun _ => Consumes.pure _
  | branch => exact Consumes.int16.bind fun _ => Consumes.pure _
  | wideBranch => exact Consumes.int32.bind fun _ => Consumes.pure _
  | table => exact (consumes_readTable offset).bind fun _ => Consumes.pure _
  | lookup => exact (consumes_readLookup offset).bind fun _ => Consumes.pure _
  | interfaceCall =>
    exact Consumes.uint16.bind fun _ => Consumes.uint8.bind fun _ =>
      Consumes.uint8.bind fun _ => Consumes.pure _
  | dynamicCall =>
    exact Consumes.uint16.bind fun _ => Consumes.uint16.bind fun _ => Consumes.pure _
  | arrayType => exact Consumes.uint8.bind fun _ => Consumes.pure _
  | multiArray => exact Consumes.uint16.bind fun _ => Consumes.uint8.bind fun _ => Consumes.pure _
  | wide => exact consumes_readWide offset

/-- An instruction takes its first byte and some more, and the bytes behind it are left. -/
theorem exists_taken_of_decode {offset : Nat} {cursor cursor' : Cursor} {instruction : Instruction}
    (h : decode offset cursor = .ok (instruction, cursor')) :
    ∃ first taken, cursor'.position = cursor.position + (first :: taken).length ∧
      cursor.rest = first :: taken ++ cursor'.rest := by
  obtain ⟨position, rest⟩ := cursor
  obtain ⟨opcode, middle, hu, h⟩ := Read.bind_eq_ok h
  cases rest with
  | nil => cases hu
  | cons _ rest =>
    cases hu
    cases hl : Opcode.layout? opcode with
    | none =>
      simp only [hl] at h
      cases h
    | some layout =>
      simp only [hl] at h
      obtain ⟨taken, hp, hc⟩ := consumes_readOperand offset opcode layout _ _ _ h
      refine ⟨opcode, taken, ?_, congrArg (opcode :: ·) hc⟩
      rw [hp, List.length_cons, Nat.add_assoc, Nat.add_comm 1]

/-- **An instruction takes at least one byte**, and the bytes behind it are left. -/
theorem lt_of_decode {offset : Nat} {cursor cursor' : Cursor} {instruction : Instruction}
    (h : decode offset cursor = .ok (instruction, cursor')) :
    cursor.position < cursor'.position ∧
      cursor.position + cursor.rest.length = cursor'.position + cursor'.rest.length := by
  obtain ⟨first, taken, hp, hc⟩ := exists_taken_of_decode h
  have hlength := congrArg List.length hc
  simp only [List.length_append, List.length_cons] at hp hlength
  omega

theorem position_readTable {offset : Nat} {cursor cursor' : Cursor} {operand : Operand}
    (h : readTable offset cursor = .ok (operand, cursor')) :
    ∃ default low high displacements, operand = .table default low high displacements ∧
      cursor'.position = cursor.position + (4 - cursor.position % 4) % 4 + 12 +
        4 * displacements.length := by
  obtain ⟨default, low, high, displacements, _, _, _, _, rfl, -, h₁, h₂, h₃, h₄, hd⟩ :=
    readTable_eq_ok h
  refine ⟨default, low, high, displacements, rfl, ?_⟩
  rw [position_repeated (fun _ _ _ => position_int32) hd, length_repeated hd, position_int32 h₄,
    position_int32 h₃, position_int32 h₂, position_align_four h₁]
  simp only [List.length_nil]
  omega

theorem position_readCase {cursor cursor' : Cursor} {entry : Int32 × Int32}
    (h : readCase cursor = .ok (entry, cursor')) : cursor'.position = cursor.position + 8 := by
  obtain ⟨middle, hk, hd⟩ := readCase_eq_ok h
  rw [position_int32 hd, position_int32 hk]

theorem position_readLookup {offset : Nat} {cursor cursor' : Cursor} {operand : Operand}
    (h : readLookup offset cursor = .ok (operand, cursor')) :
    ∃ default cases, operand = .lookup default cases ∧
      cursor'.position = cursor.position + (4 - cursor.position % 4) % 4 + 8 +
        8 * cases.length := by
  obtain ⟨default, count, cases, _, _, _, rfl, -, h₁, h₂, h₃, hc⟩ := readLookup_eq_ok h
  refine ⟨default, cases, rfl, ?_⟩
  rw [position_repeated (fun _ _ _ => position_readCase) hc, length_repeated hc,
    position_int32 h₃, position_int32 h₂, position_align_four h₁]
  simp only [List.length_nil]
  omega

/-- What is read behind any opcode but the `wide` marker makes up the length of the instruction. -/
theorem position_readOperand {offset : Nat} {opcode : Opcode} {layout : Layout}
    {cursor cursor' : Cursor} {instruction : Instruction} (hl : opcode.layout? = some layout)
    (hne : layout ≠ .wide) (hfirst : cursor.position = offset + 1)
    (h : readOperand offset opcode layout cursor = .ok (instruction, cursor')) :
    cursor'.position = offset + instruction.length offset := by
  cases layout with
  | bare =>
    cases h
    simp [length, hfirst]
  | byte =>
    obtain ⟨value, c₁, h₁, h⟩ := Read.bind_eq_ok h
    cases h
    simp [length, position_int8 h₁, hfirst]
  | short =>
    obtain ⟨value, c₁, h₁, h⟩ := Read.bind_eq_ok h
    cases h
    simp [length, position_int16 h₁, hfirst]
  | shortConstant =>
    obtain ⟨index, c₁, h₁, h⟩ := Read.bind_eq_ok h
    cases h
    simp [length, Opcode.eq_ldc_of_layout hl, toUInt16_le, position_uint8 h₁, hfirst]
  | constant =>
    obtain ⟨index, c₁, h₁, h⟩ := Read.bind_eq_ok h
    cases h
    obtain ⟨hldc, hdynamic⟩ := Opcode.ne_of_layout_constant hl
    simp [length, hldc, hdynamic, position_uint16 h₁, hfirst]
  | slot =>
    obtain ⟨index, c₁, h₁, h⟩ := Read.bind_eq_ok h
    cases h
    simp [length, needsWide_toUInt16, position_uint8 h₁, hfirst]
  | branch =>
    obtain ⟨value, c₁, h₁, h⟩ := Read.bind_eq_ok h
    cases h
    simp [length, Opcode.not_isWideBranch_of_layout hl, position_int16 h₁, hfirst]
  | wideBranch =>
    obtain ⟨value, c₁, h₁, h⟩ := Read.bind_eq_ok h
    cases h
    simp [length, Opcode.isWideBranch_of_layout hl, position_int32 h₁, hfirst]
  | arrayType =>
    obtain ⟨code, c₁, h₁, h⟩ := Read.bind_eq_ok h
    cases h
    simp [length, position_uint8 h₁, hfirst]
  | table =>
    obtain ⟨operand, c₁, h₁, h⟩ := Read.bind_eq_ok h
    obtain ⟨default, low, high, displacements, rfl, hp⟩ := position_readTable h₁
    cases h
    simp only [length, switchPadding]
    omega
  | lookup =>
    obtain ⟨operand, c₁, h₁, h⟩ := Read.bind_eq_ok h
    obtain ⟨default, cases, rfl, hp⟩ := position_readLookup h₁
    cases h
    simp only [length, switchPadding]
    omega
  | increment =>
    obtain ⟨index, c₁, h₁, h⟩ := Read.bind_eq_ok h
    obtain ⟨delta, c₂, h₂, h⟩ := Read.bind_eq_ok h
    cases h
    simp [length, needsWide_toInt16, position_uint8 h₁, position_int8 h₂, hfirst]
  | interfaceCall =>
    obtain ⟨index, c₁, h₁, h⟩ := Read.bind_eq_ok h
    obtain ⟨count, c₂, h₂, h⟩ := Read.bind_eq_ok h
    obtain ⟨zero, c₃, h₃, h⟩ := Read.bind_eq_ok h
    cases h
    simp [length, position_uint16 h₁, position_uint8 h₂, position_uint8 h₃, hfirst]
  | dynamicCall =>
    obtain ⟨index, c₁, h₁, h⟩ := Read.bind_eq_ok h
    obtain ⟨zero, c₂, h₂, h⟩ := Read.bind_eq_ok h
    cases h
    have hop := Opcode.eq_invokedynamic_of_layout hl
    simp [length, hop, show Opcode.invokedynamic ≠ Opcode.ldc by decide, position_uint16 h₁,
      position_uint16 h₂, hfirst]
  | multiArray =>
    obtain ⟨index, c₁, h₁, h⟩ := Read.bind_eq_ok h
    obtain ⟨dimensions, c₂, h₂, h⟩ := Read.bind_eq_ok h
    cases h
    simp [length, position_uint16 h₁, position_uint8 h₂, hfirst]
  | wide => exact absurd rfl hne

/-- Whether an instruction that was read from a byte on has a `wide` marker that its operand does not
need. -/
def isOverwide (instruction : Instruction) (first : UInt8) : Bool :=
  first == Opcode.wide && !instruction.needsWide

/-- How many bytes an instruction that was read from a byte on took beyond its own length: a needless
`wide` marker, and the upper halves of the words behind it. -/
def surplus (instruction : Instruction) (first : UInt8) : Nat :=
  if instruction.isOverwide first then
    match instruction.operand with
    | .increment _ _ => 3
    | _ => 2
  else 0

theorem surplus_eq_zero_iff {instruction : Instruction} {first : UInt8} :
    instruction.surplus first = 0 ↔ instruction.isOverwide first = false := by
  unfold surplus
  split
  · rename_i h
    rw [h]
    split <;> decide
  · rename_i h
    simp [h]

/-- Behind the `wide` marker, every word takes two bytes, needed or not. -/
theorem position_readWide {offset : Nat} {cursor cursor' : Cursor} {instruction : Instruction}
    (hfirst : cursor.position = offset + 1)
    (h : readWide offset cursor = .ok (instruction, cursor')) :
    cursor'.position = offset + instruction.length offset + instruction.surplus Opcode.wide := by
  obtain ⟨marked, middle, hm, ⟨-, index, hi, rfl⟩ | ⟨-, index, after, delta, hi, hd, rfl⟩⟩ :=
    readWide_eq_ok h
  all_goals
    have hpm := position_uint8 hm
    have hpi := position_uint16 hi
  · simp only [length, surplus, isOverwide]
    split <;> simp_all
  · have hpd := position_int16 hd
    simp only [length, surplus, isOverwide]
    split <;> simp_all

/-- **An instruction takes its own length**, and more only for a needless `wide` marker. -/
theorem position_of_decode {offset : Nat} {first : UInt8} {rest : List UInt8} {cursor' : Cursor}
    {instruction : Instruction}
    (h : decode offset ⟨offset, first :: rest⟩ = .ok (instruction, cursor')) :
    cursor'.position = offset + instruction.length offset + instruction.surplus first := by
  cases hl : Opcode.layout? first with
  | none =>
    obtain ⟨_, _, hu, h⟩ := Read.bind_eq_ok h
    cases hu
    simp only [hl] at h
    cases h
  | some layout =>
    rw [decode_cons hl] at h
    by_cases hwide : layout = .wide
    · subst hwide
      obtain rfl := Opcode.eq_wide_of_layout hl
      exact position_readWide rfl h
    · have hfirst : first ≠ Opcode.wide := by
        rintro rfl
        rw [layout?_wide] at hl
        cases hl
        exact hwide rfl
      rw [position_readOperand hl hwide rfl h, surplus_eq_zero_iff.mpr (by simp [isOverwide, hfirst]),
        Nat.add_zero]

/-- **No instruction is longer than what it was read from**: only the `wide` marker of a small
operand gets lost. -/
theorem length_le_of_decode {cursor cursor' : Cursor} {instruction : Instruction}
    (h : decode cursor.position cursor = .ok (instruction, cursor')) :
    cursor.position + instruction.length cursor.position ≤ cursor'.position := by
  obtain ⟨position, rest⟩ := cursor
  cases rest with
  | nil => cases h
  | cons first rest =>
    rw [position_of_decode h]
    exact Nat.le_add_right _ _

end Instruction

/-! ## The offsets of a decoded body -/

theorem offsets_of_decodeLoop {bound : Nat} {cursor : Cursor}
    {decoded instructions : List (Nat × Instruction)}
    (h : decodeLoop bound cursor decoded = .ok instructions) :
    ∃ others, instructions = decoded.reverse ++ others ∧
      others.Pairwise (fun a b => a.1 + a.2.length a.1 ≤ b.1) ∧
      ∀ entry ∈ others, cursor.position ≤ entry.1 ∧
        entry.1 < cursor.position + cursor.rest.length := by
  induction bound generalizing cursor decoded with
  | zero =>
    obtain ⟨position, rest⟩ := cursor
    cases rest with
    | nil =>
      cases h
      exact ⟨[], by simp, .nil, by simp⟩
    | cons byte rest => cases h
  | succ bound ih =>
    obtain ⟨position, rest⟩ := cursor
    cases rest with
    | nil =>
      cases h
      exact ⟨[], by simp, .nil, by simp⟩
    | cons byte rest =>
      obtain ⟨⟨instruction, next⟩, hd, h⟩ := Except.bind_eq_ok.mp h
      obtain ⟨hlt, hsum⟩ := Instruction.lt_of_decode hd
      have hle := Instruction.length_le_of_decode hd
      obtain ⟨others, rfl, hpair, hmem⟩ := ih h
      simp only at hlt hle hsum hmem
      refine ⟨(position, instruction) :: others, by simp, ?_, ?_⟩
      · refine List.pairwise_cons.mpr ⟨fun entry he => ?_, hpair⟩
        have := hmem entry he
        simp only
        omega
      · intro entry he
        simp only [List.length_cons] at hsum ⊢
        rcases List.mem_cons.mp he with rfl | he
        · simp only
          omega
        · have := hmem entry he
          omega

variable {code : List UInt8} {instructions : List (Nat × Instruction)}

/-- The instructions of a decoded body do not overlap. -/
theorem disjoint_of_decodeAll (h : decodeAll code = .ok instructions) :
    instructions.Pairwise (fun a b => a.1 + a.2.length a.1 ≤ b.1) := by
  obtain ⟨others, rfl, hpair, -⟩ := offsets_of_decodeLoop h
  simpa using hpair

/-- **The offsets of a decoded body ascend.** -/
theorem ascending_of_decodeAll (h : decodeAll code = .ok instructions) :
    instructions.Pairwise (fun a b => a.1 < b.1) := by
  refine (disjoint_of_decodeAll h).imp fun {a b} hab => ?_
  have hpos := a.2.length_pos a.1
  omega

/-- The offsets of a decoded body lie inside it. -/
theorem lt_of_decodeAll (h : decodeAll code = .ok instructions) :
    ∀ entry ∈ instructions, entry.1 < code.length := by
  obtain ⟨others, rfl, -, hmem⟩ := offsets_of_decodeLoop h
  intro entry he
  have := (hmem entry (by simpa using he)).2
  simpa [Cursor.start] using this

theorem next_of_decodeLoop {bound : Nat} {front rest : List UInt8}
    {decoded instructions : List (Nat × Instruction)}
    (h : decodeLoop bound ⟨front.length, rest⟩ decoded = .ok instructions) :
    ∃ others, instructions = decoded.reverse ++ others ∧
      (∀ entry ∈ others.head?, entry.1 = front.length) ∧
      others.IsChain fun a b => ∃ first, (front ++ rest)[a.1]? = some first ∧
        b.1 = a.1 + a.2.length a.1 + a.2.surplus first := by
  induction bound generalizing front rest decoded with
  | zero =>
    cases rest with
    | nil =>
      cases h
      exact ⟨[], by simp, by simp, .nil⟩
    | cons first rest => cases h
  | succ bound ih =>
    cases rest with
    | nil =>
      cases h
      exact ⟨[], by simp, by simp, .nil⟩
    | cons first rest =>
      obtain ⟨⟨instruction, ⟨position, rest'⟩⟩, hd, h⟩ := Except.bind_eq_ok.mp h
      have hposition := Instruction.position_of_decode hd
      obtain ⟨_, taken, hp, hc⟩ := Instruction.exists_taken_of_decode hd
      simp only [List.cons_append, List.cons.injEq] at hposition hp hc
      obtain ⟨rfl, rfl⟩ := hc
      have hfront : position = (front ++ first :: taken).length := by
        rw [hp, List.length_append]
      subst hfront
      obtain ⟨others, rfl, hhead, hchain⟩ := ih h
      refine ⟨(front.length, instruction) :: others, by simp, by simp, ?_⟩
      rw [List.append_assoc, List.cons_append] at hchain
      refine List.isChain_cons.mpr ⟨fun entry he => ⟨first, by simp, ?_⟩, hchain⟩
      rw [hhead entry he, hposition]

/-- **The next instruction of a decoded body** starts behind the bytes of the one before, which are as
many as its length says, and more only for a needless `wide` marker. -/
theorem next_of_decodeAll (h : decodeAll code = .ok instructions) {entry next : Nat × Instruction}
    (hpair : [entry, next] <:+: instructions) :
    ∃ first, code[entry.1]? = some first ∧
      next.1 = entry.1 + entry.2.length entry.1 + entry.2.surplus first := by
  have hloop : decodeLoop code.length ⟨([] : List UInt8).length, code⟩ [] = .ok instructions := h
  obtain ⟨others, rfl, -, hchain⟩ := next_of_decodeLoop hloop
  have hlocal := List.IsChain.infix hchain hpair
  exact List.isChain_pair.mp hlocal

theorem wellFormed_of_decodeLoop {bound : Nat} {cursor : Cursor}
    {decoded instructions : List (Nat × Instruction)}
    (h : decodeLoop bound cursor decoded = .ok instructions)
    (hd : ∀ entry ∈ decoded, entry.2.WellFormed) : ∀ entry ∈ instructions, entry.2.WellFormed := by
  induction bound generalizing cursor decoded with
  | zero =>
    obtain ⟨position, rest⟩ := cursor
    cases rest with
    | nil =>
      cases h
      simpa using hd
    | cons byte rest => cases h
  | succ bound ih =>
    obtain ⟨position, rest⟩ := cursor
    cases rest with
    | nil =>
      cases h
      simpa using hd
    | cons byte rest =>
      obtain ⟨⟨instruction, next⟩, hi, h⟩ := Except.bind_eq_ok.mp h
      refine ih h fun entry he => ?_
      rcases List.mem_cons.mp he with rfl | he
      · exact Instruction.wellFormed_of_decode hi
      · exact hd entry he

/-- The instructions of a decoded body are well formed. -/
theorem wellFormed_of_decodeAll (h : decodeAll code = .ok instructions) :
    ∀ entry ∈ instructions, entry.2.WellFormed :=
  wellFormed_of_decodeLoop h (by simp)

/-! ## Looking up offsets -/

namespace Listing

/-- Recording instructions in a table leaves the other offsets alone. -/
theorem getElem?_record_of_notMem {instructions : List (Nat × Instruction)} {offset : Nat}
    (h : ∀ entry ∈ instructions, entry.1 ≠ offset) (table : Array (Option Instruction)) :
    (instructions.foldl (fun table entry => table.setIfInBounds entry.1 (some entry.2))
      table)[offset]? = table[offset]? := by
  induction instructions generalizing table with
  | nil => rfl
  | cons head tail ih =>
    rw [List.foldl_cons, ih fun entry he => h entry (List.mem_cons_of_mem _ he)]
    exact Array.getElem?_setIfInBounds_ne (h head List.mem_cons_self)

theorem getElem?_record_of_mem {instructions : List (Nat × Instruction)} {offset : Nat}
    {instruction : Instruction} (hpair : instructions.Pairwise (fun a b => a.1 < b.1))
    (h : (offset, instruction) ∈ instructions) {table : Array (Option Instruction)}
    (hlt : offset < table.size) :
    (instructions.foldl (fun table entry => table.setIfInBounds entry.1 (some entry.2))
      table)[offset]? = some (some instruction) := by
  induction instructions generalizing table with
  | nil => cases h
  | cons head tail ih =>
    rw [List.pairwise_cons] at hpair
    rw [List.foldl_cons]
    rcases List.mem_cons.mp h with rfl | h
    · rw [getElem?_record_of_notMem fun entry he => Nat.ne_of_gt (hpair.1 entry he)]
      exact Array.getElem?_setIfInBounds_self_of_lt hlt
    · exact ih hpair.2 h (by simpa using hlt)

variable {code : List UInt8} {listing : Listing}

/-- A listing of some code holds its decoded instructions. -/
theorem ofCode_eq_ok (h : ofCode code = .ok listing) :
    decodeAll code = .ok listing.instructions ∧
      listing = ofInstructions code.length listing.instructions := by
  obtain ⟨instructions, hd, rfl⟩ := Except.map_eq_ok.mp h
  exact ⟨hd, rfl⟩

theorem size_of_ofCode (h : ofCode code = .ok listing) : listing.size = code.length := by
  rw [(ofCode_eq_ok h).2]
  rfl

/-- **Looking up an offset** finds the instruction that was decoded there. -/
theorem get?_eq_some_iff (h : ofCode code = .ok listing) {offset : Nat}
    {instruction : Instruction} :
    listing.get? offset = some instruction ↔ (offset, instruction) ∈ listing.instructions := by
  obtain ⟨hd, hl⟩ := ofCode_eq_ok h
  have hpair := ascending_of_decodeAll hd
  constructor
  · intro hget
    by_cases hmem : ∃ entry ∈ listing.instructions, entry.1 = offset
    · obtain ⟨⟨_, found⟩, he, rfl⟩ := hmem
      have hlt := lt_of_decodeAll hd _ he
      rw [hl, get?, ofInstructions, getElem?_record_of_mem hpair he (by simpa using hlt)] at hget
      cases hget
      exact he
    · have hnot : ∀ entry ∈ listing.instructions, entry.1 ≠ offset := by
        intro entry he heq
        exact hmem ⟨entry, he, heq⟩
      rw [hl, get?, ofInstructions, getElem?_record_of_notMem hnot] at hget
      simp only [Array.getElem?_replicate] at hget
      split at hget <;> cases hget
  · intro he
    have hlt := lt_of_decodeAll hd _ he
    rw [hl, get?, ofInstructions, getElem?_record_of_mem hpair he (by simpa using hlt)]
    rfl

theorem isBoundary_iff (h : ofCode code = .ok listing) {offset : Nat} :
    listing.isBoundary offset = true ↔ ∃ instruction, (offset, instruction) ∈
      listing.instructions := by
  rw [isBoundary, Option.isSome_iff_exists]
  exact exists_congr fun _ => get?_eq_some_iff h

theorem nextOffset_of_get? {offset : Nat} {instruction : Instruction}
    (h : listing.get? offset = some instruction) :
    listing.nextOffset offset = offset + instruction.length offset := by
  unfold get? at h
  unfold nextOffset
  cases ht : listing.table[offset]? with
  | none =>
    rw [ht] at h
    cases h
  | some entry =>
    rw [ht] at h
    cases h
    rfl

/-- The next offset lies behind an instruction, but not behind the next one. -/
theorem lt_nextOffset {offset : Nat} {instruction : Instruction}
    (h : listing.get? offset = some instruction) : offset < listing.nextOffset offset := by
  rw [nextOffset_of_get? h]
  have hpos := instruction.length_pos offset
  omega

theorem nextOffset_le (h : ofCode code = .ok listing) {a b : Nat}
    (ha : (listing.get? a).isSome = true) (hb : (listing.get? b).isSome = true) (hlt : a < b) :
    listing.nextOffset a ≤ b := by
  obtain ⟨first, ha⟩ := Option.isSome_iff_exists.mp ha
  obtain ⟨second, hb⟩ := Option.isSome_iff_exists.mp hb
  rw [nextOffset_of_get? ha]
  have hpair := disjoint_of_decodeAll (ofCode_eq_ok h).1
  rw [get?_eq_some_iff h] at ha hb
  by_contra hgt
  rcases List.Pairwise.forall_of_forall_of_flip (l := listing.instructions)
    (R := fun a b => a.1 = b.1 ∨ a.1 + a.2.length a.1 ≤ b.1 ∨ b.1 + b.2.length b.1 ≤ a.1)
    (fun x _ => .inl rfl) (hpair.imp fun hab => .inr (.inl hab))
    (hpair.imp fun hab => .inr (.inr hab)) ha hb with hsame | hle | hle
  · exact absurd hsame (Nat.ne_of_lt hlt)
  · exact hgt hle
  · have hpos := second.length_pos b
    simp only at hle
    omega

end Listing

end JvmTrim
