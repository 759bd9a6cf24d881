import JvmTrim.Proofs.Calls
import JvmTrim.Proofs.Pushes
import JvmTrim.Proofs.RoundTrip

/-!
# Assembled bodies

Positions are laid out before any displacement is known: the length of an instruction at an offset
does not depend on its displacements, so every item is measured with displacements of zero. The
padding of a switch depends on where it stands; it is the same for the item and for what it becomes,
as both stand at the same offset. It follows that a displacement computed from the layout leads to
the label in the finished code, whether it points forward, backward or to the end, and that the
tables of a finished body refer to the same layout as its code.

Only three things keep a body from being assembled: a problem noted before, a label that is not
defined, and a two-byte branch over too long a distance.

## Main definitions

* `Item.Forms`: an instruction is of the form that an item asks for
* `Assembly.ReadsAs`: an instruction of the finished code stands for an item
* `Assembly.WrittenAs`: some code is that of a sequence of items
* `Assembly.Means`: what assembling and finishing give, and when assembling fails

## Main results

* `Assembly.means_ofCalls`: assembled bodies mean what their labels say
-/

namespace JvmTrim

/-- A displacement leads where it was measured to. -/
theorem Instruction.target_of_toInt {position target : Nat} {displacement : Int32}
    (h : displacement.toInt = (target : Int) - position) :
    Instruction.target position displacement = .ok target := by
  simp only [Instruction.target, h]
  rw [if_neg (by omega)]
  congr 1
  omega

/-- The last key of a table switch, if counting up to it does not overflow. -/
theorem toInt_tableHigh {low : Int32} {count : Nat} (hpos : 0 < count)
    (h : low.toInt + count < 2 ^ 31) : (tableHigh low count).toInt = low.toInt + count - 1 := by
  have hlow := low.le_toInt
  have hhigh : tableHigh low count = Int32.ofInt (low.toInt + count - 1) := by
    rw [tableHigh, Int32.ofInt_sub, Int32.ofInt_add, Int32.ofInt_toInt]
    rfl
  rw [hhigh]
  apply Int32.toInt_ofInt_of_le <;> omega

/-- Every instruction ends where the next one starts, or at the end. -/
theorem exists_end_of_mem {instructions : List Instruction} {instruction : Instruction}
    (h : instruction ∈ instructions) (start : Nat) :
    ∃ offset, offset + instruction.length offset ∈ offsetsFrom start instructions := by
  induction instructions generalizing start with
  | nil => cases h
  | cons head tail ih =>
    have hfirst : start + head.length start ∈ offsetsFrom (start + head.length start) tail := by
      cases tail <;> exact List.mem_cons_self
    obtain rfl | h := List.mem_cons.1 h
    · exact ⟨start, List.mem_cons_of_mem _ hfirst⟩
    · obtain ⟨offset, hoffset⟩ := ih h (start + head.length start)
      exact ⟨offset, List.mem_cons_of_mem _ hoffset⟩

/-- Instructions of the same lengths are placed at the same offsets. -/
theorem offsetsFrom_congr {first second : List Instruction}
    (h : List.Forall₂ (fun a b : Instruction => ∀ offset, a.length offset = b.length offset)
      first second) (offset : Nat) : offsetsFrom offset first = offsetsFrom offset second := by
  induction h generalizing offset with
  | nil => rfl
  | cons hhead _ ih => rw [offsetsFrom, offsetsFrom, hhead offset, ih]

/-- Only a two-byte branch over too long a distance cannot be written. -/
theorem Instruction.exists_encode_branch_iff {opcode : Opcode} {displacement : Int32}
    {offset : Nat} : (∃ bytes, (Instruction.branch opcode displacement).encode offset = .ok bytes) ↔
      isWideBranch opcode = true ∨ fitsShort displacement.toInt = true := by
  simp only [Instruction.branch, encode]
  by_cases hwide : isWideBranch opcode = true
  · simp [hwide]
  · by_cases hshort : fitsShort displacement.toInt = true <;> simp [hwide, hshort]

theorem Instruction.fits_slotVariant (base shortBase : Opcode) (kind : Kind) (index : UInt16) :
    (slotVariant base shortBase kind index).Fits := by
  unfold slotVariant
  split <;> trivial

theorem layout?_iinc : Opcode.iinc.layout? = some .increment := by decide +kernel

theorem layout?_switch : Opcode.tableswitch.layout? = some .table ∧
    Opcode.lookupswitch.layout? = some .lookup := by
  decide +kernel

/-! ## Items -/

namespace Item

/-- The labels that an item leads to; for a switch the default comes first. -/
def labels : Item → List String
  | plain _ => []
  | branch _ label => [label]
  | table _ labels default => default :: labels
  | lookup cases default => default :: cases.map (·.2)

/-- Whether an item can be read back, wherever its labels stand. -/
def Readable : Item → Prop
  | plain instruction => instruction.WellFormed ∧ instruction.Fits
  | branch opcode _ => opcode.layout? = some .branch ∨ opcode.layout? = some .wideBranch
  | table low labels _ => labels ≠ [] ∧ low.toInt + labels.length < 2 ^ 31
  | lookup cases _ => (cases.map (·.1)).Pairwise (· ≤ ·)

/-- Whether an instruction is of the form that an item asks for: a plain instruction is itself, a
branch has the opcode that was asked for, a table switch has the keys from the lowest on, one for
each label, and a lookup switch has the keys that were given, in order. -/
def Forms (instruction : Instruction) : Item → Prop
  | plain original => instruction = original
  | branch opcode _ => ∃ displacement, instruction = .branch opcode displacement
  | table low labels _ => ∃ default high displacements,
      instruction = ⟨Opcode.tableswitch, .table default low high displacements⟩ ∧
      high.toInt = low.toInt + labels.length - 1
  | lookup cases _ => ∃ default decoded,
      instruction = ⟨Opcode.lookupswitch, .lookup default decoded⟩ ∧
      decoded.map (·.1) = cases.map (·.1) ∧ (cases.map (·.1)).Pairwise (· ≤ ·)

/-- What an item becomes once its labels are resolved. -/
theorem resolved_eq_ok {item : Item} (hitem : item.Readable)
    {resolve : String → Except Failure Int32} {instruction : Instruction}
    (h : item.resolved resolve = .ok instruction) :
    item.Forms instruction ∧ instruction.SameButDisplacements item.placeholder ∧
      (item.labels ≠ [] → List.Forall₂ (fun label displacement => resolve label = .ok displacement)
        item.labels instruction.displacements) := by
  cases item with
  | plain original =>
    cases h
    exact ⟨rfl, rfl, fun hne => absurd rfl hne⟩
  | branch opcode label =>
    obtain ⟨displacement, hd, h⟩ := Except.bind_eq_ok.1 h
    cases h
    exact ⟨⟨displacement, rfl⟩, rfl, fun _ => .cons hd .nil⟩
  | table low labels label =>
    obtain ⟨default, hd, h⟩ := Except.bind_eq_ok.1 h
    obtain ⟨displacements, hds, h⟩ := Except.bind_eq_ok.1 h
    cases h
    have hall := forall₂_of_mapM hds
    have hhigh := toInt_tableHigh (List.length_pos_iff.2 hitem.1) hitem.2
    refine ⟨⟨default, _, displacements, rfl, hhigh⟩, ?_, fun _ => .cons hd hall⟩
    simp only [Instruction.SameButDisplacements, placeholder, Instruction.mapDisplacements,
      List.map_const', List.length_replicate, hall.length_eq]
  | lookup cases label =>
    obtain ⟨default, hd, h⟩ := Except.bind_eq_ok.1 h
    obtain ⟨decoded, hcs, h⟩ := Except.bind_eq_ok.1 h
    cases h
    have hall : List.Forall₂ (fun c c' => c'.1 = c.1 ∧ resolve c.2 = .ok c'.2) cases decoded :=
      (forall₂_of_mapM hcs).imp fun c c' hc => by
        obtain ⟨d, hd, hc⟩ := Except.bind_eq_ok.1 hc
        cases hc
        exact ⟨rfl, hd⟩
    have hkeys : decoded.map (·.1) = cases.map (·.1) := by
      rw [← List.forall₂_eq_eq_eq, List.forall₂_map_left_iff, List.forall₂_map_right_iff]
      exact List.Forall₂.flip (hall.imp fun _ _ hc => hc.1)
    refine ⟨⟨default, decoded, rfl, hkeys, hitem⟩, ?_, fun _ => .cons hd ?_⟩
    · have hzeros := congrArg (List.map fun key => (key, (0 : Int32))) hkeys
      simpa only [Instruction.SameButDisplacements, placeholder, Instruction.mapDisplacements,
        List.map_map, Function.comp_def, Instruction.mk.injEq, Operand.lookup.injEq, true_and]
        using hzeros
    · exact List.forall₂_map_left_iff.2
        (List.forall₂_map_right_iff.2 (hall.imp fun _ _ hc => hc.2))

/-- An item whose labels can be resolved becomes an instruction. -/
theorem exists_resolved {item : Item} {resolve : String → Except Failure Int32}
    (h : ∀ label ∈ item.labels, ∃ displacement, resolve label = .ok displacement) :
    ∃ instruction, item.resolved resolve = .ok instruction := by
  cases item with
  | plain instruction => exact ⟨instruction, rfl⟩
  | branch opcode label =>
    obtain ⟨displacement, hd⟩ := h label List.mem_cons_self
    exact ⟨_, Except.bind_eq_ok.2 ⟨displacement, hd, rfl⟩⟩
  | table low labels label =>
    obtain ⟨default, hd⟩ := h label List.mem_cons_self
    obtain ⟨displacements, hds⟩ := exists_mapM_iff.2 fun other hmem =>
      h other (List.mem_cons_of_mem _ hmem)
    exact ⟨_, Except.bind_eq_ok.2 ⟨default, hd, Except.bind_eq_ok.2 ⟨displacements, hds, rfl⟩⟩⟩
  | lookup cases label =>
    obtain ⟨default, hd⟩ := h label List.mem_cons_self
    have hcases : ∀ c ∈ cases, ∃ c' : Int32 × Int32,
        (do return (c.1, ← resolve c.2) : Except Failure (Int32 × Int32)) = .ok c' := by
      intro c hmem
      obtain ⟨displacement, hd⟩ := h c.2
        (List.mem_cons_of_mem _ (List.mem_map_of_mem hmem))
      exact ⟨(c.1, displacement), by rw [hd]; rfl⟩
    obtain ⟨decoded, hcs⟩ := exists_mapM_iff.2 hcases
    exact ⟨_, Except.bind_eq_ok.2 ⟨default, hd, Except.bind_eq_ok.2 ⟨decoded, hcs, rfl⟩⟩⟩

theorem length_labels_le (item : Item) (offset : Nat) :
    item.labels.length ≤ item.placeholder.length offset := by
  cases item with
  | plain instruction => exact Nat.zero_le _
  | branch opcode label => exact Instruction.length_pos _ offset
  | table low labels default =>
    simp only [Item.labels, placeholder, Instruction.length, List.length_cons, List.length_map]
    omega
  | lookup cases default =>
    simp only [Item.labels, placeholder, Instruction.length, List.length_cons, List.length_map]
    omega

/-- The placeholder of an item is well formed, if its cases can be counted. -/
theorem wellFormed_placeholder {item : Item} (hitem : item.Readable)
    (hcount : item.labels.length < 2 ^ 31) : item.placeholder.WellFormed := by
  cases item with
  | plain instruction => exact hitem.1
  | branch opcode label =>
    obtain h | h := hitem
    · exact ⟨.branch, h, trivial⟩
    · exact ⟨.wideBranch, h, trivial⟩
  | table low labels default =>
    have hpos := List.length_pos_iff.2 hitem.1
    have hhigh := toInt_tableHigh hpos hitem.2
    refine ⟨.table, layout?_switch.1, ?_, ?_⟩
    · rw [Int32.le_iff_toInt_le, hhigh]
      omega
    · rw [List.length_map, hhigh]
      omega
  | lookup cases default =>
    refine ⟨.lookup, layout?_switch.2, ?_⟩
    simp only [Item.labels, List.length_cons, List.length_map] at hcount
    simp only [placeholder, Layout.Admits, List.length_map]
    omega

/-- What is written of an item is read back as it is. -/
theorem Forms.fits {item : Item} {instruction : Instruction} (h : item.Forms instruction)
    (hitem : item.Readable) {offset : Nat} {bytes : List UInt8}
    (he : instruction.encode offset = .ok bytes) : instruction.Fits := by
  cases item with
  | plain original =>
    cases h
    exact hitem.2
  | branch opcode label =>
    obtain ⟨displacement, rfl⟩ := h
    exact Instruction.exists_encode_branch_iff.1 ⟨bytes, he⟩
  | table low labels default =>
    obtain ⟨_, _, _, rfl, -⟩ := h
    trivial
  | lookup cases default =>
    obtain ⟨_, _, rfl, -⟩ := h
    trivial

end Item

namespace Assembly

/-! ## What assembled code stands for -/

/-- Whether an instruction that was read back at `position` stands for an item: it is of the form
that the item asks for, and leads to its labels. -/
structure ReadsAs (assembly : Assembly) (position : Nat) (item : Item)
    (instruction : Instruction) : Prop where
  form : item.Forms instruction
  targets : item.labels ≠ [] → ∃ targets, item.labels.mapM assembly.labelOffset = .ok targets ∧
    instruction.branchTargets position = .ok targets

/-- Whether some code is that of items: it decodes to one instruction for every item, in order, each
where it was laid out and standing for its item. -/
def WrittenAs (assembly : Assembly) (items : List Item) (bytes : List UInt8) : Prop :=
  ∃ instructions, decodeAll bytes = .ok (assembly.positions.toList.zip instructions) ∧
    List.Forall₂ (fun place instruction => assembly.ReadsAs place.2 place.1 instruction)
      (items.zip assembly.positions.toList) instructions ∧
    assembly.positions.toList.getLast? = some bytes.length

/-- Whether an item is a two-byte branch to a label that is too far from `position`. -/
def Overflows (assembly : Assembly) (position : Nat) : Item → Prop
  | .branch opcode label => Instruction.isWideBranch opcode = false ∧
      ∃ target, assembly.labelOffset label = .ok target ∧
        Instruction.fitsShort ((target : Int) - position) = false
  | _ => False

/-- Whether an entry of the exception table protects what a labelled range names. -/
structure Protects (assembly : Assembly) (labelled : LabelledHandler) (handler : Handler) :
    Prop where
  start : assembly.labelOffset labelled.start = .ok handler.start
  stop : assembly.labelOffset labelled.stop = .ok handler.stop
  target : assembly.labelOffset labelled.target = .ok handler.target
  catchType : handler.catchType = labelled.catchType

/-- Whether an entry of the line number table has the number and the position of a line. -/
structure Marks (assembly : Assembly) (marked : Nat × UInt16) (entry : LineEntry) : Prop where
  start : assembly.positions[marked.1]? = some entry.start
  line : entry.line = marked.2

/-- What the parts of a body mean. Assembled code is that of the items. A finished body is that of
the items with the argument counts of interface calls filled in, and its tables refer to the same
layout. Assembling fails if and only if a problem was noted before, a label is not defined, or a
two-byte branch is too long. -/
structure Means (assembly : Assembly) : Prop where
  assembled : ∀ bytes, assembly.assemble = .ok bytes →
    assembly.WrittenAs assembly.items.toList bytes
  finished : ∀ maxLocals pool code, assembly.finish maxLocals pool = .ok code →
    ∃ items, assembly.items.toList.mapM (countArguments pool) = .ok items ∧
      assembly.WrittenAs items code.bytes ∧
      List.Forall₂ assembly.Protects assembly.handlers.toList code.handlers ∧
      List.Forall₂ assembly.Marks assembly.lines.toList code.lines
  fails : (∃ failure, assembly.assemble = .error failure) ↔
    assembly.failure ≠ none ∨
    (∃ item ∈ assembly.items.toList, ∃ label ∈ item.labels,
      assembly.labels.lookup label = none) ∨
    ∃ place ∈ assembly.items.toList.zip assembly.positions.toList,
      assembly.Overflows place.2 place.1

/-- What is taken for granted of the parts: the items can be read back, labels stand in front of
items or at the end, and the layout is shorter than 2 GiB. -/
structure Readable (assembly : Assembly) : Prop where
  items : ∀ item ∈ assembly.items.toList, item.Readable
  labels : ∀ name index, assembly.labels.lookup name = some index → index ≤ assembly.items.size
  positions : ∀ position ∈ assembly.positions.toList, position < 2 ^ 31

/-! ## Labels -/

variable {assembly : Assembly}

theorem toList_positions (assembly : Assembly) : assembly.positions.toList =
    offsetsFrom 0 (assembly.items.toList.map (·.placeholder)) := by
  simp [positions]

theorem length_positions (assembly : Assembly) :
    assembly.positions.toList.length = assembly.items.toList.length + 1 := by
  rw [toList_positions, length_offsetsFrom, List.length_map]

/-- A label that was defined has a position. -/
theorem Readable.exists_labelOffset_iff (h : assembly.Readable) (name : String) :
    (∃ target, assembly.labelOffset name = .ok target) ↔ assembly.labels.lookup name ≠ none := by
  constructor
  · rintro ⟨target, ht⟩ hnone
    obtain ⟨item, hitem, -⟩ := Except.bind_eq_ok.1 ht
    rw [orFail_eq_ok, hnone] at hitem
    cases hitem
  · intro hne
    obtain ⟨item, hitem⟩ := Option.ne_none_iff_exists'.1 hne
    have hlt : item < assembly.positions.size := by
      have hlength := length_positions assembly
      have hle := h.labels name item hitem
      rw [Array.length_toList, Array.length_toList] at hlength
      omega
    refine ⟨assembly.positions[item], Except.bind_eq_ok.2 ⟨item, orFail_eq_ok.2 hitem, ?_⟩⟩
    exact orFail_eq_ok.2 (Array.getElem?_eq_getElem hlt)

theorem mem_positions_of_labelOffset {name : String} {target : Nat}
    (h : assembly.labelOffset name = .ok target) : target ∈ assembly.positions.toList := by
  obtain ⟨item, -, h⟩ := Except.bind_eq_ok.1 h
  rw [orFail_eq_ok] at h
  exact Array.mem_toList_iff.2 (Array.mem_of_getElem? h)

theorem displacement_eq_ok {position : Nat} {name : String} {displacement : Int32} :
    assembly.displacement assembly.positions position name = .ok displacement ↔
      ∃ target, assembly.labelOffset name = .ok target ∧
        displacement = Int32.ofInt ((target : Int) - position) := by
  rw [Assembly.displacement, Except.bind_eq_ok]
  refine exists_congr fun target => and_congr_right fun _ => ?_
  exact ⟨fun h => (Except.ok.inj h).symm, fun h => congrArg Except.ok h.symm⟩

theorem Readable.exists_displacement_iff (h : assembly.Readable) (position : Nat) (name : String) :
    (∃ displacement, assembly.displacement assembly.positions position name = .ok displacement) ↔
      assembly.labels.lookup name ≠ none := by
  rw [← h.exists_labelOffset_iff]
  constructor
  · rintro ⟨displacement, hd⟩
    obtain ⟨target, ht, -⟩ := displacement_eq_ok.1 hd
    exact ⟨target, ht⟩
  · rintro ⟨target, ht⟩
    exact ⟨_, displacement_eq_ok.2 ⟨target, ht, rfl⟩⟩

/-- A displacement is the distance to its label. -/
theorem Readable.toInt_displacement (h : assembly.Readable) {position : Nat} {name : String}
    {displacement : Int32} (hposition : position ∈ assembly.positions.toList)
    (hd : assembly.displacement assembly.positions position name = .ok displacement) :
    ∃ target, assembly.labelOffset name = .ok target ∧
      displacement.toInt = (target : Int) - position := by
  obtain ⟨target, ht, rfl⟩ := displacement_eq_ok.1 hd
  have htarget := h.positions _ (mem_positions_of_labelOffset ht)
  have hlt := h.positions _ hposition
  exact ⟨target, ht, Edit.toInt_ofInt_distance (show 2 ^ 31 - 1 < 2 ^ 31 by decide)
    (Nat.le_sub_one_of_lt htarget) (Nat.le_sub_one_of_lt hlt)⟩

/-- Displacements lead to the labels that they were computed for. -/
theorem Readable.targets (h : assembly.Readable) {position : Nat}
    (hposition : position ∈ assembly.positions.toList) {labels : List String}
    {displacements : List Int32}
    (hall : List.Forall₂ (fun label displacement =>
      assembly.displacement assembly.positions position label = .ok displacement)
      labels displacements) :
    ∃ targets, labels.mapM assembly.labelOffset = .ok targets ∧
      displacements.mapM (Instruction.target position) = .ok targets := by
  induction hall with
  | nil => exact ⟨[], rfl, rfl⟩
  | @cons label displacement _ _ hhead _ ih =>
    obtain ⟨targets, hlabels, htargets⟩ := ih
    obtain ⟨target, ht, hdistance⟩ := h.toInt_displacement hposition hhead
    refine ⟨target :: targets, ?_, ?_⟩
    · rw [List.mapM_cons, ht, hlabels]
      rfl
    · rw [List.mapM_cons, Instruction.target_of_toInt hdistance, htargets]
      rfl

/-! ## One item -/

/-- The instruction of an item at a position. -/
def place (assembly : Assembly) (item : Item) (position : Nat) : Except Failure Instruction :=
  item.resolved (assembly.displacement assembly.positions position)

theorem Readable.readsAs (h : assembly.Readable) {position : Nat} {item : Item}
    {instruction : Instruction} (hposition : position ∈ assembly.positions.toList)
    (hitem : item ∈ assembly.items.toList)
    (hplace : assembly.place item position = .ok instruction) :
    assembly.ReadsAs position item instruction := by
  obtain ⟨hform, -, hlabels⟩ := Item.resolved_eq_ok (h.items item hitem) hplace
  exact ⟨hform, fun hne => h.targets hposition (hlabels hne)⟩

theorem Readable.wellFormed (h : assembly.Readable) {position : Nat} {item : Item}
    {instruction : Instruction} (hitem : item ∈ assembly.items.toList)
    (hplace : assembly.place item position = .ok instruction) : instruction.WellFormed := by
  obtain ⟨-, hsame, -⟩ := Item.resolved_eq_ok (h.items item hitem) hplace
  obtain ⟨offset, hend⟩ := exists_end_of_mem (List.mem_map_of_mem hitem) 0
  rw [← toList_positions] at hend
  have hcount := item.length_labels_le offset
  have hlt := h.positions _ hend
  exact hsame.wellFormed_iff.2 (Item.wellFormed_placeholder (h.items item hitem) (by omega))

/-- The padding of a switch depends on its position only. -/
theorem Readable.length_eq (h : assembly.Readable) {position : Nat} {item : Item}
    {instruction : Instruction} (hitem : item ∈ assembly.items.toList)
    (hplace : assembly.place item position = .ok instruction) :
    instruction.length position = item.placeholder.length position :=
  (Item.resolved_eq_ok (h.items item hitem) hplace).2.1.length_eq position

/-- An item that does not overflow becomes an instruction that fits. -/
theorem Readable.fits (h : assembly.Readable) {position : Nat} {item : Item}
    {instruction : Instruction} (hposition : position ∈ assembly.positions.toList)
    (hitem : item ∈ assembly.items.toList)
    (hplace : assembly.place item position = .ok instruction) :
    instruction.Fits ↔ ¬assembly.Overflows position item := by
  have hreadable := h.items item hitem
  cases item with
  | plain original =>
    cases hplace
    exact ⟨fun _ => id, fun _ => hreadable.2⟩
  | branch opcode label =>
    obtain ⟨displacement, hd, hplace⟩ := Except.bind_eq_ok.1 hplace
    cases hplace
    obtain ⟨target, ht, hdistance⟩ := h.toInt_displacement hposition hd
    have hoverflows : assembly.Overflows position (.branch opcode label) ↔
        Instruction.isWideBranch opcode = false ∧
          Instruction.fitsShort displacement.toInt = false := by
      simp [Overflows, ht, hdistance]
    rw [hoverflows, not_and_or, Bool.not_eq_false, Bool.not_eq_false]
    exact Iff.rfl
  | table low labels default =>
    obtain ⟨⟨_, _, _, rfl, -⟩, -⟩ := Item.resolved_eq_ok hreadable hplace
    exact ⟨fun _ => id, fun _ => trivial⟩
  | lookup cases default =>
    obtain ⟨⟨_, _, rfl, -⟩, -⟩ := Item.resolved_eq_ok hreadable hplace
    exact ⟨fun _ => id, fun _ => trivial⟩

/-- The bytes of an item at a position. -/
def written (assembly : Assembly) (item : Item) (position : Nat) : Except Failure (List UInt8) := do
  (← assembly.place item position).encode position

/-- When an item can be written. -/
theorem Readable.exists_written_iff (h : assembly.Readable) {position : Nat} {item : Item}
    (hposition : position ∈ assembly.positions.toList) (hitem : item ∈ assembly.items.toList) :
    (∃ bytes, assembly.written item position = .ok bytes) ↔
      (∀ label ∈ item.labels, assembly.labels.lookup label ≠ none) ∧
        ¬assembly.Overflows position item := by
  have hreadable := h.items item hitem
  constructor
  · rintro ⟨bytes, hb⟩
    obtain ⟨instruction, hplace, he⟩ := Except.bind_eq_ok.1 hb
    obtain ⟨hform, -, hlabels⟩ := Item.resolved_eq_ok hreadable hplace
    refine ⟨fun label hmem => ?_, (h.fits hposition hitem hplace).1 (hform.fits hreadable he)⟩
    obtain ⟨displacement, -, hd⟩ := exists_mem_of_forall₂ (hlabels (List.ne_nil_of_mem hmem)) hmem
    exact (h.exists_displacement_iff position label).1 ⟨displacement, hd⟩
  · rintro ⟨hdefined, hshort⟩
    obtain ⟨instruction, hplace⟩ := Item.exists_resolved fun label hmem =>
      (h.exists_displacement_iff position label).2 (hdefined label hmem)
    obtain ⟨bytes, he⟩ := Instruction.exists_encode ((h.fits hposition hitem hplace).2 hshort)
      position
    exact ⟨bytes, Except.bind_eq_ok.2 ⟨instruction, hplace, he⟩⟩

/-- What was written is read back as it was. -/
theorem Readable.stored_eq (h : assembly.Readable) {position : Nat} {item : Item}
    {instruction : Instruction} (hitem : item ∈ assembly.items.toList)
    (hplace : assembly.place item position = .ok instruction)
    (hwritten : ∃ bytes, assembly.written item position = .ok bytes) :
    instruction.stored = instruction := by
  obtain ⟨bytes, hb⟩ := hwritten
  obtain ⟨_, hplace', he⟩ := Except.bind_eq_ok.1 hb
  cases hplace.symm.trans hplace'
  obtain ⟨hform, -⟩ := Item.resolved_eq_ok (h.items item hitem) hplace
  exact Instruction.stored_of_fits (hform.fits (h.items item hitem) he)

/-! ## All items -/

theorem assemble_eq_ok {bytes : List UInt8} : assembly.assemble = .ok bytes ↔
    assembly.failure = none ∧
      ∃ parts, ((assembly.items.toList.zip assembly.positions.toList).mapM fun place =>
        assembly.written place.1 place.2) = .ok parts ∧ parts.flatten = bytes := by
  rw [assemble]
  cases assembly.failure with
  | some failure => simp
  | none =>
    simp only [true_and]
    rw [Except.bind_eq_ok]
    exact exists_congr fun parts => and_congr_right fun _ =>
      ⟨Except.ok.inj, congrArg Except.ok⟩

/-- **Assembled code is that of the items.** -/
theorem Readable.writtenAs (h : assembly.Readable) {bytes : List UInt8}
    (ha : assembly.assemble = .ok bytes) : assembly.WrittenAs assembly.items.toList bytes := by
  obtain ⟨-, parts, hparts, rfl⟩ := assemble_eq_ok.1 ha
  have hall := forall₂_of_mapM hparts
  rw [toList_positions] at hall
  obtain ⟨instructions, he, hoffsets, hplaced⟩ := encodeFrom_of_parts
    (fun item hitem _ _ hplace => h.length_eq hitem hplace) hall
  rw [← toList_positions] at hoffsets
  rw [hoffsets] at hplaced
  have hwritten := exists_mapM_iff.1 ⟨parts, hparts⟩
  have hboth := (List.forall₂_and_left _ _).2
    ⟨fun place hmem => And.intro (List.of_mem_zip hmem) (hwritten place hmem), hplaced⟩
  have hreads := hboth.imp fun place instruction hplace =>
    h.readsAs hplace.1.1.2 hplace.1.1.1 hplace.2
  have hwellFormed : ∀ instruction ∈ instructions, instruction.WellFormed :=
    forall_mem_of_forall₂ (hboth.imp fun place instruction hplace =>
      h.wellFormed hplace.1.1.1 hplace.2)
  have hstored : ∀ instruction ∈ instructions, instruction.stored = instruction :=
    forall_mem_of_forall₂ (hboth.imp fun place instruction hplace =>
      h.stored_eq hplace.1.1.1 hplace.2 hplace.1.2)
  have hlast := getElem?_offsetsFrom_length he
  refine ⟨instructions, ?_, hreads, ?_⟩
  · rw [decodeAll_encodeFrom hwellFormed he, hoffsets, List.map_congr_left hstored, List.map_id']
  · rw [← hoffsets, List.getLast?_eq_getElem?, length_offsetsFrom, Nat.add_sub_cancel, hlast,
      Nat.zero_add]

/-- When the items can be assembled. -/
theorem Readable.exists_assembled_iff (h : assembly.Readable) :
    (∃ bytes, assembly.assemble = .ok bytes) ↔ assembly.failure = none ∧
      ∀ place ∈ assembly.items.toList.zip assembly.positions.toList,
        (∀ label ∈ place.1.labels, assembly.labels.lookup label ≠ none) ∧
          ¬assembly.Overflows place.2 place.1 := by
  have hplaces : (∃ parts, ((assembly.items.toList.zip assembly.positions.toList).mapM fun place =>
        assembly.written place.1 place.2) = .ok parts) ↔
      ∀ place ∈ assembly.items.toList.zip assembly.positions.toList,
        (∀ label ∈ place.1.labels, assembly.labels.lookup label ≠ none) ∧
          ¬assembly.Overflows place.2 place.1 := by
    rw [exists_mapM_iff]
    refine forall₂_congr fun place hmem => ?_
    obtain ⟨hitem, hposition⟩ := List.of_mem_zip hmem
    exact h.exists_written_iff hposition hitem
  rw [← hplaces]
  simp only [assemble_eq_ok, exists_and_left, and_congr_right_iff]
  intro _
  constructor
  · rintro ⟨bytes, parts, hparts, -⟩
    exact ⟨parts, hparts⟩
  · rintro ⟨parts, hparts⟩
    exact ⟨_, parts, hparts, rfl⟩

theorem Readable.fails_iff (h : assembly.Readable) :
    (∃ failure, assembly.assemble = .error failure) ↔
      assembly.failure ≠ none ∨
      (∃ item ∈ assembly.items.toList, ∃ label ∈ item.labels,
        assembly.labels.lookup label = none) ∨
      ∃ place ∈ assembly.items.toList.zip assembly.positions.toList,
        assembly.Overflows place.2 place.1 := by
  have hle : assembly.items.toList.length ≤ assembly.positions.toList.length := by
    rw [length_positions]
    exact Nat.le_succ _
  have hlabels : (∃ item ∈ assembly.items.toList, ∃ label ∈ item.labels,
        assembly.labels.lookup label = none) ↔
      ∃ place ∈ assembly.items.toList.zip assembly.positions.toList,
        ∃ label ∈ place.1.labels, assembly.labels.lookup label = none := by
    conv_lhs => rw [← List.map_fst_zip hle]
    simp only [List.mem_map, exists_exists_and_eq_and]
  rw [Except.exists_error_iff, h.exists_assembled_iff, hlabels, not_and_or]
  refine or_congr Iff.rfl ?_
  simp only [not_forall, not_and_or, not_not, ne_eq, exists_prop, and_or_left, exists_or]

/-! ## Finished bodies -/

/-- The parts with other items. -/
def withItems (assembly : Assembly) (items : List Item) : Assembly :=
  { assembly with items := items.toArray }

variable {pool : ConstantPool} {items : List Item}

/-- Only the argument count of an interface call is filled in. -/
theorem countArguments_eq_ok {item counted : Item} (h : countArguments pool item = .ok counted) :
    counted = item ∨ ∃ opcode index count, item = .plain ⟨opcode, .interfaceCall index 0⟩ ∧
      counted = .plain ⟨opcode, .interfaceCall index count⟩ := by
  unfold countArguments at h
  split at h
  · obtain ⟨descriptor, -, h⟩ := Except.bind_eq_ok.1 h
    cases h
    exact .inr ⟨_, _, _, rfl, rfl⟩
  · cases h
    exact .inl rfl

theorem readable_of_countArguments {item counted : Item} (hitem : item.Readable)
    (h : countArguments pool item = .ok counted) : counted.Readable := by
  obtain rfl | ⟨opcode, index, count, rfl, rfl⟩ := countArguments_eq_ok h
  · exact hitem
  · obtain ⟨⟨layout, hlayout, hadmits⟩, -⟩ := hitem
    exact ⟨⟨layout, hlayout, by cases layout <;> exact hadmits⟩, trivial⟩

theorem length_of_countArguments {item counted : Item} (h : countArguments pool item = .ok counted)
    (offset : Nat) : counted.placeholder.length offset = item.placeholder.length offset := by
  obtain rfl | ⟨opcode, index, count, rfl, rfl⟩ := countArguments_eq_ok h
  · rfl
  · rfl

/-- Filling in argument counts moves nothing. -/
theorem positions_withItems (h : assembly.items.toList.mapM (countArguments pool) = .ok items) :
    (assembly.withItems items).positions = assembly.positions := by
  have hlengths : List.Forall₂
      (fun a b : Instruction => ∀ offset, a.length offset = b.length offset)
      (assembly.items.toList.map (·.placeholder)) (items.map (·.placeholder)) := by
    rw [List.forall₂_map_left_iff, List.forall₂_map_right_iff]
    exact (forall₂_of_mapM h).imp fun item counted hcount offset =>
      (length_of_countArguments hcount offset).symm
  rw [positions, positions, offsetsFrom_congr hlengths, withItems]

theorem Readable.withItems (h : assembly.Readable)
    (hcount : assembly.items.toList.mapM (countArguments pool) = .ok items) :
    (assembly.withItems items).Readable where
  items item hmem := by
    have hmem : item ∈ items := by simpa [Assembly.withItems] using hmem
    obtain ⟨original, horiginal, hitem⟩ := (mem_of_mapM hcount).2 item hmem
    exact readable_of_countArguments (h.items original horiginal) hitem
  labels name index hlookup := by
    have hsize := (forall₂_of_mapM hcount).length_eq
    have hle := h.labels name index hlookup
    simp only [Array.length_toList] at hsize
    simpa [Assembly.withItems, ← hsize] using hle
  positions := by
    rw [positions_withItems hcount]
    exact h.positions

/-- The steps of finishing a body. -/
theorem finish_eq_ok {maxLocals : UInt16} {code : Code}
    (h : assembly.finish maxLocals pool = .ok code) :
    ∃ items, assembly.items.toList.mapM (countArguments pool) = .ok items ∧
      (assembly.withItems items).assemble = .ok code.bytes ∧
      List.Forall₂ (assembly.withItems items).Protects assembly.handlers.toList code.handlers ∧
      List.Forall₂ (assembly.withItems items).Marks assembly.lines.toList code.lines := by
  rw [finish, Array.mapM_eq_mapM_toList] at h
  obtain ⟨counted, hcounted, h⟩ := Except.bind_eq_ok.1 h
  obtain ⟨items, hitems, rfl⟩ := Except.map_eq_ok.1 hcounted
  obtain ⟨bytes, hbytes, h⟩ := Except.bind_eq_ok.1 h
  obtain ⟨handlers, hhandlers, h⟩ := Except.bind_eq_ok.1 h
  obtain ⟨lines, hlines, h⟩ := Except.bind_eq_ok.1 h
  obtain ⟨maxStack, -, h⟩ := Except.bind_eq_ok.1 h
  cases h
  refine ⟨items, hitems, hbytes, (forall₂_of_mapM hhandlers).imp fun labelled handler hh => ?_,
    (forall₂_of_mapM hlines).imp fun marked entry he => ?_⟩
  · obtain ⟨start, hstart, hh⟩ := Except.bind_eq_ok.1 hh
    obtain ⟨stop, hstop, hh⟩ := Except.bind_eq_ok.1 hh
    obtain ⟨target, htarget, hh⟩ := Except.bind_eq_ok.1 hh
    cases hh
    exact ⟨hstart, hstop, htarget, rfl⟩
  · obtain ⟨start, hstart, he⟩ := Except.bind_eq_ok.1 he
    cases he
    exact ⟨orFail_eq_ok.1 hstart, rfl⟩

theorem labelOffset_withItems
    (h : (assembly.withItems items).positions = assembly.positions) :
    (assembly.withItems items).labelOffset = assembly.labelOffset := by
  funext name
  rw [labelOffset, h]
  rfl

/-- **A finished body** is that of the items with the argument counts filled in; its tables refer to
the layout of the items as they were. -/
theorem Readable.finished (h : assembly.Readable) {maxLocals : UInt16} {code : Code}
    (hfinish : assembly.finish maxLocals pool = .ok code) :
    ∃ items, assembly.items.toList.mapM (countArguments pool) = .ok items ∧
      assembly.WrittenAs items code.bytes ∧
      List.Forall₂ assembly.Protects assembly.handlers.toList code.handlers ∧
      List.Forall₂ assembly.Marks assembly.lines.toList code.lines := by
  obtain ⟨items, hcount, hassemble, hhandlers, hlines⟩ := finish_eq_ok hfinish
  have hpositions := positions_withItems hcount
  have hlabels := labelOffset_withItems hpositions
  obtain ⟨instructions, hdecode, hreads, hlast⟩ := (h.withItems hcount).writtenAs hassemble
  rw [hpositions] at hdecode hreads hlast
  refine ⟨items, hcount, ⟨instructions, hdecode, hreads.imp fun place instruction hread => ?_,
    hlast⟩, hhandlers.imp fun labelled handler hh => ?_, hlines.imp fun marked entry he => ?_⟩
  · exact ⟨hread.form, hlabels ▸ hread.targets⟩
  · exact ⟨hlabels ▸ hh.start, hlabels ▸ hh.stop, hlabels ▸ hh.target, hh.catchType⟩
  · exact ⟨hpositions ▸ he.start, he.line⟩

theorem Readable.means (h : assembly.Readable) : assembly.Means where
  assembled _ := h.writtenAs
  finished _ _ _ := h.finished
  fails := h.fails_iff

/-! ## Bodies collected by calls -/

/-- Whether the item that a call adds can be read back: a plain instruction is one that reading
gives, a branch to a label has the opcode of a branch, and a table switch has a label and does not
count beyond the last key. The other calls choose their instructions themselves. -/
def Call.Admissible : Call → Prop
  | instruction plain => plain.Decodable
  | simple opcode => (Instruction.simple opcode).Decodable
  | constant opcode index => (constantInstruction opcode index).Decodable
  | branch opcode _ => opcode.layout? = some .branch ∨ opcode.layout? = some .wideBranch
  | table low targets _ => targets ≠ [] ∧ low.toInt + targets.length < 2 ^ 31
  | _ => True

theorem Call.Admissible.readable {call : Call} (h : call.Admissible) {item : Item}
    (hitem : call.item? = some item) : item.Readable := by
  cases call with
  | instruction | simple | constant =>
    cases hitem
    exact ⟨h.wellFormed, h.fits⟩
  | load kind index =>
    cases hitem
    exact ⟨Instruction.wellFormed_load kind index, Instruction.fits_slotVariant _ _ kind index⟩
  | store kind index =>
    cases hitem
    exact ⟨Instruction.wellFormed_store kind index, Instruction.fits_slotVariant _ _ kind index⟩
  | increment index delta =>
    cases hitem
    exact ⟨Instruction.wellFormed_of_layout .increment layout?_iinc trivial, trivial⟩
  | pushInt value =>
    obtain ⟨push, hpush, rfl⟩ := Option.map_eq_some_iff.1 hitem
    exact ⟨Instruction.wellFormed_of_pushInt? hpush, Instruction.fits_of_pushInt? hpush⟩
  | branch | table =>
    cases hitem
    exact h
  | lookup cases default =>
    cases hitem
    refine List.pairwise_map.2 ((List.pairwise_mergeSort ?_ ?_ cases).imp of_decide_eq_true)
    · intro a b c hab hbc
      exact decide_eq_true (Int32.le_trans (of_decide_eq_true hab) (of_decide_eq_true hbc))
    · intro a b
      simpa using Int32.le_total a.1 b.1
  | label | line | protect => cases hitem

/-- **Assembled bodies mean what their labels say.** Let the layout of what some calls collect be
shorter than 2 GiB; its last position is the length of the code. If the body can be assembled, its
code decodes to one instruction for every item, each at its position, with the opcode and the keys
that were asked for, and leading to the positions of its labels. A finished body is the same code
with argument counts filled in, and its tables hold the positions of labels and items. Assembling
fails if and only if a problem was noted, a label that is used is not defined, or a two-byte branch
is too long. -/
theorem means_ofCalls (calls : List Call) (hcalls : ∀ call ∈ calls, call.Admissible)
    (hsize : ∀ position ∈ (ofCalls calls).positions.toList, position < 2 ^ 31) :
    Collects calls (ofCalls calls) ∧ (ofCalls calls).Means := by
  have hcollects := collects_ofCalls calls
  have hreadable : (ofCalls calls).Readable := by
    refine ⟨fun item hmem => ?_, fun name index hlookup => ?_, hsize⟩
    · rw [hcollects.items] at hmem
      obtain ⟨call, hcall, hitem⟩ := List.mem_filterMap.1 hmem
      exact (hcalls call hcall).readable hitem
    · obtain ⟨before, after, rfl, -, hindex⟩ := (hcollects.labels name index).1 hlookup
      rw [hcollects.size_items, ← hindex, itemsOf, itemsOf, List.filterMap_append,
        List.length_append]
      exact Nat.le_add_right _ _
  exact ⟨hcollects, hreadable.means⟩

/-- A table switch that needs padding, with its labels behind it, on a line of its own. -/
def switchCalls : List Call :=
  [.load .int 0, .line 7, .table 0 ["a", "b"] "b", .label "a", .pushInt 1, .simple 0xAC,
    .label "b", .pushInt 2, .simple 0xAC]

/-- The switch starts at offset 1 and takes two bytes of padding. -/
theorem means_ofCalls_switch :
    (Collects switchCalls (ofCalls switchCalls) ∧ (ofCalls switchCalls).Means) ∧
      (ofCalls switchCalls).labelOffset "a" = .ok 24 ∧
      (ofCalls switchCalls).assemble = .ok [0x1A, 0xAA, 0, 0, 0, 0, 0, 25, 0, 0, 0, 0, 0, 0, 0, 1,
        0, 0, 0, 23, 0, 0, 0, 25, 0x04, 0xAC, 0x05, 0xAC] := by
  have hreturn : (Instruction.simple 0xAC).Decodable := ⟨[0xAC], 0, by decide +kernel⟩
  refine ⟨means_ofCalls switchCalls ?_ (by decide +kernel), by decide +kernel, by decide +kernel⟩
  simp only [switchCalls, List.forall_mem_cons, List.not_mem_nil, false_imp_iff, implies_true,
    and_true]
  exact ⟨trivial, trivial, ⟨List.cons_ne_nil _ _, by decide⟩, trivial, trivial, hreturn, trivial,
    trivial, hreturn⟩

end Assembly

end JvmTrim
