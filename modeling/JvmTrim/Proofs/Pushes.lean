import JvmTrim.Proofs.Codec
import JvmTrim.Proofs.Emission
import JvmTrim.Proofs.StackShape
import Mathlib.Tactic.IntervalCases

/-!
# Instructions that are emitted

The repairs choose opcodes by arithmetic on numbers. Here it is said once what these opcodes do: a
push of a constant gives that constant, a load accesses the variable that was asked for, and a
planned stack manipulation is that manipulation.

## Main definitions

* `Instruction.Gives`: an instruction that pushes a constant

## Main results

* `gives_of_constantPush`, `gives_of_placeholderPush`: the pushes that repairs emit
* `Instruction.localAccess?_load`: the loads that repairs emit
* `Instruction.wellFormed_of_constantPush` and others: their operands fit their opcodes
-/

-- The table of opcodes is a list of some two hundred rows, and reading a row walks along it.
set_option maxRecDepth 4000

namespace JvmTrim

/-- Whether an instruction pushes a constant. An entry of the constant pool is only known if indices
do not exceed the pool. -/
inductive Instruction.Gives (pool : ConstantPool) (instruction : Instruction) : Value → Prop where
  | null (hop : instruction.operation = .pushNull) : Gives pool instruction .null
  | int {value : Int32} (hop : instruction.operation = .pushInt value) :
      Gives pool instruction (.ofInt value)
  | long {value : Int64} (hop : instruction.operation = .pushLong value) :
      Gives pool instruction (.ofLong value)
  | float {bits : UInt32} (hop : instruction.operation = .pushFloat bits) :
      Gives pool instruction (.ofFloat bits)
  | double {bits : UInt64} (hop : instruction.operation = .pushDouble bits) :
      Gives pool instruction (.ofDouble bits)
  | byte {value : Int8} (hop : instruction.operation = .pushImmediate)
      (ho : instruction.operand = .byte value) : Gives pool instruction (.ofInt value.toInt32)
  | short {value : Int16} (hop : instruction.operation = .pushImmediate)
      (ho : instruction.operand = .short value) : Gives pool instruction (.ofInt value.toInt32)
  | entry {value : Value} {constant : Constant} {index : UInt16}
      (hentry : value.entry? = some constant)
      (hop : instruction.operation = .loadConstant constant.isWide)
      (ho : instruction.operand = .constant index)
      (hget : pool.length ≤ 65536 → pool.get index = .ok constant) : Gives pool instruction value

theorem Value.size_of_entry? {value : Value} {constant : Constant}
    (h : value.entry? = some constant) : value.size = if constant.isWide then 2 else 1 := by
  unfold entry? at h
  split at h <;> cases h <;> rfl

/-- A push of a constant takes nothing. -/
theorem Instruction.Gives.stackEffect {pool : ConstantPool} {instruction : Instruction}
    {value : Value} (h : instruction.Gives pool value) (pool' : ConstantPool) :
    instruction.stackEffect pool' = .ok ⟨0, value.size⟩ := by
  unfold Instruction.stackEffect
  cases h with
  | entry hentry hop =>
    rw [hop, Value.size_of_entry? hentry]
    cases Constant.isWide _ <;> rfl
  | null hop | int hop | long hop | float hop | double hop | byte hop | short hop =>
    rw [hop]
    rfl

/-- A push of a constant continues with the next instruction. -/
theorem Instruction.Gives.flow_eq {pool : ConstantPool} {instruction : Instruction} {value : Value}
    (h : instruction.Gives pool value) : instruction.flow = .sequential := by
  cases h with
  | null hop | int hop | long hop | float hop | double hop | byte hop | short hop
  | entry _ hop => exact congrArg Operation.flow hop

/-! ## Short pushes -/

/-- The opcodes of small ints are in the order of the ints. -/
theorem operation_iconst {value : Int32} (hge : -1 ≤ value) (hle : value ≤ 5) :
    (Opcode.iconst0 + value.toInt8.toUInt8).operation = .pushInt value := by
  have hvalue : value = Int32.ofInt value.toInt := (Int32.ofInt_toInt value).symm
  rw [Int32.le_iff_toInt_le] at hge hle
  have hge : -1 ≤ value.toInt := hge
  have hle : value.toInt ≤ 5 := hle
  generalize value.toInt = number at hvalue hge hle
  subst hvalue
  interval_cases number <;> decide

theorem toInt32_toInt8 {value : Int32} (hge : -128 ≤ value) (hle : value ≤ 127) :
    value.toInt8.toInt32 = value := by
  rw [Int32.le_iff_toInt_le] at hge hle
  have hge : -128 ≤ value.toInt := hge
  have hle : value.toInt ≤ 127 := hle
  refine Int32.toInt_inj.mp ?_
  rw [Int8.toInt_toInt32, Int32.toInt_toInt8, Int.bmod_eq_of_le (by omega) (by omega)]

theorem toInt32_toInt16 {value : Int32} (hge : -32768 ≤ value) (hle : value ≤ 32767) :
    value.toInt16.toInt32 = value := by
  rw [Int32.le_iff_toInt_le] at hge hle
  have hge : -32768 ≤ value.toInt := hge
  have hle : value.toInt ≤ 32767 := hle
  refine Int32.toInt_inj.mp ?_
  rw [Int16.toInt_toInt32, Int32.toInt_toInt16, Int.bmod_eq_of_le (by omega) (by omega)]

theorem gives_of_pushInt? {pool : ConstantPool} {value : Int32} {push : Instruction}
    (h : Instruction.pushInt? value = some push) : push.Gives pool (.ofInt value) := by
  have hbyte : Opcode.bipush.operation = .pushImmediate := by decide
  have hshort : Opcode.sipush.operation = .pushImmediate := by decide
  unfold Instruction.pushInt? at h
  split at h
  · rename_i hrange
    cases h
    exact .int (operation_iconst hrange.1 hrange.2)
  · split at h
    · rename_i hrange
      cases h
      rw [show Value.ofInt value = .ofInt value.toInt8.toInt32 by
        rw [toInt32_toInt8 hrange.1 hrange.2]]
      exact .byte hbyte rfl
    · split at h
      · rename_i hrange
        cases h
        rw [show Value.ofInt value = .ofInt value.toInt16.toInt32 by
          rw [toInt32_toInt16 hrange.1 hrange.2]]
        exact .short hshort rfl
      · cases h

theorem gives_of_shortPush? {pool : ConstantPool} {value : Value} {push : Instruction}
    (h : value.shortPush? = some push) : push.Gives pool value := by
  unfold Value.shortPush? at h
  split at h
  · cases h
    exact .null (by decide)
  · exact gives_of_pushInt? h
  · rename_i number
    split at h
    · rename_i hzero
      cases h
      subst hzero
      exact .long (by decide)
    · split at h
      · rename_i hone
        cases h
        subst hone
        exact .long (by decide)
      · cases h
  · rename_i bits
    split at h
    · rename_i hzero
      cases h
      subst hzero
      exact .float (by decide)
    · split at h
      · rename_i hone
        cases h
        subst hone
        exact .float (by decide)
      · split at h
        · rename_i htwo
          cases h
          subst htwo
          exact .float (by decide)
        · cases h
  · rename_i bits
    split at h
    · rename_i hzero
      cases h
      subst hzero
      exact .double (by decide)
    · split at h
      · rename_i hone
        cases h
        subst hone
        exact .double (by decide)
      · cases h
  · cases h

/-! ## Constants from the pool -/

theorem ConstantPool.get_of_getElem? {pool : ConstantPool} {index : Nat} {constant : Constant}
    (h : pool.entries[index]? = some (some constant)) (hlt : index < 65536) :
    pool.get (UInt16.ofNat index) = .ok constant := by
  unfold get
  rw [orFail_eq_ok, Option.join_eq_some_iff, UInt16.toNat_ofNat_of_lt' hlt]
  exact h

/-- The index of an entry that is found. -/
theorem ConstantPool.get_of_find? {pool : ConstantPool} {constant : Constant} {index : UInt16}
    (h : pool.find? constant = some index) (hlength : pool.length ≤ 65536) :
    pool.get index = .ok constant := by
  unfold find? at h
  split at h
  · obtain ⟨place, hplace, rfl⟩ := Option.map_eq_some_iff.mp h
    obtain ⟨hlt, hentry, -⟩ := Array.findIdx?_eq_some_iff_getElem.mp hplace
    refine get_of_getElem? ?_ (Nat.lt_of_lt_of_le hlt hlength)
    rw [Array.getElem?_eq_getElem hlt, beq_iff_eq.mp hentry]
  · cases h

/-- The index of an entry that is found or added. -/
theorem ConstantPool.get_of_findOrAdd {pool pool' : ConstantPool} {constant : Constant}
    {index : UInt16} (h : PoolM.Runs (findOrAdd constant) pool index pool')
    (hlength : pool'.length ≤ 65536) : pool'.get index = .ok constant := by
  rcases Decision.runs_findOrAdd.mp h with ⟨hfind, rfl⟩ | ⟨-, rfl, hroom, rfl⟩
  · exact get_of_find? hfind hlength
  · have hslots : 0 < constant.slots := by
      unfold Constant.slots
      split <;> omega
    refine get_of_getElem? ?_ (by omega)
    unfold append ConstantPool.length
    split
    · rw [Array.getElem?_push, if_neg (by simp), Array.getElem?_push_size]
    · rw [Array.getElem?_push_size]

/-- With room for a constant, it is found or added. -/
theorem ConstantPool.exists_runs_findOrAdd {pool : ConstantPool} (constant : Constant)
    (hroom : pool.length + constant.slots ≤ 65535) :
    ∃ index pool', PoolM.Runs (findOrAdd constant) pool index pool' ∧
      pool'.length ≤ pool.length + constant.slots := by
  cases hfind : pool.find? constant with
  | some index =>
    exact ⟨index, pool, Decision.runs_findOrAdd.mpr (.inl ⟨hfind, rfl⟩), Nat.le_add_right _ _⟩
  | none =>
    exact ⟨_, _, Decision.runs_findOrAdd.mpr (.inr ⟨hfind, rfl, hroom, rfl⟩),
      (Decision.length_append pool constant).le⟩

theorem operation_entryLoad (constant : Constant) (index : UInt16) :
    (Value.entryLoad constant index).operation = .loadConstant constant.isWide ∧
      (Value.entryLoad constant index).operand = .constant index := by
  have hwide : Opcode.ldc2W.operation = .loadConstant true := by decide
  have hshort : Opcode.ldc.operation = .loadConstant false := by decide
  have hlong : Opcode.ldcW.operation = .loadConstant false := by decide
  unfold Value.entryLoad
  split
  · rename_i h
    rw [h]
    exact ⟨hwide, rfl⟩
  · rename_i h
    rw [show constant.isWide = false by simpa using h]
    split
    · exact ⟨hshort, rfl⟩
    · exact ⟨hlong, rfl⟩

/-- **The push of a constant gives that constant.** -/
theorem gives_of_constantPush {pool pool' : ConstantPool} {value : Value} {push : Instruction}
    (h : PoolM.Runs value.constantPush pool push pool') : push.Gives pool' value := by
  rcases Decision.runs_constantPush.mp h with
    ⟨hshort, rfl⟩ | ⟨-, constant, index, hentry, hfind, rfl⟩
  · exact gives_of_shortPush? hshort
  · obtain ⟨hop, ho⟩ := operation_entryLoad constant index
    exact .entry hentry hop ho (ConstantPool.get_of_findOrAdd hfind)

/-- The push of some value gives a value of the same kind. -/
theorem gives_of_placeholderPush (pool : ConstantPool) {value : Value} {offset : Nat}
    {push : Instruction} (h : value.placeholderPush offset = .ok push) :
    ∃ given kind, push.Gives pool given ∧ given.kind? = some kind ∧ value.kind? = some kind := by
  obtain ⟨kind, hkind, hpush⟩ := Except.bind_eq_ok.mp h
  rw [orDefect_eq_ok] at hkind
  cases hpush
  cases kind with
  | int => exact ⟨.ofInt 0, .int, .int (by decide), rfl, hkind⟩
  | long => exact ⟨.ofLong 0, .long, .long (by decide), rfl, hkind⟩
  | float => exact ⟨.ofFloat 0, .float, .float (by decide), rfl, hkind⟩
  | double => exact ⟨.ofDouble 0, .double, .double (by decide), rfl, hkind⟩
  | reference => exact ⟨.null, .reference, .null (by decide), rfl, hkind⟩

/-! ## Loads -/

/-- **A load accesses the variable that was asked for.** -/
theorem Instruction.localAccess?_load (kind : Kind) (index : UInt16) :
    (Instruction.load kind index).localAccess? = some (.load, kind, index) := by
  unfold load slotVariant
  split
  · rename_i hlt
    have hindex : index = UInt16.ofNat index.toNat := (UInt16.ofNat_toNat).symm
    have hlt : index.toNat < 4 := UInt16.lt_iff_toNat_lt.mp hlt
    generalize index.toNat = number at hindex hlt
    subst hindex
    interval_cases number <;> cases kind <;> decide
  · have hop : (Opcode.iload + kind.ordinal).operation = .load kind none := by
      cases kind <;> decide
    unfold localAccess? operation
    dsimp only
    rw [hop]
    rfl

/-! ## Stack manipulations -/

theorem operation_ofShuffle (move : Shuffle) :
    (Instruction.simple (Opcode.ofShuffle move)).operation = .shuffle move := by
  cases move <;> decide

/-- The pop of one or two words, as a stack manipulation. -/
def Shuffle.popOf (words : Nat) : Shuffle := if words = 2 then .pop2 else .pop

theorem popOf_eq (words : Nat) :
    JvmTrim.popOf words = .simple (Opcode.ofShuffle (Shuffle.popOf words)) := by
  unfold JvmTrim.popOf Shuffle.popOf
  split <;> rfl

theorem stackEffect_of_shuffle {instruction : Instruction} {move : Shuffle}
    (h : instruction.operation = .shuffle move) (pool : ConstantPool) :
    instruction.stackEffect pool = .ok ⟨move.pops, move.outputs.length⟩ := by
  unfold Instruction.stackEffect
  rw [h]

theorem stackEffect_popOf {words : Nat} (h : words = 1 ∨ words = 2) (pool : ConstantPool) :
    (JvmTrim.popOf words).stackEffect pool = .ok ⟨words, 0⟩ := by
  rw [popOf_eq, stackEffect_of_shuffle (operation_ofShuffle _)]
  rcases h with rfl | rfl <;> rfl

/-! ## Jumps -/

theorem operation_goto : Opcode.goto.operation = .jump := by decide

theorem operation_gotoW : Opcode.gotoW.operation = .jump := by decide

theorem operation_branch_goto (displacement : Int32) :
    (Instruction.branch Opcode.goto displacement).operation = .jump := by
  unfold Instruction.operation Instruction.branch
  exact operation_goto

theorem stackEffect_of_jump {instruction : Instruction} (h : instruction.operation = .jump)
    (pool : ConstantPool) : instruction.stackEffect pool = .ok ⟨0, 0⟩ := by
  unfold Instruction.stackEffect
  rw [h]

theorem stackEffect_of_load {instruction : Instruction} {kind : Kind} {index : UInt16}
    (h : instruction.localAccess? = some (.load, kind, index)) (pool : ConstantPool) :
    instruction.stackEffect pool = .ok ⟨0, kind.size⟩ := by
  unfold Instruction.localAccess? at h
  unfold Instruction.stackEffect
  split at h
  · rename_i hop
    rw [hop]
    cases h
    rfl
  · cases h
  · cases h

/-! ## The operands of what is emitted -/

namespace Instruction

theorem wellFormed_of_layout {opcode : Opcode} {operand : Operand} (layout : Layout)
    (h : opcode.layout? = some layout) (ha : layout.Admits operand) :
    WellFormed ⟨opcode, operand⟩ :=
  ⟨layout, h, ha⟩

theorem wellFormed_simple {opcode : Opcode} (h : opcode.layout? = some .bare) :
    (simple opcode).WellFormed :=
  wellFormed_of_layout .bare h trivial

theorem wellFormed_ofShuffle (move : Shuffle) : (simple (Opcode.ofShuffle move)).WellFormed :=
  wellFormed_simple (by cases move <;> decide)

theorem wellFormed_popOf (words : Nat) : (popOf words).WellFormed := by
  rw [popOf_eq]
  exact wellFormed_ofShuffle _

theorem wellFormed_slotVariant {base shortBase : Opcode} {kind : Kind}
    (hshort : ∀ number < 4, (shortBase + kind.ordinal * 4 +
      (UInt16.ofNat number).toUInt8).layout? = some .bare)
    (hbase : (base + kind.ordinal).layout? = some .slot) (index : UInt16) :
    (slotVariant base shortBase kind index).WellFormed := by
  unfold slotVariant
  split
  · rename_i hlt
    have hindex : index = UInt16.ofNat index.toNat := (UInt16.ofNat_toNat).symm
    rw [hindex]
    exact wellFormed_simple (hshort _ (UInt16.lt_iff_toNat_lt.mp hlt))
  · exact wellFormed_of_layout .slot hbase trivial

theorem wellFormed_load (kind : Kind) (index : UInt16) : (load kind index).WellFormed :=
  wellFormed_slotVariant (by cases kind <;> decide) (by cases kind <;> decide) index

theorem wellFormed_store (kind : Kind) (index : UInt16) : (store kind index).WellFormed :=
  wellFormed_slotVariant (by cases kind <;> decide) (by cases kind <;> decide) index

theorem wellFormed_of_pushInt? {value : Int32} {push : Instruction}
    (h : pushInt? value = some push) : push.WellFormed := by
  unfold pushInt? at h
  split at h
  · rename_i hrange
    cases h
    have hvalue : value = Int32.ofInt value.toInt := (Int32.ofInt_toInt value).symm
    have hge : -1 ≤ value.toInt := Int32.le_iff_toInt_le.mp hrange.1
    have hle : value.toInt ≤ 5 := Int32.le_iff_toInt_le.mp hrange.2
    generalize value.toInt = number at hvalue hge hle
    subst hvalue
    refine wellFormed_simple ?_
    interval_cases number <;> decide
  · split at h
    · cases h
      exact wellFormed_of_layout .byte (by decide) trivial
    · split at h
      · cases h
        exact wellFormed_of_layout .short (by decide) trivial
      · cases h

theorem wellFormed_of_shortPush? {value : Value} {push : Instruction}
    (h : value.shortPush? = some push) : push.WellFormed := by
  unfold Value.shortPush? at h
  split at h
  case h_2 => exact wellFormed_of_pushInt? h
  all_goals repeat' split at h
  all_goals cases h
  all_goals exact wellFormed_simple (by decide)

theorem wellFormed_entryLoad (constant : Constant) (index : UInt16) :
    (Value.entryLoad constant index).WellFormed := by
  unfold Value.entryLoad
  split
  · exact wellFormed_of_layout .constant (by decide) trivial
  · split
    · exact wellFormed_of_layout .shortConstant (by decide) trivial
    · exact wellFormed_of_layout .constant (by decide) trivial

theorem wellFormed_of_constantPush {pool pool' : ConstantPool} {value : Value} {push : Instruction}
    (h : PoolM.Runs value.constantPush pool push pool') : push.WellFormed := by
  rcases Decision.runs_constantPush.mp h with ⟨hshort, -⟩ | ⟨-, constant, index, -, -, rfl⟩
  · exact wellFormed_of_shortPush? hshort
  · exact wellFormed_entryLoad constant index

theorem wellFormed_of_placeholderPush {value : Value} {offset : Nat} {push : Instruction}
    (h : value.placeholderPush offset = .ok push) : push.WellFormed := by
  obtain ⟨kind, -, hpush⟩ := Except.bind_eq_ok.mp h
  cases hpush
  cases kind <;> exact wellFormed_simple (by decide)

end Instruction

end JvmTrim
