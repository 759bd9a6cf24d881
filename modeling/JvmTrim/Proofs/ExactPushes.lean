import JvmTrim.Proofs.Pushes
import JvmTrim.Proofs.Retargeting
import JvmTrim.Proofs.Tiling

/-!
# Constants come back as they were pushed

A constant that replaces a computation has to be the very number that was computed, bit by bit: a zero
keeps its sign and a number that is none keeps its bits. On its way it passes through one of several
short forms or through an entry of the constant pool, whose index decides between two loads, and through
the bytes of the body. Executed on abstract values, what comes out at the end is what went in, whatever
the stack, the pool and the place in the body.

## Main definitions

* `Instruction.PushesExactly`: an instruction pushes a value and does nothing else
* `ExactPush`: a push of a constant, in the body it is written to and with the pool it refers to

## Main results

* `Instruction.Gives.execute_eq`: what a push of a constant does to a frame
* `Instruction.fits_of_constantPush`: no index is too long for the load that was chosen
* `Value.constantPush_exact`: a constant is pushed exactly
-/

namespace JvmTrim

/-- Whether a step goes on with the next instruction, has put a value on top of the stack and has left
everything else as it was. A value of two words lies on an unusable word. -/
structure Step.Pushes (step : Step) (offset next : Nat) (frame : Frame) (value : Value) : Prop where
  exit : step.toExit = ⟨[next], none⟩
  stack : step.frame.stack.view =
    pushedWords value (OriginSet.ofInstruction offset) ++ frame.stack.view
  locals : step.frame.locals = frame.locals

/-- Whether an instruction, executed with all the detail there is, pushes a value on every stack and
does nothing else. -/
def Instruction.PushesExactly (instruction : Instruction) (pool : ConstantPool) (value : Value) :
    Prop :=
  ∀ assumptions offset next frame, ∃ step,
    Context.execute ⟨pool, .precise, assumptions⟩ offset next instruction frame = .ok step ∧
      step.Pushes offset next frame value

/-! ## Executing a push -/

/-- The load of an entry pushes the value that it is the entry of. -/
theorem Context.loadConstant_of_entry? {context : Context} {offset : Nat} {instruction : Instruction}
    {frame : Frame} {value : Value} {constant : Constant} {index : UInt16}
    (hentry : value.entry? = some constant) (hindex : instruction.constantIndex? = some index)
    (hget : context.pool.get index = .ok constant) :
    context.loadConstant offset instruction frame = context.pushConstant offset value frame := by
  refine StateT.bind_eq_ok.mpr ⟨index, frame, StateT.liftM_eq_ok.mpr ⟨?_, rfl⟩, ?_⟩
  · rw [hindex, orDefect_eq_ok]
  · refine StateT.bind_eq_ok.mpr ⟨constant, frame, StateT.liftM_eq_ok.mpr ⟨hget, rfl⟩, ?_⟩
    unfold Value.entry? at hentry
    split at hentry <;> cases hentry <;> rfl

/-- **What a push of a constant does to a frame.** -/
theorem Instruction.Gives.execute_eq {pool : ConstantPool} {instruction : Instruction}
    {value : Value} (h : instruction.Gives pool value) (hlength : pool.length ≤ 65536)
    (assumptions : Assumptions) (offset next : Nat) (frame : Frame) :
    Context.execute ⟨pool, .precise, assumptions⟩ offset next instruction frame =
      .ok ⟨⟨[next], none⟩,
        { frame with stack := frame.stack.push value (OriginSet.ofInstruction offset) }⟩ := by
  have hfalls := fallsThrough_of_sequential h.flow_eq
  unfold Context.execute Context.run Context.perform
  cases h with
  | null hop | int hop | long hop | float hop | double hop =>
    simp only [hop, hfalls, if_true]
    rfl
  | byte hop ho | short hop ho =>
    simp only [hop, ho, hfalls, if_true]
    rfl
  | @entry _ constant index hentry hop ho hget =>
    have hindex : instruction.constantIndex? = some index := by
      unfold Instruction.constantIndex?
      rw [ho]
    have hload : Context.loadConstant ⟨pool, .precise, assumptions⟩ offset instruction frame =
        .ok ((), { frame with
          stack := frame.stack.push value (OriginSet.ofInstruction offset) }) :=
      Context.loadConstant_of_entry? hentry hindex (hget hlength)
    simp only [hop, hfalls, if_true]
    exact Except.bind_eq_ok.mpr
      ⟨(⟨[next], none⟩, _), StateT.bind_eq_ok.mpr ⟨(), _, hload, rfl⟩, rfl⟩

theorem Instruction.Gives.pushesExactly {pool : ConstantPool} {instruction : Instruction}
    {value : Value} (h : instruction.Gives pool value) (hlength : pool.length ≤ 65536) :
    instruction.PushesExactly pool value := by
  intro assumptions offset next frame
  refine ⟨_, h.execute_eq hlength assumptions offset next frame, rfl, ?_, rfl⟩
  exact Stack.view_push frame.stack value (OriginSet.ofInstruction offset)

/-! ## Writing a push and reading it -/

theorem Instruction.fits_of_shortPush? {value : Value} {push : Instruction}
    (h : value.shortPush? = some push) : push.Fits := by
  unfold Value.shortPush? at h
  split at h
  case h_2 => exact fits_of_pushInt? h
  all_goals repeat' split at h
  all_goals cases h
  all_goals trivial

/-- The load with a short index is only chosen for an index that is short. -/
theorem Instruction.fits_entryLoad (constant : Constant) (index : UInt16) :
    (Value.entryLoad constant index).Fits := by
  have hwide : Opcode.ldc2W ≠ Opcode.ldc := by decide
  have hlong : Opcode.ldcW ≠ Opcode.ldc := by decide
  unfold Value.entryLoad
  split
  · exact fun h => absurd h hwide
  · split
    · rename_i hshort
      exact fun _ => hshort
    · exact fun h => absurd h hlong

theorem Instruction.fits_of_constantPush {pool pool' : ConstantPool} {value : Value}
    {push : Instruction} (h : PoolM.Runs value.constantPush pool push pool') : push.Fits := by
  rcases Decision.runs_constantPush.mp h with ⟨hshort, -⟩ | ⟨-, constant, index, -, -, rfl⟩
  · exact fits_of_shortPush? hshort
  · exact fits_entryLoad constant index

/-! ## Constants that can be pushed -/

/-- Null has a short form, and so every known value of a kind has a short form or an entry. -/
theorem Value.shortPush?_or_entry? {value : Value} (hparticular : value.isParticular = true)
    (hkind : value.kind?.isSome = true) :
    (∃ push, value.shortPush? = some push) ∨ ∃ constant, value.entry? = some constant := by
  cases value with
  | top | returnAddress => cases hkind
  | int number | long number | float number | double number =>
    cases number with
    | particular number => exact .inr ⟨_, rfl⟩
    | unknown | specific => cases hparticular
  | reference identity =>
    cases identity with
    | null => exact .inl ⟨_, rfl⟩
    | unknown | specific => cases hparticular

/-- With two free indices, every known value of a kind can be pushed. -/
theorem Value.exists_runs_constantPush {pool : ConstantPool} {value : Value}
    (hparticular : value.isParticular = true) (hkind : value.kind?.isSome = true)
    (hroom : pool.length + 2 ≤ 65535) :
    ∃ push grown, PoolM.Runs value.constantPush pool push grown := by
  cases hshort : value.shortPush? with
  | some push => exact ⟨push, pool, Decision.runs_constantPush.mpr (.inl ⟨hshort, rfl⟩)⟩
  | none =>
    obtain ⟨push, hpush⟩ | ⟨constant, hentry⟩ := shortPush?_or_entry? hparticular hkind
    · rw [hshort] at hpush
      cases hpush
    · have hslots : constant.slots ≤ 2 := by
        unfold Constant.slots
        split <;> omega
      have hfree : pool.length + constant.slots ≤ 65535 := by omega
      obtain ⟨index, grown, hruns, -⟩ := ConstantPool.exists_runs_findOrAdd constant hfree
      exact ⟨Value.entryLoad constant index, grown,
        Decision.runs_constantPush.mpr (.inr ⟨hshort, constant, index, hentry, hruns, rfl⟩)⟩

/-- A push of a constant, with the constant pool before and after it was chosen: it pushes the constant
and does nothing else, it is read wherever it is written, and the pool has only been appended to. -/
structure ExactPush (pool : ConstantPool) (value : Value) (push : Instruction)
    (grown : ConstantPool) : Prop where
  pushes : push.PushesExactly grown value
  reads : ∀ front behind : List UInt8, ∃ bytes, push.encode front.length = .ok bytes ∧
    Instruction.decodeAt (front ++ (bytes ++ behind)) front.length = .ok push
  appended : ∃ appended, grown.entries = pool.entries ++ appended

/-- **A constant is pushed exactly.** With two free indices in the pool, a push is always found. -/
theorem Value.constantPush_exact {pool : ConstantPool} (hbuilt : pool.Built) {value : Value}
    (hparticular : value.isParticular = true) (hkind : value.kind?.isSome = true) :
    (∀ push grown, PoolM.Runs value.constantPush pool push grown →
      ExactPush pool value push grown) ∧
    (pool.length + 2 ≤ 65535 → ∃ push grown, PoolM.Runs value.constantPush pool push grown) := by
  refine ⟨fun push grown h => ?_, exists_runs_constantPush hparticular hkind⟩
  have hextends := Decision.extends_of_constantPush h
  have hlength : grown.length ≤ 65536 := by
    have hgrown := hextends.length
    have hpool := hbuilt.length_le
    omega
  have hwell := Instruction.wellFormed_of_constantPush h
  have hfits := Instruction.fits_of_constantPush h
  refine ⟨(gives_of_constantPush h).pushesExactly hlength, fun front behind => ?_,
    hextends.exists_appended⟩
  obtain ⟨bytes, hbytes⟩ := Instruction.exists_encode hfits front.length
  exact ⟨bytes, hbytes, Instruction.decodeAt_of_encode hwell hfits hbytes behind⟩

/-- A pool with a long and with the zero that has no sign. -/
def withZero : ConstantPool :=
  ((ConstantPool.findOrAdd (.float 0)).apply ((ConstantPool.add (.long 7)).apply .empty).2).2

/-- The zero with a sign is neither the short form of zero nor the zero of the pool. -/
theorem Value.constantPush_exact_negativeZero :
    withZero.Built ∧ withZero.get 3 = .ok (.float 0) ∧
      ∃ grown, PoolM.Runs (Value.ofFloat 0x80000000).constantPush withZero
          ⟨Opcode.ldc, .constant 4⟩ grown ∧
        ExactPush withZero (Value.ofFloat 0x80000000) ⟨Opcode.ldc, .constant 4⟩ grown := by
  have hbuilt : withZero.Built := .findOrAdd (.add .empty _) _
  have hrun : PoolM.Runs (Value.ofFloat 0x80000000).constantPush withZero
      ⟨Opcode.ldc, .constant 4⟩ ((Value.ofFloat 0x80000000).constantPush.apply withZero).2 :=
    Prod.ext (Except.eq_ok_of_toOption (by decide +kernel)) rfl
  exact ⟨hbuilt, Except.eq_ok_of_toOption (by decide +kernel), _, hrun,
    (constantPush_exact hbuilt rfl rfl).1 _ _ hrun⟩

end JvmTrim
