import JvmTrim.Proofs.FlowPaths
import JvmTrim.Proofs.Soundness

/-!
# The stack of a run

The machine has no limit on its stack. It needs none, as a run follows a path of control: the words
on the stack of any of its states are as many as the path has there, and the largest height along
paths is what `maxStackHeight` finds. Edited code declares just this height, so its runs stay within
the stack that it declares.

## Main definitions

* `Machine.Trades`: a computation that replaces some words on the stack by others

## Main results

* `Machine.trades_execute`: the machine moves the height of the stack by the stack effect
* `Machine.flowsTo_of_run`: the states of a run lie on paths
* `Machine.stack_le_maxStackHeight`: no run exceeds the computed stack size
* `Edit.stack_le_maxStack`: no run of an edited body exceeds the size that the body declares
-/

namespace JvmTrim

namespace Machine

/-! ## The height of the stack -/

/-- Whether a computation takes `pops` words from the stack and leaves `pushes` there. -/
def Trades {α : Type} (pops pushes : Nat) (x : Machine α) : Prop :=
  ∀ store a store', x store = .ok (a, store') →
    store'.stack.length + pops = store.stack.length + pushes

section

variable {α β : Type} {pops pops' pushes pushes' : Nat}

theorem trades_reject : Trades pops pushes (reject : Machine α) := nofun

theorem trades_finish (outcome : Outcome) : Trades pops pushes (finish outcome : Machine α) := nofun

theorem trades_pure (a : α) : Trades 0 0 (pure a : Machine α) := by
  intro store a' store' h
  cases h
  rfl

theorem Trades.bind {x : Machine α} {f : α → Machine β} (hx : Trades pops pushes x)
    (hf : ∀ a, Trades pops' pushes' (f a)) :
    Trades (pops + pops') (pushes + pushes') (x >>= f) := by
  intro store b store' h
  obtain ⟨a, middle, hfirst, hrest⟩ := StateT.bind_eq_ok.mp h
  have hheight := hx _ _ _ hfirst
  have hheight' := hf a _ _ _ hrest
  omega

/-- A computation that gives something else at its end. -/
theorem Trades.map {x : Machine α} (hx : Trades pops pushes x) (f : α → β) :
    Trades pops pushes (x >>= fun a => pure (f a)) :=
  hx.bind fun a => trades_pure (f a)

theorem trades_pushInt (value : Int32) : Trades 0 1 (pushInt value) := by
  intro store a store' h
  cases h
  rfl

theorem trades_pushLong (value : Int64) : Trades 0 2 (pushLong value) := by
  intro store a store' h
  cases h
  rfl

theorem trades_popInt : Trades 1 0 popInt := by
  intro store a store' h
  cases popInt_eq_ok h
  rfl

theorem trades_popLong : Trades 2 0 popLong := by
  intro store a store' h
  cases popLong_eq_ok h
  rfl

theorem trades_readInt (slot : UInt16) : Trades 0 0 (readInt slot) := by
  intro store a store' h
  obtain ⟨rfl, -⟩ := readInt_eq_ok h
  rfl

theorem trades_readLong (slot : UInt16) : Trades 0 0 (readLong slot) := by
  intro store a store' h
  obtain ⟨rfl, -⟩ := readLong_eq_ok h
  rfl

theorem trades_write (index : Nat) (word : Cell) : Trades 0 0 (write index word) := by
  intro store a store' h
  obtain ⟨-, rfl⟩ := write_eq_ok h
  rfl

theorem trades_shuffle (move : Shuffle) : Trades move.pops move.outputs.length (shuffle move) := by
  intro store a store' h
  obtain ⟨copies, hcopies, rfl⟩ := shuffle_eq_ok h
  obtain ⟨hle, hsources⟩ := Shuffle.copied?_eq_some hcopies
  have hlength := hsources.length_eq
  simp only [List.length_reverse, List.length_append, List.length_drop] at hlength ⊢
  omega

/-- Two ints make way for a number of some size. -/
theorem trades_popInts {f : Int32 → Int32 → Machine α} (hf : ∀ b a, Trades 0 pushes (f b a)) :
    Trades 2 pushes (do
      let b ← popInt
      let a ← popInt
      f b a) := by
  have h := trades_popInt.bind fun b => trades_popInt.bind fun a => hf b a
  rwa [Nat.zero_add, Nat.zero_add] at h

/-- Two longs make way for a number of some size. -/
theorem trades_popLongs {f : Int64 → Int64 → Machine α} (hf : ∀ b a, Trades 0 pushes (f b a)) :
    Trades 4 pushes (do
      let b ← popLong
      let a ← popLong
      f b a) := by
  have h := trades_popLong.bind fun b => trades_popLong.bind fun a => hf b a
  rwa [Nat.zero_add, Nat.zero_add] at h

end

variable {pool : ConstantPool} {instruction : Instruction} {effect : StackEffect}

theorem trades_arithmeticInt (operator : Arithmetic) : Trades 2 1 (arithmeticInt operator) := by
  refine trades_popInts fun b a => ?_
  cases operator with
  | add | sub | mul => exact trades_pushInt _
  | div | rem =>
    dsimp only
    split
    · exact trades_finish _
    · exact trades_pushInt _

theorem trades_arithmeticLong (operator : Arithmetic) : Trades 4 2 (arithmeticLong operator) := by
  refine trades_popLongs fun b a => ?_
  cases operator with
  | add | sub | mul => exact trades_pushLong _
  | div | rem => exact trades_reject

/-- A load that fits pushes as many words as its opcode says. -/
theorem trades_loadConstant {wide : Bool} (hop : instruction.operation = .loadConstant wide)
    (hfits : instruction.loadFits pool = true) :
    Trades 0 (if wide then 2 else 1) (loadConstant pool instruction) := by
  unfold loadConstant
  cases hoperand : instruction.operand with
  | constant index =>
    have hindex : instruction.constantIndex? = some index := by
      unfold Instruction.constantIndex?
      rw [hoperand]
    unfold Instruction.loadFits at hfits
    simp only [hop, hindex] at hfits
    cases hget : pool.get index with
    | error failure =>
      simp only [hget]
      exact trades_reject
    | ok constant =>
      simp only [hget] at hfits ⊢
      cases constant with
      | integer value =>
        cases wide
        · exact trades_pushInt value
        · cases hfits
      | long value =>
        cases wide
        · cases hfits
        · exact trades_pushLong value
      | _ => exact trades_reject
  | _ => exact trades_reject

/-- What goes on with the next instruction moves the height by the stack effect. -/
theorem trades_perform (he : instruction.stackEffect pool = .ok effect)
    (hfits : instruction.loadFits pool = true) :
    Trades effect.pops effect.pushes (perform pool instruction) := by
  unfold Instruction.stackEffect at he
  unfold perform
  cases hop : instruction.operation
  all_goals simp only [hop] at he
  case nop =>
    cases he
    exact trades_pure ()
  case load kind slot =>
    cases he
    cases kind with
    | int => exact (trades_readInt _).bind fun _ => trades_pushInt _
    | long => exact (trades_readLong _).bind fun _ => trades_pushLong _
    | _ => exact trades_reject
  case store kind slot =>
    cases he
    cases kind with
    | int => exact trades_popInt.bind fun _ => trades_write _ _
    | long => exact trades_popLong.bind fun _ => (trades_write _ _).bind fun _ => trades_write _ _
    | _ => exact trades_reject
  case shuffle move =>
    cases he
    exact trades_shuffle move
  case pushInt value =>
    cases he
    exact trades_pushInt value
  case pushLong value =>
    cases he
    exact trades_pushLong value
  case pushImmediate =>
    cases he
    cases instruction.operand with
    | byte value => exact trades_pushInt _
    | short value => exact trades_pushInt _
    | _ => exact trades_reject
  case loadConstant wide =>
    have hload := trades_loadConstant hop hfits
    cases wide
    all_goals
      cases he
      exact hload
  case increment =>
    cases he
    cases instruction.operand with
    | increment slot delta => exact (trades_readInt slot).bind fun _ => trades_write _ _
    | _ => exact trades_reject
  case arithmetic operator kind =>
    cases he
    cases kind with
    | int => exact trades_arithmeticInt operator
    | long => exact trades_arithmeticLong operator
    | _ => exact trades_reject
  case shift operator kind =>
    cases he
    cases kind with
    | int => exact trades_popInts fun _ _ => trades_pushInt _
    | _ => exact trades_reject
  case bitwise operator kind =>
    cases he
    cases kind with
    | int => exact trades_popInts fun _ _ => trades_pushInt _
    | long => exact trades_popLongs fun _ _ => trades_pushLong _
  case negate kind =>
    cases he
    cases kind with
    | int => exact trades_popInt.bind fun _ => trades_pushInt _
    | _ => exact trades_reject
  case convert source target =>
    cases he
    cases source <;> cases target
    case int.long => exact trades_popInt.bind fun _ => trades_pushLong _
    case long.int => exact trades_popLong.bind fun _ => trades_pushInt _
    all_goals exact trades_reject
  case compareLong =>
    cases he
    exact trades_popLongs fun _ _ => trades_pushInt _
  case returnValue kind =>
    cases he
    cases kind with
    | int => exact trades_popInt.bind fun _ => @trades_finish Unit 0 0 _
    | long => exact trades_popLong.bind fun _ => @trades_finish Unit 0 0 _
    | _ => exact trades_reject
  case returnVoid => exact trades_finish _
  all_goals exact trades_reject

/-- **The machine moves the height of the stack by the stack effect.** -/
theorem trades_execute (he : instruction.stackEffect pool = .ok effect)
    (hfits : instruction.loadFits pool = true) :
    Trades effect.pops effect.pushes (execute pool instruction) := by
  have hperform := trades_perform he hfits
  unfold Instruction.stackEffect at he
  unfold execute
  cases hop : instruction.operation
  all_goals simp only [hop] at he
  case branchZero comparison =>
    cases he
    exact trades_popInt.map _
  case branchInt comparison =>
    cases he
    exact trades_popInts fun _ _ => trades_pure _
  case jump =>
    cases he
    exact trades_pure _
  case switch =>
    cases he
    exact trades_popInt.map _
  all_goals exact hperform.map _

/-! ## Runs follow paths -/

/-- An instruction without an exit of its own goes on with the next one. -/
theorem fallsThrough_of_execute {store store' : Store}
    (h : execute pool instruction store = .ok (none, store')) : instruction.fallsThrough = true := by
  unfold execute at h
  cases hop : instruction.operation
  all_goals simp only [hop] at h
  case branchZero | branchInt =>
    unfold Instruction.fallsThrough Instruction.flow
    rw [hop]
    rfl
  case jump => cases h
  case switch =>
    obtain ⟨_, _, -, hend⟩ := StateT.bind_eq_ok.mp h
    cases hend
  all_goals
    obtain ⟨_, middle, hperform, -⟩ := StateT.bind_eq_ok.mp h
    exact Context.fallsThrough_of_perform hperform

variable {code : Code} {listing : Listing} {handlers : List Handler} {state next : State}

/-- A step of a run is a step of a path. -/
theorem flowsTo_of_step (hlisting : Listing.ofCode code.bytes = .ok listing)
    (hsound : listing.FlowSound pool handlers)
    (hfits : ∀ entry ∈ listing.instructions, entry.2.loadFits pool = true)
    (hpath : listing.FlowsTo pool handlers state.offset state.stack.length)
    (hstep : step pool listing.instructions state = .ok next) :
    listing.FlowsTo pool handlers next.offset next.stack.length := by
  obtain ⟨instruction, exit, hlookup, hexecute, hresolve⟩ := step_eq_ok hstep
  have hmem := mem_of_lookup_eq_some hlookup
  have hlisted := (Listing.get?_eq_some_iff hlisting).mpr hmem
  obtain ⟨effect, haffects, -⟩ := hsound.pops hpath hlisted
  have hload : instruction.loadFits pool = true := hfits (state.offset, instruction) hmem
  have htrades := trades_execute haffects hload _ _ _ hexecute
  have hheight : (next.stack.length : Int) =
      state.stack.length - effect.pops + effect.pushes := by
    omega
  rw [hheight]
  cases exit with
  | none =>
    rw [← Except.ok.inj hresolve]
    exact .next hpath hlisted haffects (fallsThrough_of_execute hexecute)
  | some place =>
    unfold resolve at hresolve
    simp only at hresolve
    split at hresolve
    · rename_i displacement hdisplacement
      split at hresolve
      · cases hresolve
      · rename_i hnonneg
        rw [← Except.ok.inj hresolve, Int.toNat_of_nonneg (Int.not_lt.mp hnonneg)]
        exact .branch hpath hlisted haffects (List.mem_of_getElem? hdisplacement)
    · cases hresolve

/-- **The states of a run lie on paths**, with as many words as the path has. -/
theorem flowsTo_of_run (hlisting : Listing.ofCode code.bytes = .ok listing)
    (hsound : listing.FlowSound pool handlers)
    (hfits : ∀ entry ∈ listing.instructions, entry.2.loadFits pool = true)
    (hpath : listing.FlowsTo pool handlers state.offset state.stack.length) {count : Nat}
    (hrun : run pool listing.instructions count state = .ok next) :
    listing.FlowsTo pool handlers next.offset next.stack.length := by
  induction count generalizing state with
  | zero =>
    cases hrun
    exact hpath
  | succ count ih =>
    obtain ⟨middle, hstep, hrun⟩ := Except.bind_eq_ok.mp hrun
    exact ih (flowsTo_of_step hlisting hsound hfits hpath hstep) hrun

/-! ## The size of the stack -/

variable {body : List (Nat × Instruction)} {maxLocals count : Nat} {arguments : List Cell}

/-- **No run exceeds the computed stack size.** -/
theorem stack_le_maxStackHeight {highest : UInt16} (hbody : decodeAll code.bytes = .ok body)
    (hfits : ∀ entry ∈ body, entry.2.loadFits pool = true)
    (hmax : maxStackHeight code pool = .ok highest)
    (hrun : run pool body count (start maxLocals arguments) = .ok state) :
    state.stack.length ≤ highest.toNat := by
  obtain ⟨listing, hlisting, hsound, hgreatest⟩ := isGreatest_of_maxStackHeight hmax
  cases hbody.symm.trans (Listing.ofCode_eq_ok hlisting).1
  cases count with
  | zero =>
    cases hrun
    exact Nat.zero_le _
  | succ count =>
    obtain ⟨middle, hstep, -⟩ := Except.bind_eq_ok.mp hrun
    obtain ⟨instruction, -, hlookup, -⟩ := step_eq_ok hstep
    have hpos : 0 < listing.size := by
      rw [Listing.size_of_ofCode hlisting]
      exact lt_of_decodeAll hbody _ (mem_of_lookup_eq_some hlookup)
    have hstart : listing.FlowsTo pool code.handlers (start maxLocals arguments).offset
        (start maxLocals arguments).stack.length := .entry hpos
    have hpath := flowsTo_of_run hlisting hsound hfits hstart hrun
    have hmem : (state.stack.length : Int) ∈ listing.PathHeights pool code.handlers :=
      ⟨state.offset, _, hpath, .inl rfl⟩
    rcases hgreatest with hgreatest | ⟨hnone, -⟩
    · exact Int.ofNat_le.mp (hgreatest.2 hmem)
    · rw [hnone] at hmem
      exact hmem.elim

end Machine

namespace Edit

variable {edit : Edit} {code edited : Code} {pool : ConstantPool}

/-- An edited body declares the stack size that is computed for it. -/
theorem maxStackHeight_of_apply (h : edit.apply code pool = .ok edited) :
    maxStackHeight edited pool = .ok edited.maxStack := by
  unfold apply at h
  split at h
  · cases h
  · obtain ⟨_, -, h⟩ := Except.bind_eq_ok.mp h
    obtain ⟨_, -, h⟩ := Except.bind_eq_ok.mp h
    obtain ⟨_, -, h⟩ := Except.bind_eq_ok.mp h
    obtain ⟨_, -, h⟩ := Except.bind_eq_ok.mp h
    obtain ⟨_, -, h⟩ := Except.bind_eq_ok.mp h
    obtain ⟨_, -, h⟩ := Except.bind_eq_ok.mp h
    obtain ⟨_, -, h⟩ := Except.bind_eq_ok.mp h
    obtain ⟨_, -, h⟩ := Except.bind_eq_ok.mp h
    obtain ⟨height, hheight, h⟩ := Except.bind_eq_ok.mp h
    cases h
    exact hheight

/-- **No run of an edited body exceeds the stack size that it declares**, if its constant loads are
the ones for constants of their sizes. -/
theorem stack_le_maxStack {body : List (Nat × Instruction)} {arguments : List Cell} {count : Nat}
    {state : Machine.State} (happly : edit.apply code pool = .ok edited)
    (hbody : decodeAll edited.bytes = .ok body)
    (hfits : ∀ entry ∈ body, entry.2.loadFits pool = true)
    (hrun : Machine.run pool body count (Machine.start edited.maxLocals.toNat arguments) =
      .ok state) :
    state.stack.length ≤ edited.maxStack.toNat :=
  Machine.stack_le_maxStackHeight hbody hfits (maxStackHeight_of_apply happly) hrun

end Edit

end JvmTrim
