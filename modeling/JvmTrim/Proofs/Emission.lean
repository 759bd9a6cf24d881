import JvmTrim.Proofs.Boundaries
import JvmTrim.Proofs.Sets
import JvmTrim.Simplify.Repair
import Mathlib.Data.Option.Basic

/-!
# What is emitted for an instruction

Collecting the edits of a body is a computation with a state. `Decision.Emits` says what it leaves
for one instruction, case by case, without that state; the repair of one instruction touches no other
site, and the whole body is repaired in ascending order, so a pop is kept before its turn comes.

## Main definitions

* `Repair.Runs`: a successful run of a repair
* `ConstantPool.Extends`: a constant pool that only grew
* `Decision.Emits`: what is left for an instruction

## Main results

* `Decision.repairAt_spec`: the repair of one instruction
* `Decision.emits_of_repairAll`: the repair of a body
-/

namespace JvmTrim

/-! ## Growing constant pools -/

/-- Whether a constant pool begins with all entries of another one, and has grown by entries that can
be referred to only. -/
structure ConstantPool.Extends (old new : ConstantPool) : Prop where
  entries : ∀ (index : Nat) entry, old.entries[index]? = some entry →
    new.entries[index]? = some entry
  length : new.length ≤ max old.length 65535

namespace ConstantPool

variable {α β : Type}

theorem Extends.refl (pool : ConstantPool) : pool.Extends pool where
  entries _ _ h := h
  length := Nat.le_max_left _ _

theorem Extends.trans {a b c : ConstantPool} (hab : a.Extends b) (hbc : b.Extends c) :
    a.Extends c where
  entries index entry h := hbc.entries index entry (hab.entries index entry h)
  length := by
    have := hab.length
    have := hbc.length
    omega

/-- Whether what can be read from a constant pool stays the same while the pool grows. -/
def Stable (read : ConstantPool → Except Failure α) : Prop :=
  ∀ old new value, old.Extends new → read old = .ok value → read new = .ok value

theorem stable_const (result : Except Failure α) : Stable fun _ => result :=
  fun _ _ _ _ h => h

theorem Stable.bind {read : ConstantPool → Except Failure α}
    {next : α → ConstantPool → Except Failure β} (hread : Stable read)
    (hnext : ∀ value, Stable (next value)) : Stable fun pool => read pool >>= (next · pool) := by
  intro old new value hext h
  obtain ⟨found, hfound, h⟩ := Except.bind_eq_ok.mp h
  exact Except.bind_eq_ok.mpr ⟨found, hread _ _ _ hext hfound, hnext found _ _ _ hext h⟩

theorem stable_get (index : UInt16) : Stable (·.get index) := by
  intro old new constant hext h
  unfold get at h ⊢
  rw [orFail_eq_ok, Option.join_eq_some_iff] at h ⊢
  exact hext.entries _ _ h

theorem stable_utf8 (index : UInt16) : Stable (·.utf8 index) := by
  refine (stable_get index).bind fun constant => ?_
  cases constant <;> exact stable_const _

theorem stable_className (index : UInt16) : Stable (·.className index) := by
  refine (stable_get index).bind fun constant => ?_
  cases constant <;> first | exact stable_utf8 _ | exact stable_const _

theorem stable_nameAndType (index : UInt16) : Stable (·.nameAndType index) := by
  refine (stable_get index).bind fun constant => ?_
  cases constant
  case nameAndType name descriptor =>
    exact (stable_utf8 name).bind fun _ => (stable_utf8 descriptor).bind fun _ => stable_const _
  all_goals exact stable_const _

theorem stable_memberRef (index : UInt16) : Stable (·.memberRef index) := by
  have hmember (owner nameAndType : UInt16) (kind : MemberKind) : Stable fun pool => do
      let named ← pool.nameAndType nameAndType
      return (⟨← pool.className owner, named.1, named.2, kind⟩ : MemberRef) :=
    (stable_nameAndType nameAndType).bind fun _ =>
      (stable_className owner).bind fun _ => stable_const _
  refine (stable_get index).bind fun constant => ?_
  cases constant <;> first | exact hmember _ _ _ | exact stable_const _

theorem stable_callSiteDescriptor (index : UInt16) : Stable (·.callSiteDescriptor index) := by
  refine (stable_get index).bind fun constant => ?_
  cases constant
  case invokeDynamic bootstrap nameAndType =>
    exact (stable_nameAndType nameAndType).bind fun _ => stable_const _
  all_goals exact stable_const _

end ConstantPool

open ConstantPool in
/-- The words that an instruction takes and gives do not depend on what is appended. -/
theorem Instruction.stable_stackEffect (instruction : Instruction) :
    Stable instruction.stackEffect := by
  have hfield : Stable instruction.fieldType :=
    ((stable_const _).bind fun index => stable_memberRef index).bind fun _ => stable_const _
  have hmethod : Stable instruction.methodDescriptor := by
    refine (stable_const _).bind fun index => ?_
    by_cases hdynamic : instruction.operation = .invoke .dynamic
    · simp only [hdynamic, if_true]
      exact (stable_callSiteDescriptor index).bind fun _ => stable_const _
    · simp only [hdynamic, if_false]
      exact (stable_memberRef index).bind fun _ => stable_const _
  unfold stackEffect
  cases hop : instruction.operation
  case getField static => exact hfield.bind fun _ => stable_const _
  case putField static => exact hfield.bind fun _ => stable_const _
  case invoke mode => exact hmethod.bind fun _ => stable_const _
  case loadConstant wide => cases wide <;> exact stable_const _
  all_goals exact stable_const _

/-! ## Running a repair -/

/-- Whether a change of a constant pool succeeds with a result. -/
def PoolM.Runs {α : Type} (change : PoolM α) (pool : ConstantPool) (result : α)
    (pool' : ConstantPool) : Prop :=
  change.apply pool = (.ok result, pool')

/-- Whether a repair succeeds. -/
def Repair.Runs {α : Type} (repair : Repair α) (state : RepairState) (pool : ConstantPool)
    (result : α) (state' : RepairState) (pool' : ConstantPool) : Prop :=
  (repair.run state).apply pool = (.ok (result, state'), pool')

namespace PoolM

variable {α β : Type} {pool pool' : ConstantPool}

theorem runs_bind {x : PoolM α} {f : α → PoolM β} {b : β} :
    Runs (x >>= f) pool b pool' ↔ ∃ a middle, Runs x pool a middle ∧ Runs (f a) middle b pool' := by
  unfold Runs Change.apply
  rw [ExceptT.run_bind, StateT.run_bind]
  rcases hx : (ExceptT.run x).run pool with ⟨failure | a, middle⟩
  · constructor
    · intro h
      cases h
    · rintro ⟨a, middle', h, -⟩
      cases h
  · constructor
    · intro h
      exact ⟨a, middle, rfl, h⟩
    · rintro ⟨a', middle', h, hf⟩
      cases h
      exact hf

theorem runs_pure {a b : α} : Runs (pure a : PoolM α) pool b pool' ↔ a = b ∧ pool = pool' := by
  constructor
  · intro h
    cases h
    exact ⟨rfl, rfl⟩
  · rintro ⟨rfl, rfl⟩
    rfl

theorem runs_bind_get {f : ConstantPool → PoolM β} {b : β} :
    Runs (getThe ConstantPool >>= f) pool b pool' ↔ Runs (f pool) pool b pool' := .rfl

theorem runs_lift {x : Except Failure α} {a : α} :
    Runs (liftM x : PoolM α) pool a pool' ↔ x = .ok a ∧ pool = pool' := by
  have hlift : (liftM x : PoolM α).apply pool = (x, pool) := by
    cases x <;> rfl
  rw [Runs, hlift, Prod.mk.injEq]

end PoolM

theorem Edit.site_modifySite (edit : Edit) (offset o : Nat) (change : SiteEdit → SiteEdit) :
    (edit.modifySite offset change).site o =
      if o = offset then change (edit.site offset) else edit.site o := by
  unfold site modifySite
  rw [lookup_assign]
  by_cases ho : o = offset
  · simp [ho, site]
  · simp [ho]

namespace Repair

variable {α β : Type} {state state' : RepairState} {pool pool' : ConstantPool}

theorem runs_bind {x : Repair α} {f : α → Repair β} {b : β} :
    Runs (x >>= f) state pool b state' pool' ↔ ∃ a middle between,
      Runs x state pool a middle between ∧ Runs (f a) middle between b state' pool' := by
  refine Iff.trans (PoolM.runs_bind (x := x.run state) (f := fun p => (f p.1).run p.2)) ?_
  constructor
  · rintro ⟨⟨a, middle⟩, between, hx, hf⟩
    exact ⟨a, middle, between, hx, hf⟩
  · rintro ⟨a, middle, between, hx, hf⟩
    exact ⟨(a, middle), between, hx, hf⟩

theorem runs_pure {a b : α} : Runs (pure a : Repair α) state pool b state' pool' ↔
    a = b ∧ state = state' ∧ pool = pool' := by
  constructor
  · intro h
    cases h
    exact ⟨rfl, rfl, rfl⟩
  · rintro ⟨rfl, rfl, rfl⟩
    rfl

theorem runs_bind_lift {x : Except Failure α} {f : α → Repair β} {b : β} :
    Runs (liftM x >>= f) state pool b state' pool' ↔
      ∃ a, x = .ok a ∧ Runs (f a) state pool b state' pool' := by
  cases x with
  | error failure =>
    constructor
    · intro h
      cases h
    · rintro ⟨a, ha, -⟩
      cases ha
  | ok a =>
    constructor
    · intro h
      exact ⟨a, rfl, h⟩
    · rintro ⟨a, ha, h⟩
      cases ha
      exact h

theorem runs_map_lift {x : Except Failure α} {f : α → β} {b : β}
    (h : Runs (f <$> (liftM x : Repair α)) state pool b state' pool') :
    ∃ a, x = .ok a ∧ b = f a ∧ state' = state ∧ pool' = pool := by
  cases x with
  | error failure => cases h
  | ok a =>
    cases h
    exact ⟨a, rfl, rfl, rfl, rfl⟩

theorem runs_bind_liftPool {x : PoolM α} {f : α → Repair β} {b : β} :
    Runs (liftM x >>= f) state pool b state' pool' ↔
      ∃ a middle, PoolM.Runs x pool a middle ∧ Runs (f a) state middle b state' pool' := by
  have hlift {a : α} {middle : RepairState} {between : ConstantPool} :
      Runs (liftM x : Repair α) state pool a middle between ↔
        PoolM.Runs x pool a between ∧ state = middle := by
    refine Iff.trans (PoolM.runs_bind (x := x) (f := fun a => pure (a, state))) ?_
    constructor
    · rintro ⟨a, found, hx, h⟩
      cases h
      exact ⟨hx, rfl⟩
    · rintro ⟨hx, rfl⟩
      exact ⟨a, between, hx, rfl⟩
  rw [runs_bind]
  constructor
  · rintro ⟨a, middle, between, hx, h⟩
    obtain ⟨hruns, rfl⟩ := hlift.mp hx
    exact ⟨a, between, hruns, h⟩
  · rintro ⟨a, between, hx, h⟩
    exact ⟨a, state, between, hlift.mpr ⟨hx, rfl⟩, h⟩

theorem runs_bind_get {f : RepairState → Repair β} {b : β} :
    Runs (get >>= f) state pool b state' pool' ↔ Runs (f state) state pool b state' pool' := .rfl

theorem runs_bind_getPool {f : ConstantPool → Repair β} {b : β} :
    Runs (getThe ConstantPool >>= f) state pool b state' pool' ↔
      Runs (f pool) state pool b state' pool' := .rfl

/-- Whether two states of a repair differ in their reports only. -/
def SameEdits (a b : RepairState) : Prop := b.edit = a.edit ∧ b.keptPops = a.keptPops

theorem SameEdits.trans {a b c : RepairState} (hab : SameEdits a b) (hbc : SameEdits b c) :
    SameEdits a c :=
  ⟨hbc.1.trans hab.1, hbc.2.trans hab.2⟩

/-- What the repair of the instruction at `offset` does to the edits: it leaves `code`, and possibly
a pop that stays. -/
structure Leaves (offset : Nat) (instruction : Instruction) (code : List Instruction)
    (keeps : Option Nat) (old new : RepairState) : Prop where
  others : ∀ o ≠ offset, new.edit.site o = old.edit.site o
  emitted : old.edit.site offset = .keep → (new.edit.site offset).emitted instruction = code
  keptPops : ∀ o, new.keptPops.contains o = true ↔
    old.keptPops.contains o = true ∨ keeps = some o
  removed : new.edit.removedHandlers = old.edit.removedHandlers

variable {offset : Nat} {instruction : Instruction} {code : List Instruction} {keeps : Option Nat}

theorem Leaves.before {middle : RepairState} (h : Leaves offset instruction code keeps middle state')
    (hs : SameEdits state middle) : Leaves offset instruction code keeps state state' := by
  obtain ⟨hothers, hemitted, hkept, hremoved⟩ := h
  rw [hs.1] at hothers hemitted hremoved
  rw [hs.2] at hkept
  exact ⟨hothers, hemitted, hkept, hremoved⟩

theorem Leaves.after {middle : RepairState} (h : Leaves offset instruction code keeps state middle)
    (hs : SameEdits middle state') : Leaves offset instruction code keeps state state' := by
  obtain ⟨hothers, hemitted, hkept, hremoved⟩ := h
  rw [← hs.1] at hothers hemitted hremoved
  rw [← hs.2] at hkept
  exact ⟨hothers, hemitted, hkept, hremoved⟩

theorem SameEdits.leaves (h : SameEdits state state') :
    Leaves offset instruction [instruction] none state state' := by
  refine ⟨fun o _ => by rw [h.1], fun hkeep => ?_, fun o => by simp [h.2], by rw [h.1]⟩
  rw [h.1, hkeep, SiteEdit.emitted_keep]

theorem runs_count {change : Report → Report} {u : Unit}
    (h : Runs (count change) state pool u state' pool') :
    SameEdits state state' ∧ pool = pool' := by
  cases h
  exact ⟨⟨rfl, rfl⟩, rfl⟩

theorem runs_bind_count {change : Report → Report} {f : Unit → Repair β} {b : β}
    (h : Runs (count change >>= f) state pool b state' pool') :
    ∃ middle, SameEdits state middle ∧ Runs (f ()) middle pool b state' pool' := by
  obtain ⟨⟨⟩, middle, between, hcount, h⟩ := runs_bind.mp h
  obtain ⟨hsame, rfl⟩ := runs_count hcount
  exact ⟨middle, hsame, h⟩

theorem runs_modifySite {change : SiteEdit → SiteEdit} {u : Unit} (instruction : Instruction)
    (h : Runs (edit (·.modifySite offset change)) state pool u state' pool')
    (hcode : (change .keep).emitted instruction = code) :
    Leaves offset instruction code none state state' ∧ pool = pool' := by
  cases h
  refine ⟨⟨fun o ho => ?_, fun hkeep => ?_, fun o => by simp, rfl⟩, rfl⟩
  · rw [Edit.site_modifySite, if_neg ho]
  · rw [Edit.site_modifySite, if_pos rfl, hkeep, hcode]

theorem runs_edit_replace {u : Unit} (instruction : Instruction)
    (h : Runs (edit (·.replace offset code)) state pool u state' pool') :
    Leaves offset instruction code none state state' ∧ pool = pool' :=
  runs_modifySite instruction h (by simp [SiteEdit.emitted, SiteEdit.keep])

theorem runs_replace {u : Unit}
    (h : Runs (replace offset instruction code) state pool u state' pool') :
    Leaves offset instruction code none state state' ∧ pool = pool' := by
  unfold replace at h
  split at h
  · rename_i hsame
    obtain ⟨-, rfl, rfl⟩ := runs_pure.mp h
    exact ⟨hsame ▸ SameEdits.leaves ⟨rfl, rfl⟩, rfl⟩
  · exact runs_edit_replace instruction h

/-- Counting what has been replaced changes no edit. -/
theorem runs_then_count {x : Repair Unit} {change : Report → Report} {u : Unit}
    (hx : ∀ middle between, Runs x state pool () middle between →
      Leaves offset instruction code none state middle ∧ pool = between)
    (h : Runs (x >>= fun _ => count change) state pool u state' pool') :
    Leaves offset instruction code none state state' ∧ pool = pool' := by
  obtain ⟨⟨⟩, middle, between, hruns, h⟩ := runs_bind.mp h
  obtain ⟨hleaves, rfl⟩ := hx middle between hruns
  obtain ⟨hsame, rfl⟩ := runs_count h
  exact ⟨hleaves.after hsame, rfl⟩

end Repair

/-! ## The cases of a repair -/

namespace Decision

/-- What is known of a reachable instruction that is no stack manipulation when it is repaired. -/
structure Handles (decision : Decision) (pool : ConstantPool) (offset : Nat)
    (instruction : Instruction) (reduction : Option Reduction) (effect : StackEffect) : Prop where
  reachable : decision.marks.reachable.contains offset = true
  not_shuffle : instruction.isShuffle = false
  reduction : decision.reductions[offset]? = some reduction
  effect : instruction.stackEffect pool = .ok effect

/-- **What is emitted for an instruction.** The code that is left for the instruction at `offset`,
and the pop behind it that is kept to discard its result; `isKept` says whether it is such a pop
itself. -/
inductive Emits (decision : Decision) (pool pool' : ConstantPool) (offset : Nat)
    (instruction : Instruction) (isKept : Bool) : List Instruction → Option Nat → Prop where
  | unreachable (hr : decision.marks.reachable.contains offset = false) :
      Emits decision pool pool' offset instruction isKept [] none
  | keptPop (hr : decision.marks.reachable.contains offset = true)
      (hs : instruction.isShuffle = true) (hk : isKept = true) :
      Emits decision pool pool' offset instruction isKept [instruction] none
  | shuffle {before : Stack} {inputs outputs : List Word} {plan : List Shuffle}
      (hr : decision.marks.reachable.contains offset = true)
      (hs : instruction.isShuffle = true) (hk : isKept = false)
      (hb : decision.evaluation.stackBefore? offset = some before)
      (hw : decision.marks.shuffleWords offset instruction before = .ok (inputs, outputs))
      (hp : planShuffles? inputs outputs = some plan) :
      Emits decision pool pool' offset instruction isKept
        (plan.map fun move => .simple (Opcode.ofShuffle move)) none
  /-- All that the instruction gives is present. -/
  | stays {effect : StackEffect} {output : Option Value}
      (h : decision.Handles pool offset instruction none effect)
      (hn : decision.marks.necessary.contains offset = true)
      (ho : decision.presentOutput offset effect.pushes = .ok output)
      (hgives : effect.pushes = 0 ∨ output.isSome = true) :
      Emits decision pool pool' offset instruction isKept [instruction] none
  | call {effect : StackEffect} {targets : List Nat} {target : Nat} {opcode : Opcode}
      (h : decision.Handles pool offset instruction none effect)
      (hn : decision.marks.necessary.contains offset = true)
      (ho : decision.presentOutput offset effect.pushes = .ok none)
      (hcall : instruction.operation = .subroutine)
      (ht : instruction.branchTargets offset = .ok targets) (hhead : targets.head? = some target)
      (hreturns : decision.evaluation.isReturning target = false)
      (hopcode : opcode = if instruction.opcode = Opcode.jsrW then Opcode.gotoW else Opcode.goto) :
      Emits decision pool pool' offset instruction isKept [⟨opcode, instruction.operand⟩] none
  /-- A pop behind the instruction discards what it gives. -/
  | discards {effect : StackEffect} (h : decision.Handles pool offset instruction none effect)
      (hn : decision.marks.necessary.contains offset = true)
      (ho : decision.presentOutput offset effect.pushes = .ok none)
      (hcall : instruction.operation ≠ .subroutine) (hpushes : 0 < effect.pushes)
      (hpop : decision.discardingPop? offset effect.pushes = none) :
      Emits decision pool pool' offset instruction isKept [instruction, popOf effect.pushes] none
  /-- A pop that is there already discards what the instruction gives. -/
  | keeps {effect : StackEffect} {next : Nat}
      (h : decision.Handles pool offset instruction none effect)
      (hn : decision.marks.necessary.contains offset = true)
      (ho : decision.presentOutput offset effect.pushes = .ok none)
      (hcall : instruction.operation ≠ .subroutine) (hpushes : 0 < effect.pushes)
      (hpop : decision.discardingPop? offset effect.pushes = some next) :
      Emits decision pool pool' offset instruction isKept [instruction] (some next)
  | constant {effect : StackEffect} {value : Value} {pops : List Instruction} {push : Instruction}
      (h : decision.Handles pool offset instruction (some (.constant value)) effect)
      (hn : decision.marks.necessary.contains offset = true)
      (hp : decision.inputPops offset effect.pops = .ok pops)
      (hv : PoolM.Runs value.constantPush pool push pool') :
      Emits decision pool pool' offset instruction isKept (pops ++ [push]) none
  | alias {effect : StackEffect} {slot index : UInt16} {access : Access} {kind : Kind}
      (h : decision.Handles pool offset instruction (some (.alias slot)) effect)
      (hn : decision.marks.necessary.contains offset = true)
      (ha : instruction.localAccess? = some (access, kind, index)) :
      Emits decision pool pool' offset instruction isKept [.load kind slot] none
  | goto {effect : StackEffect} {target : Nat} {pops : List Instruction} {displacement : Int32}
      (h : decision.Handles pool offset instruction (some (.goto target)) effect)
      (hn : decision.marks.necessary.contains offset = true)
      (hp : decision.inputPops offset effect.pops = .ok pops)
      (hd : displacementTo offset target = .ok displacement) :
      Emits decision pool pool' offset instruction isKept
        (pops ++ [.branch Opcode.goto displacement]) none
  | loop {effect : StackEffect} {pops : List Instruction}
      (h : decision.Handles pool offset instruction (some .loop) effect)
      (hn : decision.marks.necessary.contains offset = true)
      (hp : decision.inputPops offset effect.pops = .ok pops) :
      Emits decision pool pool' offset instruction isKept (pops ++ [.branch Opcode.goto 0]) none
  | drop {effect : StackEffect} {pops : List Instruction}
      (h : decision.Handles pool offset instruction (some .drop) effect)
      (hn : decision.marks.necessary.contains offset = true)
      (hp : decision.inputPops offset effect.pops = .ok pops) :
      Emits decision pool pool' offset instruction isKept pops none
  /-- Pops and a push of some value stand in for an instruction that is not necessary. -/
  | unnecessary {effect : StackEffect} {reduction : Option Reduction} {output : Option Value}
      {placeholder : Option Instruction} {pops : List Instruction}
      (h : decision.Handles pool offset instruction reduction effect)
      (hn : decision.marks.necessary.contains offset = false)
      (ho : decision.presentOutput offset effect.pushes = .ok output)
      (hplaceholder : output = none ∧ placeholder = none ∨ ∃ value push, output = some value ∧
        value.placeholderPush offset = .ok push ∧ placeholder = some push)
      (hp : effect.pops = 0 ∧ pops = [] ∨ decision.inputPops offset effect.pops = .ok pops) :
      Emits decision pool pool' offset instruction isKept (pops ++ placeholder.toList) none

variable {decision : Decision} {offset : Nat} {instruction : Instruction}
  {state state' : RepairState} {pool pool' : ConstantPool} {u : Unit}

open Repair

theorem runs_bind_popInputs {α : Type} {f : List Instruction → Repair α} {count : Nat} {a : α}
    (h : Runs (decision.popInputs offset count >>= f) state pool a state' pool') :
    ∃ pops middle, decision.inputPops offset count = .ok pops ∧ SameEdits state middle ∧
      Runs (f pops) middle pool a state' pool' := by
  rw [popInputs, bind_assoc, runs_bind_lift] at h
  obtain ⟨pops, hpops, h⟩ := h
  rw [bind_assoc] at h
  obtain ⟨middle, hsame, h⟩ := runs_bind_count h
  exact ⟨pops, middle, hpops, hsame, h⟩

/-- The end of the repair of a necessary instruction: a jump to itself is counted. -/
def countSelfJump (offset : Nat) (instruction : Instruction) : Repair Unit := do
  if instruction.operation = .jump then
    if (← instruction.branchTargets offset).head? = some offset then countLoop

/-- The end of the repair of an instruction that is not necessary: pops of its operands and the
placeholder take its place, unless they are the instruction itself. -/
def replaceUnnecessary (decision : Decision) (offset : Nat) (instruction : Instruction)
    (operands : Nat) (placeholder : Option Instruction) : Repair Unit := do
  if operands = 0 && placeholder = some instruction then return ()
  let pops ← decision.popInputs offset operands
  if placeholder.isSome then
    count fun report => { report with pushesInserted := report.pushesInserted + 1 }
  edit (·.replace offset (pops ++ placeholder.toList))
  countDeleted

/-- The repair of an instruction that is reached. -/
def repairReached (decision : Decision) (offset : Nat) (instruction : Instruction)
    (reduction : Option Reduction) : Repair Unit :=
  if instruction.isShuffle then decision.repairShuffle offset instruction
  else if decision.marks.necessary.contains offset then
    decision.repairNecessary offset instruction reduction
  else decision.repairUnnecessary offset instruction

theorem repairShuffle_spec (hr : decision.marks.reachable.contains offset = true)
    (hs : instruction.isShuffle = true)
    (h : Runs (decision.repairShuffle offset instruction) state pool u state' pool') :
    pool = pool' ∧ ∃ code keeps, decision.Emits pool pool' offset instruction
      (state.keptPops.contains offset) code keeps ∧
      Leaves offset instruction code keeps state state' := by
  have h := runs_bind_get.mp h
  split at h
  · rename_i hk
    obtain ⟨-, rfl, rfl⟩ := runs_pure.mp h
    exact ⟨rfl, _, _, .keptPop hr hs hk, SameEdits.leaves ⟨rfl, rfl⟩⟩
  · rename_i hk
    obtain ⟨before, hbefore, h⟩ := runs_bind_lift.mp h
    obtain ⟨⟨inputs, outputs⟩, hwords, h⟩ := runs_bind_lift.mp h
    obtain ⟨plan, hplan, h⟩ := runs_bind_lift.mp h
    rw [recorded, orDefect_eq_ok] at hbefore
    rw [orFail_eq_ok] at hplan
    have hemits (last : ConstantPool) : decision.Emits pool last offset instruction
        (state.keptPops.contains offset) (plan.map fun move => .simple (Opcode.ofShuffle move))
        none :=
      .shuffle hr hs (by simpa using hk) hbefore hwords hplan
    dsimp only at h
    split at h
    · obtain ⟨middle, hsame, h⟩ := runs_bind_count h
      obtain ⟨hleaves, rfl⟩ := runs_replace h
      exact ⟨rfl, _, _, hemits _, hleaves.before hsame⟩
    · obtain ⟨hleaves, rfl⟩ := runs_replace h
      exact ⟨rfl, _, _, hemits _, hleaves⟩

theorem replaceUnnecessary_spec {reduction : Option Reduction} {effect : StackEffect}
    {output : Option Value} {placeholder : Option Instruction} (isKept : Bool)
    (hhandles : decision.Handles pool offset instruction reduction effect)
    (hn : decision.marks.necessary.contains offset = false)
    (houtput : decision.presentOutput offset effect.pushes = .ok output)
    (hplaceholder : output = none ∧ placeholder = none ∨ ∃ value push, output = some value ∧
      value.placeholderPush offset = .ok push ∧ placeholder = some push)
    (h : Runs (decision.replaceUnnecessary offset instruction effect.pops placeholder) state pool u
      state' pool') :
    pool = pool' ∧ ∃ code keeps, decision.Emits pool pool' offset instruction isKept code keeps ∧
      Leaves offset instruction code keeps state state' := by
  unfold replaceUnnecessary at h
  dsimp only at h
  split at h
  · rename_i hsame
    simp only [Bool.and_eq_true, decide_eq_true_eq] at hsame
    obtain ⟨-, rfl, rfl⟩ := runs_pure.mp h
    refine ⟨rfl, [instruction], _, ?_, SameEdits.leaves ⟨rfl, rfl⟩⟩
    have hemits : decision.Emits pool pool offset instruction isKept
        ([] ++ placeholder.toList) none :=
      .unnecessary hhandles hn houtput hplaceholder (.inl ⟨hsame.1, rfl⟩)
    rwa [hsame.2] at hemits
  · obtain ⟨pops, middle, hpops, hsame, h⟩ := runs_bind_popInputs h
    have hemits : decision.Emits pool pool offset instruction isKept (pops ++ placeholder.toList)
        none :=
      .unnecessary hhandles hn houtput hplaceholder (.inr hpops)
    split at h
    · obtain ⟨middle', hsame', h⟩ := runs_bind_count h
      obtain ⟨hleaves, rfl⟩ := runs_then_count (fun _ _ => runs_edit_replace instruction) h
      exact ⟨rfl, _, _, hemits, hleaves.before (hsame.trans hsame')⟩
    · obtain ⟨hleaves, rfl⟩ := runs_then_count (fun _ _ => runs_edit_replace instruction) h
      exact ⟨rfl, _, _, hemits, hleaves.before hsame⟩

theorem repairUnnecessary_spec {reduction : Option Reduction} (isKept : Bool)
    (hr : decision.marks.reachable.contains offset = true)
    (hs : instruction.isShuffle = false)
    (hreduction : decision.reductions[offset]? = some reduction)
    (hn : decision.marks.necessary.contains offset = false)
    (h : Runs (decision.repairUnnecessary offset instruction) state pool u state' pool') :
    pool = pool' ∧ ∃ code keeps, decision.Emits pool pool' offset instruction isKept code keeps ∧
      Leaves offset instruction code keeps state state' := by
  have h := runs_bind_getPool.mp h
  obtain ⟨effect, heffect, h⟩ := runs_bind_lift.mp h
  obtain ⟨output, houtput, h⟩ := runs_bind_lift.mp h
  have hhandles : decision.Handles pool offset instruction reduction effect :=
    ⟨hr, hs, hreduction, heffect⟩
  cases output with
  | none => exact replaceUnnecessary_spec isKept hhandles hn houtput (.inl ⟨rfl, rfl⟩) h
  | some value =>
    obtain ⟨placeholder, state₁, pool₁, hmap, hcontinue⟩ := runs_bind.mp h
    obtain ⟨push, hpush, rfl, rfl, rfl⟩ := runs_map_lift hmap
    exact replaceUnnecessary_spec isKept hhandles hn houtput
      (.inr ⟨value, push, rfl, hpush, rfl⟩) hcontinue

theorem discardOutput_spec {pushes : Nat}
    (h : Runs (decision.discardOutput offset pushes) state pool u state' pool') :
    pool = pool' ∧ (decision.discardingPop? offset pushes = none ∧
        Leaves offset instruction [instruction, popOf pushes] none state state' ∨
      ∃ next, decision.discardingPop? offset pushes = some next ∧
        Leaves offset instruction [instruction] (some next) state state') := by
  unfold discardOutput at h
  split at h
  · rename_i next hnext
    have h := runs_bind_get.mp h
    obtain ⟨kept, hkept, h⟩ := runs_bind_lift.mp h
    cases h
    refine ⟨rfl, .inr ⟨next, hnext, fun o _ => rfl, fun hkeep => ?_, fun o => ?_, rfl⟩⟩
    · show (state.edit.site offset).emitted instruction = _
      rw [hkeep, SiteEdit.emitted_keep]
    · show kept.contains o = true ↔ _
      rw [(IndexSet.add_eq_ok hkept).2.2]
      simp only [Bool.or_eq_true, decide_eq_true_eq, Option.some.injEq]
      exact ⟨fun h => h.symm.imp_right Eq.symm, fun h => h.symm.imp_left Eq.symm⟩
  · rename_i hnone
    obtain ⟨⟨⟩, state₁, pool₁, hedit, h⟩ := runs_bind.mp h
    have hedit : Runs (edit (·.modifySite offset fun site =>
      { site with after := site.after ++ [popOf pushes] })) state pool () state₁ pool₁ := hedit
    obtain ⟨hleaves, rfl⟩ := runs_modifySite instruction hedit rfl
    obtain ⟨hsame, rfl⟩ := runs_count h
    exact ⟨rfl, .inl ⟨hnone, hleaves.after hsame⟩⟩

theorem runs_countSelfJump (offset : Nat) (instruction : Instruction)
    (h : Runs (countSelfJump offset instruction) state pool u state' pool') :
    SameEdits state state' ∧ pool = pool' := by
  unfold countSelfJump at h
  split at h
  · obtain ⟨targets, -, h⟩ := runs_bind_lift.mp h
    split at h
    · exact runs_count h
    · obtain ⟨-, rfl, rfl⟩ := runs_pure.mp h
      exact ⟨⟨rfl, rfl⟩, rfl⟩
  · obtain ⟨-, rfl, rfl⟩ := runs_pure.mp h
    exact ⟨⟨rfl, rfl⟩, rfl⟩

theorem repairCall_spec {effect : StackEffect} (isKept : Bool)
    (hhandles : decision.Handles pool offset instruction none effect)
    (hn : decision.marks.necessary.contains offset = true)
    (houtput : decision.presentOutput offset effect.pushes = .ok none)
    (hcall : instruction.operation = .subroutine)
    (h : Runs (decision.repairCall offset instruction) state pool u state' pool') :
    pool = pool' ∧ ∃ code keeps, decision.Emits pool pool' offset instruction isKept code keeps ∧
      Leaves offset instruction code keeps state state' := by
  obtain ⟨targets, htargets, h⟩ := runs_bind_lift.mp h
  obtain ⟨target, htarget, h⟩ := runs_bind_lift.mp h
  rw [orDefect_eq_ok] at htarget
  dsimp only at h
  split at h
  · cases h
  · rename_i hreturns
    obtain ⟨hleaves, rfl⟩ := runs_edit_replace instruction h
    exact ⟨rfl, _, _, .call hhandles hn houtput hcall htargets htarget
      (Bool.eq_false_iff.mpr hreturns) rfl, hleaves⟩

theorem repairUnreduced_spec {effect : StackEffect} (isKept : Bool)
    (hhandles : decision.Handles pool offset instruction none effect)
    (hn : decision.marks.necessary.contains offset = true)
    (h : Runs (decision.repairUnreduced offset instruction effect) state pool u state' pool') :
    pool = pool' ∧ ∃ code keeps, decision.Emits pool pool' offset instruction isKept code keeps ∧
      Leaves offset instruction code keeps state state' := by
  obtain ⟨output, houtput, h⟩ := runs_bind_lift.mp h
  dsimp only at h
  split at h
  · rename_i hcall
    simp only [Bool.and_eq_true, decide_eq_true_eq, Option.isNone_iff_eq_none] at hcall
    obtain ⟨hcall, rfl⟩ := hcall
    obtain ⟨⟨⟩, state₁, pool₁, hrepair, h⟩ := runs_bind.mp h
    obtain ⟨hsame, rfl⟩ := runs_countSelfJump offset instruction h
    obtain ⟨rfl, code, keeps, hemits, hleaves⟩ :=
      repairCall_spec isKept hhandles hn houtput hcall hrepair
    exact ⟨rfl, code, keeps, hemits, hleaves.after hsame⟩
  · rename_i hcall
    split at h
    · rename_i hpushes
      simp only [Bool.and_eq_true, decide_eq_true_eq, Option.isNone_iff_eq_none] at hpushes
      obtain ⟨hpushes, rfl⟩ := hpushes
      have hcall : instruction.operation ≠ .subroutine := by simpa using hcall
      obtain ⟨⟨⟩, state₁, pool₁, hrepair, h⟩ := runs_bind.mp h
      obtain ⟨hsame, rfl⟩ := runs_countSelfJump offset instruction h
      obtain ⟨rfl, ⟨hnone, hleaves⟩ | ⟨next, hnext, hleaves⟩⟩ := discardOutput_spec hrepair
      · exact ⟨rfl, _, _, .discards hhandles hn houtput hcall hpushes hnone, hleaves.after hsame⟩
      · exact ⟨rfl, _, _, .keeps hhandles hn houtput hcall hpushes hnext, hleaves.after hsame⟩
    · rename_i hgives
      obtain ⟨hsame, rfl⟩ := runs_countSelfJump offset instruction h
      refine ⟨rfl, _, _, .stays hhandles hn houtput ?_, hsame.leaves⟩
      cases output with
      | none => exact .inl (by simpa using hgives)
      | some value => exact .inr rfl

/-- What is not found is appended. -/
theorem runs_findOrAdd {constant : Constant} {index : UInt16} :
    PoolM.Runs (ConstantPool.findOrAdd constant) pool index pool' ↔
      pool.find? constant = some index ∧ pool' = pool ∨
      pool.find? constant = none ∧ index = UInt16.ofNat pool.length ∧
        pool.length + constant.slots ≤ 65535 ∧ pool' = pool.append constant := by
  refine PoolM.runs_bind_get.trans ?_
  cases pool.find? constant with
  | some found => simp [PoolM.runs_pure, eq_comm]
  | none =>
    change (if pool.length + constant.slots > 65535 then (Except.error Failure.poolOverflow, pool)
      else (.ok (UInt16.ofNat pool.length), pool.append constant)) = _ ↔ _
    split
    · rename_i hfull
      simp [Nat.not_le.mpr hfull]
    · rename_i hroom
      simp [Nat.not_lt.mp hroom, eq_comm]

theorem length_append (pool : ConstantPool) (constant : Constant) :
    (pool.append constant).length = pool.length + constant.slots := by
  unfold ConstantPool.append ConstantPool.length Constant.slots
  split <;> simp

theorem extends_append {constant : Constant} (hlength : pool.length + constant.slots ≤ 65535) :
    pool.Extends (pool.append constant) := by
  have hpush (entries : Array (Option Constant)) (last : Option Constant) (index : Nat)
      (entry : Option Constant) (h : entries[index]? = some entry) :
      (entries.push last)[index]? = some entry := by
    rw [Array.getElem?_push, if_neg (Nat.ne_of_lt (Array.getElem?_eq_some_iff.mp h).1), h]
  refine ⟨fun index entry h => ?_, ?_⟩
  · unfold ConstantPool.append
    split
    · exact hpush _ _ _ _ (hpush _ _ _ _ h)
    · exact hpush _ _ _ _ h
  · rw [length_append]
    omega

/-- A push of a constant has a short form, or loads an entry that is found or appended. -/
theorem runs_constantPush {value : Value} {push : Instruction} :
    PoolM.Runs value.constantPush pool push pool' ↔
      value.shortPush? = some push ∧ pool' = pool ∨
      value.shortPush? = none ∧ ∃ constant index, value.entry? = some constant ∧
        PoolM.Runs (ConstantPool.findOrAdd constant) pool index pool' ∧
        push = Value.entryLoad constant index := by
  unfold Value.constantPush
  cases value.shortPush? with
  | some short => simp [PoolM.runs_pure, eq_comm]
  | none =>
    cases value.entry? with
    | some constant => simp [-bind_pure_comp, PoolM.runs_bind, PoolM.runs_pure, eq_comm]
    | none =>
      constructor
      · intro h
        cases h
      · rintro (⟨hshort, -⟩ | ⟨-, constant, index, hentry, -⟩)
        · cases hshort
        · cases hentry

/-- The constant pool entry of a push is at most appended. -/
theorem extends_of_constantPush {value : Value} {push : Instruction}
    (h : PoolM.Runs value.constantPush pool push pool') : pool.Extends pool' := by
  rcases runs_constantPush.mp h with ⟨-, rfl⟩ | ⟨-, constant, index, -, hfind, -⟩
  · exact .refl _
  · rcases runs_findOrAdd.mp hfind with ⟨-, rfl⟩ | ⟨-, -, hlength, rfl⟩
    · exact .refl _
    · exact extends_append hlength

theorem repairNecessary_spec {reduction : Option Reduction} (isKept : Bool)
    (hr : decision.marks.reachable.contains offset = true)
    (hs : instruction.isShuffle = false)
    (hreduction : decision.reductions[offset]? = some reduction)
    (hn : decision.marks.necessary.contains offset = true)
    (h : Runs (decision.repairNecessary offset instruction reduction) state pool u state' pool') :
    pool.Extends pool' ∧ ∃ code keeps,
      decision.Emits pool pool' offset instruction isKept code keeps ∧
        Leaves offset instruction code keeps state state' := by
  have h := runs_bind_getPool.mp h
  obtain ⟨effect, heffect, h⟩ := runs_bind_lift.mp h
  have hhandles : decision.Handles pool offset instruction reduction effect :=
    ⟨hr, hs, hreduction, heffect⟩
  split at h
  · obtain ⟨rfl, hemits⟩ := repairUnreduced_spec isKept hhandles hn h
    exact ⟨.refl _, hemits⟩
  · -- a constant
    rename_i value
    obtain ⟨pops, state₁, hpops, hsame, h⟩ := runs_bind_popInputs h
    obtain ⟨push, pool₁, hpush, h⟩ := runs_bind_liftPool.mp h
    obtain ⟨hleaves, rfl⟩ := runs_then_count (fun _ _ => runs_replace) h
    exact ⟨extends_of_constantPush hpush, _, _, .constant hhandles hn hpops hpush, hleaves.before hsame⟩
  · -- another load
    rename_i slot
    obtain ⟨⟨access, kind, index⟩, haccess, h⟩ := runs_bind_lift.mp h
    rw [orDefect_eq_ok] at haccess
    obtain ⟨hleaves, rfl⟩ := runs_then_count (fun _ _ => runs_edit_replace instruction) h
    exact ⟨.refl _, _, _, .alias hhandles hn haccess, hleaves⟩
  · -- a jump
    rename_i target
    obtain ⟨pops, state₁, hpops, hsame, h⟩ := runs_bind_popInputs h
    obtain ⟨displacement, hd, h⟩ := runs_bind_lift.mp h
    obtain ⟨hleaves, rfl⟩ := runs_edit_replace instruction h
    exact ⟨.refl _, _, _, .goto hhandles hn hpops hd, hleaves.before hsame⟩
  · -- an empty loop
    obtain ⟨pops, state₁, hpops, hsame, h⟩ := runs_bind_popInputs h
    obtain ⟨hleaves, rfl⟩ := runs_then_count (fun _ _ => runs_replace) h
    exact ⟨.refl _, _, _, .loop hhandles hn hpops, hleaves.before hsame⟩
  · -- nothing
    obtain ⟨pops, state₁, hpops, hsame, h⟩ := runs_bind_popInputs h
    obtain ⟨hleaves, rfl⟩ := runs_then_count (fun _ _ => runs_edit_replace instruction) h
    exact ⟨.refl _, _, _, .drop hhandles hn hpops, hleaves.before hsame⟩

theorem repairReached_spec {reduction : Option Reduction}
    (hr : decision.marks.reachable.contains offset = true)
    (hreduction : decision.reductions[offset]? = some reduction)
    (h : Runs (decision.repairReached offset instruction reduction) state pool u state' pool') :
    pool.Extends pool' ∧ ∃ code keeps, decision.Emits pool pool' offset instruction
      (state.keptPops.contains offset) code keeps ∧
      Leaves offset instruction code keeps state state' := by
  unfold repairReached at h
  split at h
  · rename_i hs
    obtain ⟨rfl, hemits⟩ := repairShuffle_spec hr hs h
    exact ⟨.refl _, hemits⟩
  · rename_i hs
    have hs : instruction.isShuffle = false := Bool.eq_false_iff.mpr hs
    split at h
    · rename_i hn
      exact repairNecessary_spec _ hr hs hreduction hn h
    · rename_i hn
      obtain ⟨rfl, hemits⟩ := repairUnnecessary_spec (state.keptPops.contains offset) hr hs
        hreduction (Bool.eq_false_iff.mpr hn) h
      exact ⟨.refl _, hemits⟩

/-- **The repair of one instruction** leaves what it emits and touches no other site. -/
theorem repairAt_spec
    (h : Runs (decision.repairAt offset instruction) state pool u state' pool') :
    pool.Extends pool' ∧ ∃ code keeps, decision.Emits pool pool' offset instruction
      (state.keptPops.contains offset) code keeps ∧
      Leaves offset instruction code keeps state state' := by
  unfold repairAt at h
  split at h
  · rename_i hr
    obtain ⟨hleaves, rfl⟩ := runs_then_count (fun _ _ => runs_edit_replace instruction) h
    exact ⟨.refl _, _, _, .unreachable (by simpa using hr), hleaves⟩
  · rename_i hr
    have hr : decision.marks.reachable.contains offset = true := by simpa using hr
    obtain ⟨reduction, hreduction, h⟩ := runs_bind_lift.mp h
    rw [Reductions.at, orFail_eq_ok] at hreduction
    dsimp only at h
    split at h
    · obtain ⟨state₁, hsame, h⟩ := runs_bind_count h
      obtain ⟨hextends, code, keeps, hemits, hleaves⟩ := repairReached_spec hr hreduction h
      rw [hsame.2] at hemits
      exact ⟨hextends, code, keeps, hemits, hleaves.before hsame⟩
    · exact repairReached_spec hr hreduction h

/-- A pop that discards just what the instruction in front of it gives. -/
theorem discardingPop?_eq_some {pushes next : Nat}
    (h : decision.discardingPop? offset pushes = some next) :
    next = decision.evaluation.nextOffset offset ∧ decision.marks.reachable.contains next = true ∧
      ∃ pop stack top, decision.evaluation.instruction? next = some pop ∧
        pop.opcode = (popOf pushes).opcode ∧
        decision.evaluation.stackBefore? next = some stack ∧ stack.peek? 0 = some top ∧
        top.producers.elements = [.ofInstruction offset] := by
  obtain ⟨pop, hpop, h⟩ := Option.bind_eq_some_iff.mp h
  obtain ⟨_, hguard, h⟩ := Option.bind_eq_some_iff.mp h
  obtain ⟨stack, hstack, h⟩ := Option.bind_eq_some_iff.mp h
  obtain ⟨top, htop, h⟩ := Option.bind_eq_some_iff.mp h
  obtain ⟨_, honly, h⟩ := Option.bind_eq_some_iff.mp h
  have hmatches := (Option.guard_eq_some' _).mp hguard
  rw [Bool.and_eq_true, decide_eq_true_eq] at hmatches
  have hnext : decision.evaluation.nextOffset offset = next := Option.some.inj h
  rw [hnext] at hpop hmatches hstack
  exact ⟨hnext.symm, hmatches.2, pop, stack, top, hpop, hmatches.1, hstack, htop,
    (Option.guard_eq_some' _).mp honly⟩

/-! ## The repair of a body -/

/-- Whether edits and kept pops are what the repair of an instruction leaves. -/
def Repaired (decision : Decision) (pool pool' : ConstantPool) (state : RepairState) (offset : Nat)
    (instruction : Instruction) : Prop :=
  ∃ before after keeps, pool.Extends before ∧ before.Extends after ∧ after.Extends pool' ∧
    decision.Emits before after offset instruction (state.keptPops.contains offset)
      ((state.edit.site offset).emitted instruction) keeps ∧
    ∀ next, keeps = some next → state.keptPops.contains next = true

/-- Whether a pop is kept for the instruction at some offset of a list. -/
def KeepsFor (decision : Decision) (pool : ConstantPool) (entries : List (Nat × Instruction))
    (next : Nat) : Prop :=
  ∃ entry ∈ entries, ∃ before after isKept code, pool.Extends before ∧
    decision.Emits before after entry.1 entry.2 isKept code (some next)

theorem lt_of_keepsFor {code : Code} {entries : List (Nat × Instruction)} {next : Nat}
    (hlisting : Listing.ofCode code.bytes = .ok decision.evaluation.listing)
    (hentries : ∀ entry ∈ entries, entry ∈ decision.evaluation.instructions)
    (h : decision.KeepsFor pool entries next) : ∃ entry ∈ entries, entry.1 < next := by
  obtain ⟨entry, hmem, before, after, isKept, code, -, hemits⟩ := h
  refine ⟨entry, hmem, ?_⟩
  have hget := (Listing.get?_eq_some_iff hlisting).mpr (hentries entry hmem)
  cases hemits with
  | keeps _ _ _ _ _ hpop =>
    rw [(discardingPop?_eq_some hpop).1]
    exact Listing.lt_nextOffset hget

theorem repaired_of_forM {code : Code} {entries : List (Nat × Instruction)}
    (hlisting : Listing.ofCode code.bytes = .ok decision.evaluation.listing)
    (hentries : ∀ entry ∈ entries, entry ∈ decision.evaluation.instructions)
    (hpair : entries.Pairwise fun a b => a.1 < b.1)
    (hkeep : ∀ entry ∈ entries, state.edit.site entry.1 = .keep)
    (h : Runs (entries.forM fun (offset, instruction) => decision.repairAt offset instruction)
      state pool u state' pool') :
    pool.Extends pool' ∧
      (∀ o, (∀ entry ∈ entries, entry.1 ≠ o) → state'.edit.site o = state.edit.site o) ∧
      (∀ entry ∈ entries, decision.Repaired pool pool' state' entry.1 entry.2) ∧
      (∀ o, state.keptPops.contains o = true → state'.keptPops.contains o = true) ∧
      ∀ o, state'.keptPops.contains o = true →
        state.keptPops.contains o = true ∨ decision.KeepsFor pool entries o := by
  induction entries generalizing state pool with
  | nil =>
    obtain ⟨-, rfl, rfl⟩ := runs_pure.mp h
    exact ⟨.refl _, fun _ _ => rfl, by simp, fun _ ho => ho, fun _ ho => .inl ho⟩
  | cons head tail ih =>
    obtain ⟨⟨⟩, middle, between, hhead, htail⟩ := runs_bind.mp h
    obtain ⟨hext, code, keeps, hemits, hleaves⟩ := repairAt_spec hhead
    rw [List.pairwise_cons] at hpair
    have hne (entry : Nat × Instruction) (he : entry ∈ tail) : entry.1 ≠ head.1 :=
      Nat.ne_of_gt (hpair.1 entry he)
    obtain ⟨hext', hothers, hrepaired, hkept, hfrom⟩ := ih
      (fun entry he => hentries entry (List.mem_cons_of_mem _ he)) hpair.2 (fun entry he => by
        rw [hleaves.others entry.1 (hne entry he)]
        exact hkeep entry (List.mem_cons_of_mem _ he)) htail
    have hkeeps {next : Nat} (hk : keeps = some next) : decision.KeepsFor pool [head] next :=
      ⟨head, List.mem_singleton_self _, pool, between, _, code, .refl _, hk ▸ hemits⟩
    have hsame : state'.keptPops.contains head.1 = state.keptPops.contains head.1 := by
      refine Bool.eq_iff_iff.mpr ⟨fun hc => ?_, fun hc => hkept _ ((hleaves.keptPops _).mpr (.inl hc))⟩
      rcases hfrom head.1 hc with hc | hc
      · refine ((hleaves.keptPops _).mp hc).resolve_right fun hk => ?_
        obtain ⟨entry, he, hlt⟩ := lt_of_keepsFor hlisting (by
          intro entry he
          rw [List.mem_singleton.mp he]
          exact hentries head List.mem_cons_self) (hkeeps hk)
        rw [List.mem_singleton.mp he] at hlt
        exact absurd hlt (Nat.lt_irrefl _)
      · obtain ⟨entry, he, hlt⟩ := lt_of_keepsFor hlisting
          (fun entry he => hentries entry (List.mem_cons_of_mem _ he)) hc
        exact absurd hlt (Nat.not_lt.mpr (Nat.le_of_lt (hpair.1 entry he)))
    refine ⟨hext.trans hext', fun o ho => ?_, fun entry he => ?_, fun o ho => ?_, fun o ho => ?_⟩
    · rw [hothers o fun entry he => ho entry (List.mem_cons_of_mem _ he)]
      exact hleaves.others o fun he => ho head List.mem_cons_self he.symm
    · rcases List.mem_cons.mp he with rfl | he
      · refine ⟨pool, between, keeps, .refl _, hext, hext', ?_, fun next hk => ?_⟩
        · rw [hsame, hothers entry.1 hne, hleaves.emitted (hkeep entry List.mem_cons_self)]
          exact hemits
        · exact hkept next ((hleaves.keptPops next).mpr (.inr hk))
      · obtain ⟨before, after, keeps', hb, hba, ha, hrest⟩ := hrepaired entry he
        exact ⟨before, after, keeps', hext.trans hb, hba, ha, hrest⟩
    · exact hkept o ((hleaves.keptPops o).mpr (.inl ho))
    · rcases hfrom o ho with hc | ⟨entry, he, old, new, isKept, code', hold, hrest⟩
      · rcases (hleaves.keptPops o).mp hc with hc | hk
        · exact .inl hc
        · obtain ⟨entry, he, hrest⟩ := hkeeps hk
          rw [List.mem_singleton.mp he] at hrest
          exact .inr ⟨head, List.mem_cons_self, hrest⟩
      · exact .inr ⟨entry, List.mem_cons_of_mem _ he, old, new, isKept, code', hext.trans hold,
          hrest⟩

theorem runs_removeHandlers {entries : List (Bool × Nat)}
    (h : Runs (entries.forM fun (live, index) =>
      if live then pure () else edit (·.removeHandler index)) state pool u state' pool') :
    (∀ o, state'.edit.site o = state.edit.site o) ∧ state'.keptPops = state.keptPops ∧
      pool = pool' ∧ ∀ index ∈ state'.edit.removedHandlers,
        index ∈ state.edit.removedHandlers ∨ (false, index) ∈ entries := by
  induction entries generalizing state pool with
  | nil =>
    obtain ⟨-, rfl, rfl⟩ := runs_pure.mp h
    exact ⟨fun _ => rfl, rfl, rfl, fun _ => .inl⟩
  | cons head tail ih =>
    obtain ⟨⟨⟩, middle, between, hhead, htail⟩ := runs_bind.mp h
    have hstep : (∀ o, middle.edit.site o = state.edit.site o) ∧
        middle.keptPops = state.keptPops ∧ pool = between ∧
        ∀ index ∈ middle.edit.removedHandlers,
          index ∈ state.edit.removedHandlers ∨ (false, index) = head := by
      obtain ⟨live, index⟩ := head
      dsimp only at hhead
      split at hhead
      · obtain ⟨-, rfl, rfl⟩ := runs_pure.mp hhead
        exact ⟨fun _ => rfl, rfl, rfl, fun _ => .inl⟩
      · rename_i hdead
        cases hhead
        refine ⟨fun o => ?_, rfl, rfl, fun index' hmem => ?_⟩
        · show (state.edit.removeHandler index).site o = _
          unfold Edit.removeHandler
          split <;> rfl
        · change index' ∈ (state.edit.removeHandler index).removedHandlers at hmem
          unfold Edit.removeHandler at hmem
          split at hmem
          · exact .inl hmem
          · refine (List.mem_append.mp hmem).imp_right fun hmem => ?_
            rw [List.mem_singleton.mp hmem, Bool.eq_false_iff.mpr hdead]
    obtain ⟨hsites, hkept, rfl, hremoved⟩ := ih htail
    refine ⟨fun o => (hsites o).trans (hstep.1 o), hkept.trans hstep.2.1, hstep.2.2.1,
      fun index hmem => ?_⟩
    rcases hremoved index hmem with hmem | hmem
    · exact (hstep.2.2.2 index hmem).imp_right fun heq => List.mem_cons.mpr (.inl heq)
    · exact .inr (List.mem_cons_of_mem _ hmem)

/-- The repair of instructions removes no handlers. -/
theorem removed_of_forM {entries : List (Nat × Instruction)}
    (h : Runs (entries.forM fun (offset, instruction) => decision.repairAt offset instruction)
      state pool u state' pool') :
    state'.edit.removedHandlers = state.edit.removedHandlers := by
  induction entries generalizing state pool with
  | nil =>
    obtain ⟨-, rfl, rfl⟩ := runs_pure.mp h
    rfl
  | cons head tail ih =>
    obtain ⟨⟨⟩, middle, between, hhead, htail⟩ := runs_bind.mp h
    obtain ⟨-, code, keeps, -, hleaves⟩ := repairAt_spec hhead
    exact (ih htail).trans hleaves.removed

/-- **The repair of a body removes the handlers that are not live.** -/
theorem removed_of_repairAll {size : Nat} {kept : IndexSet}
    (h : Runs decision.repairAll ⟨Edit.ofSize size, {}, kept⟩ pool u state pool') :
    ∀ index ∈ state.edit.removedHandlers, decision.marks.liveHandlers[index]? = some false := by
  obtain ⟨⟨⟩, middle, between, hinstructions, hhandlers⟩ := runs_bind.mp h
  intro index hmem
  rcases (runs_removeHandlers hhandlers).2.2.2 index hmem with hmem | hmem
  · rw [removed_of_forM hinstructions] at hmem
    cases hmem
  · exact List.mk_mem_zipIdx_iff_getElem?.mp hmem

/-- **The repair of a body** leaves for every instruction what it emits, and every pop that is kept
is kept for an instruction. -/
theorem repaired_of_repairAll {code : Code}
    (hlisting : Listing.ofCode code.bytes = .ok decision.evaluation.listing)
    (h : Runs decision.repairAll ⟨Edit.ofSize decision.evaluation.size, {},
      IndexSet.ofCapacity decision.evaluation.size⟩ pool u state pool') :
    pool.Extends pool' ∧
      (∀ offset instruction, decision.evaluation.instruction? offset = some instruction →
        decision.Repaired pool pool' state offset instruction) ∧
      ∀ o, state.keptPops.contains o = true →
        decision.KeepsFor pool decision.evaluation.instructions o := by
  obtain ⟨⟨⟩, middle, between, hinstructions, hhandlers⟩ := runs_bind.mp h
  obtain ⟨hext, -, hrepaired, -, hfrom⟩ := repaired_of_forM hlisting (fun _ he => he)
    (ascending_of_decodeAll (Listing.ofCode_eq_ok hlisting).1) (fun _ _ => rfl) hinstructions
  obtain ⟨hsites, hkept, rfl, -⟩ := runs_removeHandlers hhandlers
  refine ⟨hext, fun offset instruction hi => ?_, fun o ho => ?_⟩
  · obtain ⟨before, after, keeps, hb, hba, ha, hemits, hkeeps⟩ :=
      hrepaired (offset, instruction) ((Listing.get?_eq_some_iff hlisting).mp hi)
    refine ⟨before, after, keeps, hb, hba, ha, ?_, fun next hk => ?_⟩
    · rw [hsites, hkept]
      exact hemits
    · rw [hkept]
      exact hkeeps next hk
  · rw [hkept] at ho
    exact (hfrom o ho).resolve_left (by simp)

end Decision

end JvmTrim
