import JvmTrim.Proofs.FrameAccess

/-!
# How control leaves an instruction

Executing an instruction ends in one of eight ways: a branch, a jump, a switch on a known key or on
any, a call or a return of a subroutine, a call of a method, and whatever else goes on with the next
instruction or ends the method. What an instruction can do is read off these eight ways, so that
nothing that follows opens the definition of its execution again.

## Main definitions

* `Context.branchSuccessors`: where a conditional branch goes on
* `Context.Executed`: what an instruction has done, by the way that control leaves it

## Main results

* `Context.executed_of_execute`: there are no other ways
* `Context.successors_of_sequential`: where control goes on if it can do so in one place only
* `Context.initializer_of_event`: only calls of initializers tell of an initialization
-/

namespace JvmTrim

theorem Instruction.fallsThrough_of_sequential {instruction : Instruction}
    (hflow : instruction.flow = .sequential) : instruction.fallsThrough = true := by
  unfold fallsThrough
  rw [hflow]

theorem Instruction.fallsThrough_of_conditional {instruction : Instruction}
    (hflow : instruction.flow = .conditional) : instruction.fallsThrough = true := by
  unfold fallsThrough
  rw [hflow]

namespace Context

/-- Where a conditional branch goes on, for what is known of its outcome. -/
def branchSuccessors (target next : Nat) : Option Bool → List Nat
  | some true => [target]
  | some false => [next]
  | none => if target = next then [next] else [target, next]

theorem mem_branchSuccessors {target next successor : Nat} {decision : Option Bool}
    (h : successor ∈ branchSuccessors target next decision) :
    successor = target ∨ successor = next := by
  unfold branchSuccessors at h
  split at h
  · exact .inl (List.mem_singleton.mp h)
  · exact .inr (List.mem_singleton.mp h)
  · split at h
    · exact .inr (List.mem_singleton.mp h)
    · exact List.mem_pair.mp h

theorem mem_branchSuccessors_none (target next : Nat) :
    target ∈ branchSuccessors target next none ∧ next ∈ branchSuccessors target next none := by
  change target ∈ (if target = next then [next] else [target, next]) ∧
    next ∈ (if target = next then [next] else [target, next])
  split <;> simp_all

/-- What executing the instruction at `offset` has done, by the way that control leaves it. -/
inductive Executed (context : Context) (offset next : Nat) (instruction : Instruction)
    (frame : Frame) : Step → Prop
  | branch {decision : Option Bool} {target : Nat} {after : Frame}
      (hflow : instruction.flow = .conditional)
      (hcondition : condition instruction.operation frame = .ok (decision, after))
      (htarget : firstTarget offset instruction (.missingTarget offset) = .ok target) :
      Executed context offset next instruction frame
        ⟨⟨branchSuccessors target next decision, none⟩, after⟩
  | jump {targets : List Nat} (hop : instruction.operation = .jump)
      (htargets : instruction.branchTargets offset = .ok targets) :
      Executed context offset next instruction frame ⟨⟨targets, none⟩, frame⟩
  | chosen {value : Value} {key : Int32} {targets : List Nat} {target : Nat} {after : Frame}
      (hop : instruction.operation = .switch)
      (hpop : Transfer.popKind .int frame = .ok (value, after))
      (hkey : value.expectInt = .ok (some key))
      (htargets : instruction.branchTargets offset = .ok targets)
      (hchosen : switchTarget instruction.operand targets key = .ok target) :
      Executed context offset next instruction frame ⟨⟨[target], none⟩, after⟩
  | switch {value : Value} {targets : List Nat} {after : Frame}
      (hop : instruction.operation = .switch)
      (hpop : Transfer.popKind .int frame = .ok (value, after))
      (hkey : value.expectInt = .ok none)
      (htargets : instruction.branchTargets offset = .ok targets) :
      Executed context offset next instruction frame ⟨⟨ascending targets, none⟩, after⟩
  | subroutine {target : Nat} {after : Frame} (hop : instruction.operation = .subroutine)
      (htarget : firstTarget offset instruction (.missingSubroutine offset) = .ok target)
      (hpush : Transfer.push offset (.returnAddress (OffsetSet.single next)) frame =
        .ok ((), after)) :
      Executed context offset next instruction frame ⟨⟨[target], some (.call target next)⟩, after⟩
  | ret {slot : UInt16} {value : Value} {offsets : OffsetSet} {after : Frame}
      (hop : instruction.operation = .ret) (hslot : instruction.slot? = some slot)
      (hload : Transfer.load slot frame = .ok (value, after))
      (hoffsets : value.returnAddresses? = some offsets) :
      Executed context offset next instruction frame
        ⟨⟨offsets.elements, some (.return offsets)⟩, after⟩
  | call {mode : Invocation} {event : Option Event} {after : Frame}
      (hop : instruction.operation = .invoke mode)
      (hinvoke : context.invoke offset mode instruction frame = .ok (event, after)) :
      Executed context offset next instruction frame ⟨⟨[next], event⟩, after⟩
  | performs {after : Frame}
      (hflow : instruction.flow = .sequential ∨ instruction.flow = .return ∨
        instruction.flow = .throw)
      (hcall : ∀ mode, instruction.operation ≠ .invoke mode)
      (hperform : context.perform offset instruction frame = .ok ((), after)) :
      Executed context offset next instruction frame
        ⟨⟨if instruction.fallsThrough then [next] else [], none⟩, after⟩

variable {context : Context} {offset next : Nat} {instruction : Instruction} {frame : Frame}
  {step : Step}

/-- **There is no other way that control leaves an instruction.** -/
theorem executed_of_execute (h : context.execute offset next instruction frame = .ok step) :
    context.Executed offset next instruction frame step := by
  obtain ⟨⟨exit, after⟩, hrun, hstep⟩ := Except.bind_eq_ok.mp h
  cases hstep
  unfold run at hrun
  cases hop : instruction.operation
  all_goals simp only [hop] at hrun
  case branchZero | branchInt | branchReference | branchNull =>
    obtain ⟨decision, after, hcondition, hrest⟩ := StateT.bind_eq_ok.mp hrun
    obtain ⟨target, _, hlift, hend⟩ := StateT.bind_eq_ok.mp hrest
    obtain ⟨htarget, rfl⟩ := StateT.liftM_eq_ok.mp hlift
    obtain ⟨rfl, rfl⟩ := StateT.pure_eq_ok.mp hend
    have hbranch : context.Executed offset next instruction frame
        ⟨⟨branchSuccessors target next decision, none⟩, after⟩ :=
      .branch (congrArg Operation.flow hop) (hop ▸ hcondition) htarget
    rcases decision with _ | _ | _ <;> exact hbranch
  case jump =>
    obtain ⟨targets, _, hlift, hend⟩ := StateT.bind_eq_ok.mp hrun
    obtain ⟨htargets, rfl⟩ := StateT.liftM_eq_ok.mp hlift
    obtain ⟨rfl, rfl⟩ := StateT.pure_eq_ok.mp hend
    exact .jump hop htargets
  case switch =>
    obtain ⟨value, middle, hpop, hrest⟩ := StateT.bind_eq_ok.mp hrun
    obtain ⟨key, _, hlift, hrest'⟩ := StateT.bind_eq_ok.mp hrest
    obtain ⟨hkey, rfl⟩ := StateT.liftM_eq_ok.mp hlift
    obtain ⟨targets, _, hlift', hend⟩ := StateT.bind_eq_ok.mp hrest'
    obtain ⟨htargets, rfl⟩ := StateT.liftM_eq_ok.mp hlift'
    cases key with
    | some key =>
      obtain ⟨chosen, _, hlift'', hlast⟩ := StateT.bind_eq_ok.mp hend
      obtain ⟨hchosen, rfl⟩ := StateT.liftM_eq_ok.mp hlift''
      obtain ⟨rfl, rfl⟩ := StateT.pure_eq_ok.mp hlast
      exact .chosen hop hpop hkey htargets hchosen
    | none =>
      obtain ⟨rfl, rfl⟩ := StateT.pure_eq_ok.mp hend
      exact .switch hop hpop hkey htargets
  case subroutine =>
    obtain ⟨target, _, hlift, hrest⟩ := StateT.bind_eq_ok.mp hrun
    obtain ⟨htarget, rfl⟩ := StateT.liftM_eq_ok.mp hlift
    obtain ⟨_, middle, hpush, hend⟩ := StateT.bind_eq_ok.mp hrest
    obtain ⟨rfl, rfl⟩ := StateT.pure_eq_ok.mp hend
    exact .subroutine hop htarget hpush
  case ret =>
    obtain ⟨slot, _, hlift, hrest⟩ := StateT.bind_eq_ok.mp hrun
    obtain ⟨hslot, rfl⟩ := StateT.liftM_eq_ok.mp hlift
    obtain ⟨value, middle, hload, hrest'⟩ := StateT.bind_eq_ok.mp hrest
    obtain ⟨offsets, _, hlift', hend⟩ := StateT.bind_eq_ok.mp hrest'
    obtain ⟨hoffsets, rfl⟩ := StateT.liftM_eq_ok.mp hlift'
    obtain ⟨rfl, rfl⟩ := StateT.pure_eq_ok.mp hend
    exact .ret hop ((orDefect_eq_ok ..).mp hslot) hload ((orDefect_eq_ok ..).mp hoffsets)
  case invoke mode =>
    obtain ⟨event, middle, hinvoke, hend⟩ := StateT.bind_eq_ok.mp hrun
    obtain ⟨rfl, rfl⟩ := StateT.pure_eq_ok.mp hend
    exact .call hop hinvoke
  all_goals
    obtain ⟨_, middle, hperform, hend⟩ := StateT.bind_eq_ok.mp hrun
    obtain ⟨rfl, rfl⟩ := StateT.pure_eq_ok.mp hend
    refine .performs ?_ (fun mode hcall => by cases hop.symm.trans hcall) hperform
    rw [Instruction.flow, hop]
    simp [Operation.flow]

/-- A conditional branch pops the operands of its condition and goes on as that is decided. -/
theorem branch_of_execute (h : context.execute offset next instruction frame = .ok step)
    (hflow : instruction.flow = .conditional) : ∃ decision target,
      condition instruction.operation frame = .ok (decision, step.frame) ∧
        firstTarget offset instruction (.missingTarget offset) = .ok target ∧
          step.successors = branchSuccessors target next decision := by
  cases executed_of_execute h with
  | branch _ hcondition htarget => exact ⟨_, _, hcondition, htarget, rfl⟩
  | performs hflow' => rcases hflow' with hf | hf | hf <;> cases hflow.symm.trans hf
  | jump hop | chosen hop | switch hop | subroutine hop | ret hop | call hop =>
    cases hflow.symm.trans (congrArg Operation.flow hop)

/-- A switch pops its key and goes on at the target for it, or at any if the key is not known. -/
theorem switch_of_execute (h : context.execute offset next instruction frame = .ok step)
    (hflow : instruction.flow = .switch) : ∃ value key targets,
      Transfer.popKind .int frame = .ok (value, step.frame) ∧ value.expectInt = .ok key ∧
        instruction.branchTargets offset = .ok targets ∧
          (key = none ∧ step.successors = ascending targets ∨ ∃ number target, key = some number ∧
            switchTarget instruction.operand targets number = .ok target ∧
              step.successors = [target]) := by
  cases executed_of_execute h with
  | chosen _ hpop hkey htargets hchosen =>
    exact ⟨_, _, _, hpop, hkey, htargets, .inr ⟨_, _, rfl, hchosen, rfl⟩⟩
  | switch _ hpop hkey htargets => exact ⟨_, _, _, hpop, hkey, htargets, .inl ⟨rfl, rfl⟩⟩
  | branch hflow' => cases hflow.symm.trans hflow'
  | performs hflow' => rcases hflow' with hf | hf | hf <;> cases hflow.symm.trans hf
  | jump hop | subroutine hop | ret hop | call hop =>
    cases hflow.symm.trans (congrArg Operation.flow hop)

/-- An instruction that goes on with the next one is performed, calls of methods apart. -/
theorem perform_of_execute (h : context.execute offset next instruction frame = .ok step)
    (hflow : instruction.flow = .sequential)
    (hcall : ∀ mode, instruction.operation ≠ .invoke mode) :
    context.perform offset instruction frame = .ok ((), step.frame) := by
  cases executed_of_execute h with
  | performs _ _ hperform => exact hperform
  | call hop => exact absurd hop (hcall _)
  | branch hflow' => cases hflow.symm.trans hflow'
  | jump hop | chosen hop | switch hop | subroutine hop | ret hop =>
    cases hflow.symm.trans (congrArg Operation.flow hop)

theorem invoke_of_execute {mode : Invocation}
    (h : context.execute offset next instruction frame = .ok step)
    (hop : instruction.operation = .invoke mode) :
    context.invoke offset mode instruction frame = .ok (step.event, step.frame) := by
  cases executed_of_execute h with
  | call hop' hinvoke =>
    cases hop.symm.trans hop'
    exact hinvoke
  | performs _ hcall => exact absurd hop (hcall mode)
  | branch hflow => cases (congrArg Operation.flow hop).symm.trans hflow
  | jump hop' | chosen hop' | switch hop' | subroutine hop' | ret hop' =>
    cases hop.symm.trans hop'

/-- A jump leads to its targets and does nothing else. -/
theorem jump_of_execute (h : context.execute offset next instruction frame = .ok step)
    (hop : instruction.operation = .jump) :
    instruction.branchTargets offset = .ok step.successors ∧ step.frame = frame := by
  have hflow : instruction.flow = .unconditional := congrArg Operation.flow hop
  cases executed_of_execute h with
  | jump _ htargets => exact ⟨htargets, rfl⟩
  | performs hflow' => rcases hflow' with hf | hf | hf <;> cases hflow.symm.trans hf
  | branch hflow' => cases hflow.symm.trans hflow'
  | chosen hop' | switch hop' | subroutine hop' | ret hop' | call hop' =>
    cases hop.symm.trans hop'

/-- **An instruction that goes on with the next one** goes nowhere else. -/
theorem successors_of_sequential
    (h : context.execute offset next instruction frame = .ok step)
    (hflow : instruction.flow = .sequential) : step.successors = [next] := by
  cases executed_of_execute h with
  | performs => simp only [Instruction.fallsThrough_of_sequential hflow, if_true]
  | call => rfl
  | branch hflow' => cases hflow.symm.trans hflow'
  | jump hop | chosen hop | switch hop | subroutine hop | ret hop =>
    cases hflow.symm.trans (congrArg Operation.flow hop)

/-- A subroutine that is called is where control goes. -/
theorem mem_successors_of_call {target back : Nat}
    (h : context.execute offset next instruction frame = .ok step)
    (hevent : step.event = some (.call target back)) : target ∈ step.successors := by
  cases executed_of_execute h with
  | subroutine =>
    cases hevent
    exact List.mem_singleton_self _
  | call _ hinvoke =>
    obtain ⟨_, _, _, _, -, -, -, htaken, -⟩ := invoke_eq_ok hinvoke
    rcases takeReceiver_eq_ok htaken with ⟨_, -, htold⟩ | ⟨-, htold⟩
    · cases (Option.ite_none_right_eq_some.mp (htold.symm.trans hevent)).2
    · cases htold.symm.trans hevent
  | _ => cases hevent

/-- **Only calls of initializers** tell of an initialization. -/
theorem initializer_of_event {receiver : Option Symbol}
    (h : context.execute offset next instruction frame = .ok step)
    (hevent : step.event = some (.initialization receiver)) :
    ∃ member, instruction.operation = .invoke .special ∧
      instruction.member context.pool = .ok member ∧ member.isInitializer = true := by
  cases executed_of_execute h with
  | call hop hinvoke =>
    obtain ⟨_, member, _, _, -, hmember, -, htaken, -⟩ := invoke_eq_ok hinvoke
    rcases takeReceiver_eq_ok htaken with ⟨_, -, htold⟩ | ⟨-, htold⟩
    · obtain ⟨⟨rfl, hinitializer⟩, -⟩ :=
        Option.ite_none_right_eq_some.mp (htold.symm.trans hevent)
      obtain ⟨found, hfound, rfl⟩ := hmember (by decide)
      exact ⟨found, hop, hfound, hinitializer⟩
    · cases hevent.symm.trans htold
  | _ => cases hevent

end Context

end JvmTrim
