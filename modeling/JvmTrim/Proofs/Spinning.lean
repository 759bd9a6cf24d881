import JvmTrim.Proofs.OpenBranches
import JvmTrim.Proofs.Reachability

/-!
# Loops without a way out stay

Code that only computes, from which control gets to nothing else, never ends. When it is simplified,
hardly any of it is necessary, and a loop of which nothing were left would vanish: control would fall
through to whatever stands behind it. So a jump back is kept if nothing is left of what it jumps over
and control cannot leave that. This is decided for one jump after the other, by the addresses between
a jump and its target. A loop that is closed by several branches may not be recognized, and then
nothing is left of it.

Code spins if every path in it comes to something necessary, or to a jump back that control does not
get around. Then the simplified code only computes as well, and control never gets out of it.

The argument follows control through the simplified code from piece to piece. A piece that control
falls through ends where some successor of its instruction has moved to. For an unnecessary branch
this needs a successor behind it: a branch that only leads back is deleted with all that it jumps
over, but then no path from it comes to anything that stays.

## Main definitions

* `Proceeds`: where control goes in a body, whatever its variables hold
* `Operation.isSilent`: operations that only compute
* `Decision.ClosesLoop`: a jump back that control does not get around
* `Decision.Spins`: code that only computes and comes to something that stays

## Main results

* `MethodContext.Ruled.necessary_of_closesLoop`: a jump back that closes a loop stays
* `MethodContext.Carried.exists_forward`: control does not only go back from what leaves code
* `MethodContext.simplify_keeps_spinning`: spinning code stays spinning
* `simplify_restlessLoop`: a loop closed by several branches may be simplified to nothing
-/

namespace JvmTrim

open Edit (moved)

open Relation (ReflTransGen)

/-! ## Operations that only compute -/

/-- Whether control may go from one position of a body to another, along a branch or to the next
instruction. Subroutines, returns and throws are not followed. -/
inductive Proceeds (body : List (Nat × Instruction)) : Nat → Nat → Prop where
  | branch {position target : Nat} {instruction : Instruction} {targets : List Nat}
      (hlookup : body.lookup position = some instruction)
      (hflow : instruction.flow = .conditional ∨ instruction.flow = .unconditional ∨
        instruction.flow = .switch)
      (htargets : instruction.branchTargets position = .ok targets) (hmem : target ∈ targets) :
      Proceeds body position target
  | next {position : Nat} {instruction : Instruction}
      (hlookup : body.lookup position = some instruction)
      (hfalls : instruction.fallsThrough = true) :
      Proceeds body position (position + instruction.length position)

/-- Whether an operation neither returns nor throws and touches nothing but variables and the stack:
constants, loads, stores, counts, arithmetic without integer division, stack manipulations, branches
and switches. -/
def Operation.isSilent : Operation → Bool
  | .arithmetic .div .int | .arithmetic .rem .int
  | .arithmetic .div .long | .arithmetic .rem .long => false
  | .nop | .pushNull | .pushInt _ | .pushLong _ | .pushFloat _ | .pushDouble _ | .pushImmediate
  | .loadConstant _ | .load .. | .store .. | .shuffle _ | .arithmetic .. | .negate _ | .shift ..
  | .bitwise .. | .increment | .convert .. | .narrow _ | .compareLong | .compareFloating ..
  | .branchZero _ | .branchInt _ | .branchReference _ | .branchNull _ | .jump | .switch => true
  | _ => false

namespace Instruction

variable {instruction : Instruction}

theorem usesSubroutine_of_isSilent (h : instruction.operation.isSilent = true) :
    instruction.usesSubroutine = false := by
  unfold usesSubroutine
  cases hop : instruction.operation
  case subroutine | ret =>
    rw [hop] at h
    cases h
  all_goals rfl

theorem goesOn_of_isSilent (h : instruction.operation.isSilent = true) :
    instruction.flow ≠ .return ∧ instruction.flow ≠ .throw := by
  unfold flow
  cases hop : instruction.operation
  case returnValue | returnVoid | raise =>
    rw [hop] at h
    cases h
  all_goals exact ⟨nofun, nofun⟩

theorem isSilent_ofShuffle (move : Shuffle) :
    (Instruction.simple (Opcode.ofShuffle move)).operation.isSilent = true := by
  rw [operation_ofShuffle]
  rfl

theorem isSilent_load (kind : Kind) (index : UInt16) :
    (Instruction.load kind index).operation.isSilent = true := by
  have haccess := localAccess?_load kind index
  unfold localAccess? at haccess
  split at haccess
  · rename_i hop
    rw [hop]
    rfl
  · cases haccess
  · cases haccess

theorem Gives.isSilent {pool : ConstantPool} {value : Value} (h : instruction.Gives pool value) :
    instruction.operation.isSilent = true := by
  cases h with
  | null hop | int hop | long hop | float hop | double hop | byte hop | short hop
  | entry _ hop =>
    rw [hop]
    rfl

end Instruction

namespace Decision

variable {decision : Decision} {offset : Nat} {instruction emitted : Instruction}

/-- **What is emitted for an instruction without subroutines**: the instruction itself, other
instructions that only compute and go on with the next one, and the jump that it is reduced to. -/
theorem Emits.mem_cases {old new : ConstantPool} {isKept : Bool} {code : List Instruction}
    {keeps : Option Nat} (h : decision.Emits old new offset instruction isKept code keeps)
    (havoids : instruction.usesSubroutine = false) (hmem : emitted ∈ code) :
    emitted = instruction ∧
        (instruction.flow = .sequential ∨ decision.reductions[offset]? = some none) ∨
      emitted.operation.isSilent = true ∧ emitted.flow = .sequential ∨
      ∃ displacement, emitted = .branch Opcode.goto displacement ∧
        (displacement = 0 ∧ decision.reductions[offset]? = some (some .loop) ∨
          ∃ target, decision.reductions[offset]? = some (some (.goto target)) ∧
            displacementTo offset target = .ok displacement) := by
  have hshuffle (move : Shuffle) :
      (Instruction.simple (Opcode.ofShuffle move)).operation.isSilent = true ∧
        (Instruction.simple (Opcode.ofShuffle move)).flow = .sequential :=
    ⟨Instruction.isSilent_ofShuffle move, congrArg Operation.flow (operation_ofShuffle move)⟩
  have hpops {count : Nat} {pops : List Instruction}
      (hp : decision.inputPops offset count = .ok pops) (hmem : emitted ∈ pops) :
      emitted.operation.isSilent = true ∧ emitted.flow = .sequential := by
    obtain ⟨words, rfl⟩ := eq_popOf_of_mem_inputPops hp hmem
    exact popOf_eq words ▸ hshuffle _
  cases h with
  | unreachable => cases hmem
  | keptPop _ hs =>
    exact .inl ⟨List.mem_singleton.mp hmem, .inl (Instruction.flow_of_isShuffle hs)⟩
  | shuffle =>
    obtain ⟨move, -, rfl⟩ := List.mem_map.mp hmem
    exact .inr (.inl (hshuffle move))
  | stays hhandles | keeps hhandles =>
    exact .inl ⟨List.mem_singleton.mp hmem, .inr hhandles.reduction⟩
  | call _ _ _ hcall => exact absurd hcall (Instruction.operation_ne_subroutine havoids)
  | discards hhandles =>
    rcases List.mem_pair.mp hmem with rfl | rfl
    · exact .inl ⟨rfl, .inr hhandles.reduction⟩
    · exact .inr (.inl (popOf_eq _ ▸ hshuffle _))
  | constant _ _ hp hv =>
    rcases List.mem_append.mp hmem with hmem | hmem
    · exact .inr (.inl (hpops hp hmem))
    · obtain rfl := List.mem_singleton.mp hmem
      exact .inr (.inl ⟨(gives_of_constantPush hv).isSilent, (gives_of_constantPush hv).flow_eq⟩)
  | «alias» =>
    obtain rfl := List.mem_singleton.mp hmem
    exact .inr (.inl ⟨Instruction.isSilent_load _ _, Instruction.flow_load _ _⟩)
  | goto hhandles _ hp hd =>
    rcases List.mem_append.mp hmem with hmem | hmem
    · exact .inr (.inl (hpops hp hmem))
    · exact .inr (.inr ⟨_, List.mem_singleton.mp hmem, .inr ⟨_, hhandles.reduction, hd⟩⟩)
  | loop hhandles _ hp =>
    rcases List.mem_append.mp hmem with hmem | hmem
    · exact .inr (.inl (hpops hp hmem))
    · exact .inr (.inr ⟨_, List.mem_singleton.mp hmem, .inl ⟨rfl, hhandles.reduction⟩⟩)
  | drop _ _ hp => exact .inr (.inl (hpops hp hmem))
  | unnecessary _ _ _ hplaceholder hp =>
    rcases List.mem_append.mp hmem with hmem | hmem
    · rcases hp with ⟨-, rfl⟩ | hp
      · cases hmem
      · exact .inr (.inl (hpops hp hmem))
    · rcases hplaceholder with ⟨-, rfl⟩ | ⟨value, push, -, hpush, rfl⟩
      · cases hmem
      · obtain ⟨given, kind, hgives, -, -⟩ := gives_of_placeholderPush ⟨#[]⟩ hpush
        obtain rfl := List.mem_singleton.mp hmem
        exact .inr (.inl ⟨hgives.isSilent, hgives.flow_eq⟩)

/-- **What is emitted for a silent instruction is silent.** -/
theorem Emits.isSilent {old new : ConstantPool} {isKept : Bool} {code : List Instruction}
    {keeps : Option Nat} (h : decision.Emits old new offset instruction isKept code keeps)
    (hsilent : instruction.operation.isSilent = true) (hmem : emitted ∈ code) :
    emitted.operation.isSilent = true := by
  rcases h.mem_cases (Instruction.usesSubroutine_of_isSilent hsilent) hmem with
    ⟨rfl, -⟩ | ⟨hother, -⟩ | ⟨displacement, rfl, -⟩
  · exact hsilent
  · exact hother
  · rw [operation_branch_goto]
    rfl

/-- Where control falls through to the end of what is emitted for an instruction, it falls through
the instruction, or through what it is reduced to, or the instruction is not necessary. -/
theorem Emits.falls_cases {old new : ConstantPool} {isKept : Bool} {code : List Instruction}
    {keeps : Option Nat} (h : decision.Emits old new offset instruction isKept code keeps)
    (havoids : instruction.usesSubroutine = false) (hlast : code.getLast? = some emitted)
    (hfalls : emitted.fallsThrough = true) :
    instruction.flow = .sequential ∨
      instruction.fallsThrough = true ∧ decision.reductions[offset]? = some none ∨
      (∃ reduction, decision.reductions[offset]? = some (some reduction) ∧
        (reduction.Pushes ∨ reduction = .drop)) ∨
      instruction.isShuffle = false ∧ decision.marks.necessary.contains offset = false := by
  have hjump {displacement : Int32} {p : Prop}
      (heq : emitted = .branch Opcode.goto displacement) : p := by
    have hflow : emitted.flow = .unconditional := heq ▸ congrArg Operation.flow operation_goto
    unfold Instruction.fallsThrough at hfalls
    rw [hflow] at hfalls
    cases hfalls
  cases h with
  | unreachable => cases hlast
  | keptPop _ hs | shuffle _ hs => exact .inl (Instruction.flow_of_isShuffle hs)
  | stays hhandles | keeps hhandles =>
    cases hlast
    exact .inr (.inl ⟨hfalls, hhandles.reduction⟩)
  | call _ _ _ hcall => exact absurd hcall (Instruction.operation_ne_subroutine havoids)
  | discards hhandles _ _ hcall hpushes => exact .inl (flow_of_pushes hhandles hcall hpushes)
  | constant hhandles => exact .inr (.inr (.inl ⟨_, hhandles.reduction, .inl (.inl ⟨_, rfl⟩)⟩))
  | «alias» hhandles => exact .inr (.inr (.inl ⟨_, hhandles.reduction, .inl (.inr ⟨_, rfl⟩)⟩))
  | goto | loop =>
    rw [List.getLast?_append_of_ne_nil _ (List.cons_ne_nil _ _)] at hlast
    exact hjump (Option.some.inj hlast).symm
  | drop hhandles => exact .inr (.inr (.inl ⟨_, hhandles.reduction, .inr rfl⟩))
  | unnecessary hhandles hn => exact .inr (.inr (.inr ⟨hhandles.not_shuffle, hn⟩))

/-! ## Loops that control does not get out of -/

/-- Whether the jump at `last` leads back to `head`, and control does not get out of what lies
between them: no instruction there returns, throws, leads outside or is protected by a live handler
outside. -/
structure ClosesLoop (decision : Decision) (handlers : List Handler) (head last : Nat) : Prop where
  jump : ∃ instruction, decision.evaluation.instruction? last = some instruction ∧
    instruction.operation = .jump
  leads : decision.evaluation.Leads last head
  back : head ≤ last
  goesOn : ∀ inner instruction, decision.evaluation.instruction? inner = some instruction →
    decision.marks.reachable.contains inner = true → head ≤ inner → inner < last →
      instruction.flow ≠ .return ∧ instruction.flow ≠ .throw
  stays : ∀ inner successor, decision.marks.reachable.contains inner = true → head ≤ inner →
    inner < last → decision.evaluation.Leads inner successor →
      head ≤ successor ∧ successor ≤ last
  caught : ∀ (index : Nat) (handler : Handler), handlers[index]? = some handler →
    decision.marks.liveHandlers[index]? = some true → ∀ inner,
      decision.marks.reachable.contains inner = true → head ≤ inner → inner < last →
        handler.covers inner = true → head ≤ handler.target ∧ handler.target ≤ last

/-- Whether control that is at an offset only gets to silent instructions, and from each of them to a
necessary one or to a jump that closes a loop. -/
structure Spins (decision : Decision) (handlers : List Handler) (offset : Nat) : Prop where
  silent : ∀ o, ReflTransGen decision.evaluation.Leads offset o → ∃ instruction,
    decision.evaluation.instruction? o = some instruction ∧ instruction.operation.isSilent = true
  comes : ∀ o, ReflTransGen decision.evaluation.Leads offset o → ∃ last,
    ReflTransGen decision.evaluation.Leads o last ∧
      (decision.marks.necessary.contains last = true ∨
        ∃ head, decision.ClosesLoop handlers head last)

theorem Spins.of_leads {handlers : List Handler} {successor : Nat}
    (h : decision.Spins handlers offset) (hl : decision.evaluation.Leads offset successor) :
    decision.Spins handlers successor :=
  ⟨fun o ho => h.silent o (.head hl ho), fun o ho => h.comes o (.head hl ho)⟩

end Decision

namespace MethodContext.Ruled

variable {context : MethodContext} {pool : ConstantPool} {decision : Decision}
  {sideEffects : IndexSet} {entry : Frame} {original : Reductions} {simple : Evaluation}
  {offset target head last : Nat} {instruction : Instruction}
  (h : context.Ruled pool decision sideEffects entry original simple)

include h

/-- Where a reduced instruction goes on, it went on before. -/
theorem leads_of_mem_reducedTargets {reduction : Option Reduction} {targets : List Nat}
    (horiginal : original[offset]? = some reduction)
    (htargets : (context.subject pool decision.evaluation sideEffects).reducedTargets reduction
      offset = .ok targets) (hmem : target ∈ targets) :
    decision.evaluation.Leads offset target := by
  have hrecorded (htargets : (decision.evaluation.targets offset >>= fun set =>
      (pure set.elements : Except Failure (List Nat))) = .ok targets) :
      decision.evaluation.Leads offset target := by
    obtain ⟨set, hset, heq⟩ := Except.bind_eq_ok.mp htargets
    cases heq
    exact Evaluation.leads_iff.mpr ⟨set, hset, hmem⟩
  cases reduction with
  | none => exact hrecorded htargets
  | some reduction =>
    cases reduction with
    | constant => exact hrecorded htargets
    | «alias» => exact hrecorded htargets
    | goto =>
      cases htargets
      obtain rfl := List.mem_singleton.mp hmem
      exact h.leads_of_goto horiginal
    | drop =>
      cases htargets
      obtain rfl := List.mem_singleton.mp hmem
      exact h.leads_of_drop horiginal
    | loop => exact absurd horiginal (h.ne_loop offset)

theorem backwardGoto?_of_leads (hi : decision.evaluation.instruction? last = some instruction)
    (hop : instruction.operation = .jump) (hl : decision.evaluation.Leads last head)
    (hback : head ≤ last) :
    (context.subject pool decision.evaluation sideEffects).backwardGoto? none last =
      .ok (some head) := by
  obtain ⟨frame, instruction', step, -, hi', he, hmem, -⟩ := h.recounted.took hl
  cases hi.symm.trans hi'
  have hwf : instruction.WellFormed := wellFormed_of_decodeAll
    (Listing.ofCode_eq_ok h.recounted.listing).1 (last, instruction)
    ((Listing.get?_eq_some_iff h.recounted.listing).mp hi)
  have htargets := (Context.jump_of_execute he hop).1
  obtain ⟨first, rest, hfirst⟩ := List.exists_cons_of_ne_nil (List.ne_nil_of_mem hmem)
  have honly : step.successors = [first] :=
    hwf.targets_of_branch (.inr (congrArg Operation.flow hop)) htargets (by rw [hfirst]; rfl)
  rw [honly] at hmem htargets
  obtain rfl := List.mem_singleton.mp hmem
  have hinstruction : (context.subject pool decision.evaluation sideEffects).instruction last =
      .ok instruction := (orDefect_eq_ok ..).mpr hi
  simp only [Subject.backwardGoto?, hinstruction, Subject.gotoTarget?, hop, htargets, bind,
    Except.bind, pure, Except.pure, if_true, List.head?_cons, Option.filter_some, hback,
    decide_true]

/-- A jump that is not necessary is not reduced. -/
theorem original_of_jump (hr : decision.marks.reachable.contains last = true)
    (hn : decision.marks.necessary.contains last = false)
    (hi : decision.evaluation.instruction? last = some instruction)
    (hop : instruction.operation = .jump) : original[last]? = some none := by
  obtain ⟨live, -, hnone, -⟩ := h.marked.straddles
  obtain ⟨targets, htargets, -⟩ := hnone last hr hn
  obtain ⟨reduction, hat, -⟩ := Except.bind_eq_ok.mp htargets
  rw [Reductions.at, orFail_eq_ok] at hat
  have hsame : original[last]? = some reduction := by
    by_contra hne
    rw [h.marked.changed last fun heq => hne (heq.symm.trans hat)] at hn
    cases hn
  cases reduction with
  | none => exact hsame
  | some reduction =>
    have hflow : instruction.flow = .unconditional := congrArg Operation.flow hop
    obtain ⟨instruction', hreduces⟩ := h.reduced last reduction hsame
    cases hi.symm.trans hreduces.listed
    by_cases hpushes : reduction.Pushes
    · cases hflow.symm.trans (hreduces.pushed hpushes).1
    · rcases (hreduces.branches hpushes).1 with hother | hother <;> cases hflow.symm.trans hother

/-- **A jump back that closes a loop stays.** If it did not, nothing would be left of what it jumps
over, and marking would have taken the loop for an empty one. -/
theorem necessary_of_closesLoop
    (hloop : decision.ClosesLoop context.code.handlers head last)
    (hr : decision.marks.reachable.contains last = true) :
    decision.marks.necessary.contains last = true := by
  by_contra hnot
  have hn : decision.marks.necessary.contains last = false := Bool.eq_false_iff.mpr hnot
  obtain ⟨instruction, hi, hop⟩ := hloop.jump
  have horiginal := h.original_of_jump hr hn hi hop
  have hgoto := h.backwardGoto?_of_leads hi hop hloop.leads hloop.back
  obtain ⟨live, hlive, -⟩ := h.marked.straddles
  have hdead : live.anyIn head last = false := by
    refine Bool.eq_false_iff.mpr fun hany => ?_
    obtain ⟨inner, hge, hlt, hcontains⟩ := IndexSet.anyIn_iff.mp hany
    have hbranches : (context.subject pool decision.evaluation sideEffects).BranchesTo
        decision.reductions last head :=
      .inr ⟨instruction, hi, .inr (.inl (congrArg Operation.flow hop)), hloop.leads⟩
    rw [(h.marked.dead_of_branchesTo h.reduced hlive hr hn hbranches inner).2 hge hlt] at hcontains
    cases hcontains
  obtain ⟨reduced, hadds, hchanged, hempty⟩ := h.marked.sought
  have hreduced : reduced[last]? = some none := by
    by_contra hne
    exact hnot (hchanged last fun heq => hne (heq.trans horiginal))
  obtain ⟨inner, hreach, hge, hlt, hleaves⟩ :=
    Subject.exists_leavesFrom hempty hlive hr hn hreduced hgoto hdead
  obtain ⟨instruction', hi', hways⟩ := Subject.leavesFrom_eq_true hleaves
  have hgoes := hloop.goesOn inner instruction' hi' hreach hge hlt
  rcases hways with hreturn | hthrow | ⟨reduction, targets, hreduction, htargets, target, hmem,
    houtside⟩ | ⟨index, handler, hhandler, hflag, hcovers, houtside⟩
  · exact hgoes.1 hreturn
  · exact hgoes.2 hthrow
  · have hinside : head ≤ target ∧ target ≤ last := by
      rcases hadds inner with hsame | ⟨hkept, -⟩
      · exact hloop.stays inner target hreach hge hlt
          (h.leads_of_mem_reducedTargets (hsame ▸ hreduction) htargets hmem)
      · cases hreduction.symm.trans hkept
        cases htargets
        obtain rfl := List.mem_singleton.mp hmem
        exact ⟨hge, Nat.le_of_lt hlt⟩
    omega
  · have := hloop.caught index handler hhandler hflag inner hreach hge hlt hcovers
    omega

end MethodContext.Ruled

/-! ## Where control is in the new code -/

namespace MethodContext.Carried

variable {context : MethodContext} {pool pool' : ConstantPool} {decision : Decision}
  {sideEffects : IndexSet} {entry : Frame} {original : Reductions} {simple : Evaluation}
  {repair : RepairState} {live : IndexSet} {body : List (Nat × Instruction)}
  {placed : List (Nat × Nat)} {size offset successor last : Nat} {instruction : Instruction}
  (h : context.Carried pool pool' decision sideEffects entry original simple repair live)

include h

/-- A silent instruction leads to the next one or is a branch. -/
theorem branches_of_silent (hi : decision.evaluation.instruction? offset = some instruction)
    (hsilent : instruction.operation.isSilent = true)
    (hl : decision.evaluation.Leads offset successor) :
    successor = decision.evaluation.nextOffset offset ∨ instruction.flow = .conditional ∨
      instruction.flow = .unconditional ∨ instruction.flow = .switch := by
  rcases h.leads_cases (Instruction.usesSubroutine_of_isSilent hsilent) hi hl with
    ⟨_, -, -, hflow⟩ | ⟨-, hnext⟩
  · exact .inr hflow
  · exact .inl hnext

/-- Control that gets to spinning code gets to something necessary. -/
theorem exists_necessary (hr : decision.marks.reachable.contains offset = true)
    (hspins : decision.Spins context.code.handlers offset) :
    ∃ last, ReflTransGen decision.evaluation.Leads offset last ∧
      decision.marks.necessary.contains last = true := by
  obtain ⟨last, hpath, hstays⟩ := hspins.comes offset .refl
  have hlast : decision.marks.reachable.contains last = true := by
    clear hstays
    induction hpath with
    | refl => exact hr
    | tail _ hl ih => exact h.reachable_of_leads ih hl
  refine ⟨last, hpath, hstays.elim id ?_⟩
  rintro ⟨head, hloop⟩
  exact h.necessary_of_closesLoop hloop hlast

/-- **Control does not only go back from what leaves code** and is not necessary: there is a way on,
over nothing that is left. Else every path would stay in the dead code that is jumped over. -/
theorem exists_forward (hr : decision.marks.reachable.contains offset = true)
    (hspins : decision.Spins context.code.handlers offset)
    (hn : decision.marks.necessary.contains offset = false)
    (hlive : live.contains offset = true) : ∃ successor,
      decision.evaluation.Leads offset successor ∧
      decision.evaluation.nextOffset offset ≤ successor ∧
      ∀ o, decision.evaluation.nextOffset offset ≤ o → o < successor → live.contains o = false := by
  by_contra hnone
  obtain ⟨instruction, hi, -⟩ := hspins.silent offset .refl
  have hstays (o : Nat) (hpath : ReflTransGen decision.evaluation.Leads offset o) :
      decision.marks.reachable.contains o = true ∧ o ≤ offset ∧
        ∀ between, o ≤ between → between < offset → live.contains between = false := by
    induction hpath with
    | refl => exact ⟨hr, Nat.le_refl _, fun _ hge hlt => absurd hlt (Nat.not_lt.mpr hge)⟩
    | @tail o successor hpath hl ih =>
      obtain ⟨hreach, hle, hdead⟩ := ih
      obtain ⟨instruction', hi', hsilent⟩ := hspins.silent o hpath
      have hn' : decision.marks.necessary.contains o = false := by
        rcases Nat.lt_or_eq_of_le hle with hlt | rfl
        · exact h.not_necessary_of_dead (hdead o (Nat.le_refl _) hlt)
        · exact hn
      refine ⟨h.reachable_of_leads hreach hl, ?_⟩
      rcases h.dead_of_unnecessary hreach hn' hi' (h.branches_of_silent hi' hsilent hl) hl with
        ⟨hnext, hover⟩ | ⟨hback, hover⟩
      · rcases Nat.lt_or_eq_of_le hle with hlt | rfl
        · have hnext' := Listing.nextOffset_le h.recounted.listing (Option.isSome_of_eq_some hi')
            (Option.isSome_of_eq_some hi) hlt
          have hafter : o < decision.evaluation.nextOffset o := Listing.lt_nextOffset hi'
          have hin : successor ≤ offset := by
            by_contra hgt
            rw [hover offset hnext' (by omega)] at hlive
            cases hlive
          exact ⟨hin, fun between hge => hdead between (by omega)⟩
        · exact absurd ⟨successor, hl, hnext, hover⟩ hnone
      · refine ⟨by omega, fun between hge hlt => ?_⟩
        by_cases hbefore : between < o
        · exact hover between hge hbefore
        · exact hdead between (by omega) hlt
  obtain ⟨last, hpath, hnecessary⟩ := h.exists_necessary hr hspins
  obtain ⟨-, hle, hdead⟩ := hstays last hpath
  rcases Nat.lt_or_eq_of_le hle with hlt | rfl
  · have hdead := hdead last (Nat.le_refl _) hlt
    rw [h.live_of_necessary hnecessary] at hdead
    cases hdead
  · cases hn.symm.trans hnecessary

variable (hlays : repair.edit.Lays decision.evaluation.instructions body placed size)

include hlays

/-- **Control finds code where a spinning offset has moved to**, and it was emitted for a spinning
instruction. -/
theorem exists_emitted (hr : decision.marks.reachable.contains offset = true)
    (hspins : decision.Spins context.code.handlers offset) :
    ∃ found instruction, decision.marks.reachable.contains found = true ∧
      decision.Spins context.code.handlers found ∧
      decision.evaluation.instruction? found = some instruction ∧
      (repair.edit.site found).emitted instruction ≠ [] ∧
      moved placed size found = moved placed size offset := by
  obtain ⟨last, hpath, hnecessary⟩ := h.exists_necessary hr hspins
  induction hpath using ReflTransGen.head_induction_on with
  | refl =>
    obtain ⟨instruction, hi, -⟩ := hspins.silent last .refl
    exact ⟨last, instruction, hr, hspins, hi, h.emitted_ne_nil hi hnecessary, rfl⟩
  | @head o successor hl hpath ih =>
    obtain ⟨instruction, hi, hsilent⟩ := hspins.silent o .refl
    by_cases hemitted : (repair.edit.site o).emitted instruction = []
    · have hn : decision.marks.necessary.contains o = false :=
        Bool.eq_false_iff.mpr fun hn => h.emitted_ne_nil hi hn hemitted
      have hpiece := hlays.piece o instruction
        ((Listing.get?_eq_some_iff h.recounted.listing).mp hi)
      rw [hemitted, List.map_nil, ← Listing.nextOffset_of_get? hi] at hpiece
      have hnext := hpiece.unique (.nil _)
      obtain ⟨found, instruction', hr', hspins', hi', hne, hmoved⟩ :=
        ih (h.reachable_of_leads hr hl) (hspins.of_leads hl)
      refine ⟨found, instruction', hr', hspins', hi', hne, hmoved.trans ?_⟩
      rcases h.moved_eq_of_unnecessary hlays hr hn hi (h.branches_of_silent hi hsilent hl) hl with
        hsame | hsame
      · exact hsame.trans hnext
      · exact hsame
    · exact ⟨o, instruction, hr, hspins, hi, hemitted, rfl⟩

/-- Control that falls through to the end of what is emitted for a spinning instruction is where some
successor has moved to. -/
theorem exists_leads_end
    (hreductions : reductions context.around.settings.simplify decision.evaluation sideEffects =
      .ok original) (hbranches : context.around.settings.simplify.simplifyBranches = true)
    (hr : decision.marks.reachable.contains offset = true)
    (hspins : decision.Spins context.code.handlers offset)
    (hi : decision.evaluation.instruction? offset = some instruction) {emitted : Instruction}
    (hlast : ((repair.edit.site offset).emitted instruction).getLast? = some emitted)
    (hfalls : emitted.fallsThrough = true) : ∃ successor,
      decision.evaluation.Leads offset successor ∧ moved placed size successor =
        moved placed size (decision.evaluation.nextOffset offset) := by
  obtain ⟨instruction', hi', hsilent⟩ := hspins.silent offset .refl
  cases hi.symm.trans hi'
  have havoids := Instruction.usesSubroutine_of_isSilent hsilent
  have hnext (hl : decision.evaluation.Leads offset (decision.evaluation.nextOffset offset)) :
      ∃ successor, decision.evaluation.Leads offset successor ∧ moved placed size successor =
        moved placed size (decision.evaluation.nextOffset offset) := ⟨_, hl, rfl⟩
  have hsequential (hflow : instruction.flow = .sequential) :
      decision.evaluation.Leads offset (decision.evaluation.nextOffset offset) := by
    obtain ⟨before, instruction', step, -, hs⟩ := h.settled hr
    cases hi.symm.trans hs.listed
    refine h.leads_of_settled hs ?_
    rw [Context.successors_of_sequential hs.execute hflow]
    exact List.mem_singleton_self _
  obtain ⟨old, new, keeps, -, -, -, hemits, -⟩ := h.repaired offset instruction hi
  rcases hemits.falls_cases havoids hlast hfalls with hflow | ⟨hfalls, hnone⟩ |
    ⟨reduction, hreduction, hpushes | rfl⟩ | ⟨hnot, hn⟩
  · exact hnext (hsequential hflow)
  · have horiginal := h.marked.loops.eq_of_ne_loop hnone nofun
    have hfallsThrough := hfalls
    unfold Instruction.fallsThrough at hfalls
    split at hfalls
    · rename_i hflow
      exact hnext (hsequential hflow)
    · rename_i hflow
      exact hnext ((h.leads_of_unreduced hreductions hbranches hr hi (.inl hflow) horiginal).2
        hfallsThrough)
    · cases hfalls
  · have hne : some reduction ≠ some .loop := by
      rintro ⟨⟩
      rcases hpushes with ⟨_, hp⟩ | ⟨_, hp⟩ <;> cases hp
    obtain ⟨instruction', hreduces⟩ :=
      h.reduced offset reduction (h.marked.loops.eq_of_ne_loop hreduction hne)
    cases hi.symm.trans hreduces.listed
    exact hnext (hsequential (hreduces.pushed hpushes).1)
  · exact hnext (h.leads_of_drop (h.marked.loops.eq_of_ne_loop hreduction nofun))
  · have hlive : live.contains offset = true := by
      by_contra hdead
      have hkept : repair.keptPops.contains offset = false := Bool.eq_false_iff.mpr fun hkept =>
        absurd (hnot.symm.trans (h.isShuffle_of_kept hi hkept)) Bool.false_ne_true
      rw [h.emitted_eq_nil hi hkept (Bool.eq_false_iff.mpr hdead)] at hlast
      cases hlast
    obtain ⟨successor, hl, hle, hover⟩ := h.exists_forward hr hspins hn hlive
    exact ⟨successor, hl, h.moved_eq_nextOffset hlays hn hi hle hover⟩

omit hlays

/-- A branch that is emitted for a spinning instruction leads to the instruction itself, or to where
it leads. -/
theorem leads_of_displacement
    (hreductions : reductions context.around.settings.simplify decision.evaluation sideEffects =
      .ok original) (hbranches : context.around.settings.simplify.simplifyBranches = true)
    (hr : decision.marks.reachable.contains offset = true)
    (hi : decision.evaluation.instruction? offset = some instruction)
    (hsilent : instruction.operation.isSilent = true) {emitted : Instruction}
    (hmem : emitted ∈ (repair.edit.site offset).emitted instruction)
    (hflow : emitted.flow = .conditional ∨ emitted.flow = .unconditional ∨ emitted.flow = .switch)
    {displacement : Int32} (hd : displacement ∈ emitted.displacements) :
    ∃ target : Nat, (offset : Int) + displacement.toInt = target ∧
      (target = offset ∨ decision.evaluation.Leads offset target) := by
  have hbranch {p : Prop} (hsequential : emitted.flow = .sequential) : p := by
    rw [hsequential] at hflow
    simp at hflow
  obtain ⟨old, new, keeps, -, -, -, hemits, -⟩ := h.repaired offset instruction hi
  rcases hemits.mem_cases (Instruction.usesSubroutine_of_isSilent hsilent) hmem with
    ⟨rfl, hsequential | hnone⟩ | ⟨-, hsequential⟩ |
    ⟨displacement', rfl, ⟨rfl, -⟩ | ⟨target, hgoto, hto⟩⟩
  · exact hbranch hsequential
  · obtain ⟨⟨targets, htargets, hall⟩, -⟩ := h.leads_of_unreduced hreductions hbranches hr hi hflow
      (h.marked.loops.eq_of_ne_loop hnone nofun)
    obtain ⟨target, htarget, hresolved⟩ := (mem_of_mapM htargets).1 _ hd
    exact ⟨target, Edit.target_eq_ok hresolved, .inr (hall target htarget)⟩
  · exact hbranch hsequential
  · obtain rfl := List.mem_singleton.mp hd
    exact ⟨offset, Int.add_zero _, .inl rfl⟩
  · obtain rfl := List.mem_singleton.mp hd
    exact ⟨target, toInt_of_displacementTo hto,
      .inr (h.leads_of_goto (h.marked.loops.eq_of_ne_loop hgoto nofun))⟩

end MethodContext.Carried

/-- Whether control that is at a position of the new code is in what is emitted for a spinning
instruction. -/
inductive Decision.InSpinning (decision : Decision) (handlers : List Handler) (edit : Edit)
    (body : List (Nat × Instruction)) (placed : List (Nat × Nat)) (size position : Nat) : Prop where
  | piece {offset : Nat} {instruction emitted : Instruction} {rest : List Instruction}
      (hr : decision.marks.reachable.contains offset = true)
      (hspins : decision.Spins handlers offset)
      (hi : decision.evaluation.instruction? offset = some instruction)
      (hsuffix : emitted :: rest <:+ (edit.site offset).emitted instruction)
      (hlaid : Edit.Laid placed size body position ((emitted :: rest).map (offset, ·))
        (moved placed size (decision.evaluation.nextOffset offset))) :
      InSpinning decision handlers edit body placed size position

namespace MethodContext.Carried

variable {context : MethodContext} {pool pool' : ConstantPool} {decision : Decision}
  {sideEffects : IndexSet} {entry : Frame} {original : Reductions} {simple : Evaluation}
  {repair : RepairState} {live : IndexSet} {body : List (Nat × Instruction)}
  {placed : List (Nat × Nat)} {size offset position following : Nat}
  (h : context.Carried pool pool' decision sideEffects entry original simple repair live)

include h

/-- What is emitted for spinning instructions is silent. -/
theorem isSilent_of_inSpinning
    (hin : decision.InSpinning context.code.handlers repair.edit body placed size position) :
    ∃ instruction, body.lookup position = some instruction ∧
      instruction.operation.isSilent = true := by
  cases hin with
  | @piece offset instruction emitted rest _ hspins hi hsuffix hlaid =>
    obtain ⟨instruction', hi', hsilent⟩ := hspins.silent offset .refl
    cases hi.symm.trans hi'
    obtain ⟨old, new, keeps, -, -, -, hemits, -⟩ := h.repaired offset instruction hi
    cases hlaid with
    | @cons _ _ _ result _ hlookup hstands _ =>
      refine ⟨result, hlookup, ?_⟩
      rw [Instruction.operation_of_form hstands.form_eq]
      exact hemits.isSilent hsilent (hsuffix.subset List.mem_cons_self)

variable (hlays : repair.edit.Lays decision.evaluation.instructions body placed size)

include hlays

/-- Control is in what is emitted for spinning instructions where a spinning offset has moved to. -/
theorem inSpinning_moved (hr : decision.marks.reachable.contains offset = true)
    (hspins : decision.Spins context.code.handlers offset) :
    decision.InSpinning context.code.handlers repair.edit body placed size
      (moved placed size offset) := by
  obtain ⟨found, instruction, hr', hspins', hi, hne, hmoved⟩ := h.exists_emitted hlays hr hspins
  obtain ⟨emitted, rest, hcode⟩ := List.exists_cons_of_ne_nil hne
  have hpiece := hlays.piece found instruction
    ((Listing.get?_eq_some_iff h.recounted.listing).mp hi)
  rw [hcode, hmoved, ← Listing.nextOffset_of_get? hi] at hpiece
  exact .piece hr' hspins' hi (hcode ▸ List.suffix_refl _) hpiece

/-- **Control stays in what is emitted for spinning instructions.** -/
theorem inSpinning_of_proceeds
    (hreductions : reductions context.around.settings.simplify decision.evaluation sideEffects =
      .ok original) (hbranches : context.around.settings.simplify.simplifyBranches = true)
    (hin : decision.InSpinning context.code.handlers repair.edit body placed size position)
    (hproceeds : Proceeds body position following) :
    decision.InSpinning context.code.handlers repair.edit body placed size following := by
  cases hin with
  | @piece offset instruction emitted rest hr hspins hi hsuffix hlaid =>
    obtain ⟨instruction', hi', hsilent⟩ := hspins.silent offset .refl
    cases hi.symm.trans hi'
    cases hlaid with
    | @cons _ _ _ result _ hlookup hstands hrest =>
      cases hproceeds with
      | branch hlookup' hflow htargets hmem =>
        cases hlookup.symm.trans hlookup'
        obtain ⟨new, hnew, hresolved⟩ := (mem_of_mapM htargets).2 _ hmem
        obtain ⟨displacement, hd, hmoves⟩ := exists_mem_of_forall₂ hstands.targets.flip hnew
        obtain ⟨target, htarget, hleads⟩ := h.leads_of_displacement hreductions hbranches hr hi
          hsilent (hsuffix.subset List.mem_cons_self)
          (Instruction.flow_of_form hstands.form_eq ▸ hflow) hd
        have hfollowing : following = moved placed size target := by
          have := Edit.target_eq_ok hresolved
          simp only [htarget] at hmoves
          rw [moved]
          omega
        rw [hfollowing]
        rcases hleads with rfl | hl
        · exact h.inSpinning_moved hlays hr hspins
        · exact h.inSpinning_moved hlays (h.reachable_of_leads hr hl) (hspins.of_leads hl)
      | next hlookup' hfalls =>
        cases hlookup.symm.trans hlookup'
        have hfalls : emitted.fallsThrough = true :=
          (Instruction.fallsThrough_of_form hstands.form_eq).symm.trans hfalls
        cases rest with
        | nil =>
          have hlast : ((repair.edit.site offset).emitted instruction).getLast? = some emitted := by
            obtain ⟨front, hfront⟩ := hsuffix
            rw [← hfront, List.getLast?_concat]
          obtain ⟨successor, hl, hmoved⟩ := h.exists_leads_end hlays hreductions hbranches hr
            hspins hi hlast hfalls
          rw [← hrest.unique (.nil _), ← hmoved]
          exact h.inSpinning_moved hlays (h.reachable_of_leads hr hl) (hspins.of_leads hl)
        | cons next rest =>
          exact .piece hr hspins hi ((List.suffix_cons _ _).trans hsuffix) hrest

end MethodContext.Carried

/-- **Spinning code stays spinning.** Where branches are reduced, control that gets to where a
spinning offset has moved to in the simplified body only gets to silent instructions from there,
whatever the variables hold. So it neither returns nor throws, calls nothing, writes nothing but
variables, and does not leave the body. -/
theorem MethodContext.simplify_keeps_spinning {context : MethodContext} {pool pool' : ConstantPool}
    {decision : Decision} {simplified : Code} {report : Report} {offset : Nat}
    (hbranches : context.around.settings.simplify.simplifyBranches = true)
    (hsize : context.code.bytes.length ≤ UInt32.size)
    (hdecide : context.decide pool = .ok decision)
    (hsimplify : context.simplify.apply pool = (.ok (some (simplified, report)), pool'))
    (hsmall : simplified.size < 2 ^ 31)
    (hr : decision.marks.reachable.contains offset = true)
    (hspins : decision.Spins context.code.handlers offset) :
    ∃ repair body', decision.repairs pool = (.ok ((), repair), pool') ∧
      repair.edit.apply context.code pool' = .ok simplified ∧
      decodeAll simplified.bytes = .ok body' ∧
      ∀ position, ReflTransGen (Proceeds body')
        (moved (((repair.edit.emission decision.evaluation.instructions).map (·.1)).zip
          (body'.map (·.1))) simplified.size offset) position →
        ∃ instruction, body'.lookup position = some instruction ∧
          instruction.operation.isSilent = true := by
  obtain ⟨decision', repair, hdecide', hrepairs, happly⟩ := simplify_eq_some hsimplify
  cases hdecide.symm.trans hdecide'
  obtain ⟨sideEffects, entry, original, simple, hruled, hreductions⟩ :=
    ruled_of_decide hdecide hsize
  have hlisting := hruled.recounted.listing
  obtain ⟨-, hrepaired, hkept⟩ := Decision.repaired_of_repairAll hlisting hrepairs
  obtain ⟨live, hlive, -⟩ := hruled.marked.straddles
  have h : context.Carried pool pool' decision sideEffects entry original simple repair live :=
    ⟨hruled, hlive, hrepaired, hkept⟩
  obtain ⟨body', placed, hbody', hplaced, hlays, -⟩ := Edit.settled_of_apply happly hsmall hlisting
    fun _ hmem => h.wellFormed_of_mem_emission hmem
  have hstays (position : Nat)
      (hpath : ReflTransGen (Proceeds body') (moved placed simplified.size offset) position) :
      decision.InSpinning context.code.handlers repair.edit body' placed simplified.size
        position := by
    induction hpath with
    | refl => exact h.inSpinning_moved hlays hr hspins
    | tail _ hproceeds ih => exact h.inSpinning_of_proceeds hlays hreductions hbranches ih hproceeds
  refine ⟨repair, body', hrepairs, happly, hbody', fun position hpath => ?_⟩
  exact h.isSilent_of_inSpinning (hstays position (hplaced ▸ hpath))

/-- A method that returns zero quickly, and never for other arguments: they lead into a loop that is
closed by one jump back. -/
def closedLoop : MethodContext where
  around := ⟨.empty, .standard, .empty⟩
  assumptions := .none
  owner := "Loops"
  method := ⟨AccessFlags.static, "spin", "(I)V", none⟩
  code := ⟨1, 1, [0x1A, 0x9A, 0, 4, 0xB1, 0, 0x1A, 0x99, 0, 6, 0, 0, 0, 0xA7, 0xFF, 0xF8],
    [], [], []⟩

/-- The instructions of the loop, with where they lead. -/
def closedLoopEdges : List (Nat × List Nat) :=
  [(5, [6]), (6, [7]), (7, [10, 13]), (10, [11]), (11, [12]), (12, [13]), (13, [5])]

/-- Whether the evaluation of the loop leads along its edges and its instructions are silent. -/
def Decision.showsClosedLoop (decision : Decision) : Bool :=
  closedLoopEdges.all (fun edge =>
    decision.evaluation.targets edge.1 |>.toOption.any (·.elements == edge.2)) &&
  closedLoopEdges.all (fun edge =>
    (decision.evaluation.instruction? edge.1).any (·.operation.isSilent)) &&
  (decision.evaluation.instruction? 13).any (·.operation == .jump) &&
  (List.range' 5 8).all fun inner =>
    decision.marks.reachable.contains inner == decide (inner ∈ closedLoopEdges.map (·.1))

/-- Control only goes along the edges, and on all of them, so it spins. -/
theorem Decision.spins_of_showsClosedLoop {decision : Decision}
    (h : decision.showsClosedLoop = true) : decision.Spins closedLoop.code.handlers 5 := by
  simp only [showsClosedLoop, Bool.and_eq_true, List.all_eq_true] at h
  obtain ⟨⟨⟨htargets, hsilent⟩, hjump⟩, hreachable⟩ := h
  have hleads (edge : Nat × List Nat) (hedge : edge ∈ closedLoopEdges) (successor : Nat) :
      decision.evaluation.Leads edge.1 successor ↔ successor ∈ edge.2 := by
    obtain ⟨set, hset, helements⟩ := Except.exists_ok_of_any (htargets edge hedge)
    rw [Evaluation.leads_iff, ← eq_of_beq helements]
    exact ⟨fun ⟨set', hset', hmem⟩ => by cases hset.symm.trans hset'; exact hmem,
      fun hmem => ⟨set, hset, hmem⟩⟩
  have hinside (o : Nat) (hpath : ReflTransGen decision.evaluation.Leads 5 o) :
      ∃ edge ∈ closedLoopEdges, edge.1 = o := by
    induction hpath with
    | refl => exact ⟨(5, [6]), by decide, rfl⟩
    | tail _ hl ih =>
      obtain ⟨edge, hedge, rfl⟩ := ih
      have hclosed : ∀ edge ∈ closedLoopEdges, ∀ successor ∈ edge.2,
        ∃ other ∈ closedLoopEdges, other.1 = successor := by decide
      exact hclosed edge hedge _ ((hleads edge hedge _).mp hl)
  have hknown (o : Nat) (hmem : ∃ edge ∈ closedLoopEdges, edge.1 = o) : ∃ instruction,
      decision.evaluation.instruction? o = some instruction ∧
        instruction.operation.isSilent = true := by
    obtain ⟨edge, hedge, rfl⟩ := hmem
    exact (Option.any_eq_true ..).mp (hsilent edge hedge)
  have hedge {source target : Nat}
      (hedge : ∃ edge ∈ closedLoopEdges, edge.1 = source ∧ target ∈ edge.2) :
      decision.evaluation.Leads source target := by
    obtain ⟨edge, hmem, rfl, htarget⟩ := hedge
    exact (hleads edge hmem target).mpr htarget
  have hloop : decision.ClosesLoop closedLoop.code.handlers 5 13 := by
    have hbetween (inner : Nat) (hr : decision.marks.reachable.contains inner = true)
        (hge : 5 ≤ inner) (hlt : inner < 13) : ∃ edge ∈ closedLoopEdges, edge.1 = inner := by
      have := hreachable inner (List.mem_range'_1.mpr ⟨hge, hlt⟩)
      rw [hr] at this
      simpa using this
    refine ⟨(Option.any_eq_true ..).mp hjump |>.imp fun _ h => ⟨h.1, eq_of_beq h.2⟩,
      hedge (by decide), by decide, fun inner instruction hi hr hge hlt => ?_,
      fun inner successor hr hge hlt hl => ?_, fun _ _ hnone => by cases hnone⟩
    · obtain ⟨instruction', hi', hsilent⟩ := hknown inner (hbetween inner hr hge hlt)
      cases hi.symm.trans hi'
      exact Instruction.goesOn_of_isSilent hsilent
    · obtain ⟨edge, hmem, rfl⟩ := hbetween inner hr hge hlt
      have hall : ∀ edge ∈ closedLoopEdges, ∀ successor ∈ edge.2,
        5 ≤ successor ∧ successor ≤ 13 := by decide
      exact hall edge hmem successor ((hleads edge hmem successor).mp hl)
  have hcomes : ∀ edge ∈ closedLoopEdges, ReflTransGen decision.evaluation.Leads edge.1 13 := by
    have h12 : ReflTransGen decision.evaluation.Leads 12 13 := .single (hedge (by decide))
    have h11 : ReflTransGen decision.evaluation.Leads 11 13 := .head (hedge (by decide)) h12
    have h10 : ReflTransGen decision.evaluation.Leads 10 13 := .head (hedge (by decide)) h11
    have h7 : ReflTransGen decision.evaluation.Leads 7 13 := .single (hedge (by decide))
    have h6 : ReflTransGen decision.evaluation.Leads 6 13 := .head (hedge (by decide)) h7
    have h5 : ReflTransGen decision.evaluation.Leads 5 13 := .head (hedge (by decide)) h6
    simp only [closedLoopEdges, List.forall_mem_cons, List.not_mem_nil, false_implies, implies_true,
      and_true]
    exact ⟨h5, h6, h7, h10, h11, h12, .refl⟩
  refine ⟨fun o hpath => hknown o (hinside o hpath), fun o hpath => ?_⟩
  obtain ⟨edge, hmem, rfl⟩ := hinside o hpath
  exact ⟨13, hcomes edge hmem, .inr ⟨5, hloop⟩⟩

/-- The loop becomes a jump to itself, which control does not get out of. -/
theorem simplify_keeps_spinning_closedLoop : ∃ decision simplified report pool',
    closedLoop.decide ⟨#[]⟩ = .ok decision ∧
      closedLoop.simplify.apply ⟨#[]⟩ = (.ok (some (simplified, report)), pool') ∧
      simplified.bytes = [0x1A, 0x9A, 0, 4, 0xB1, 0xA7, 0, 0] ∧
      decision.marks.reachable.contains 5 = true ∧
      decision.Spins closedLoop.code.handlers 5 ∧
      ∃ repair body', decision.repairs ⟨#[]⟩ = (.ok ((), repair), pool') ∧
        repair.edit.apply closedLoop.code pool' = .ok simplified ∧
        decodeAll simplified.bytes = .ok body' ∧
        ∀ position, ReflTransGen (Proceeds body')
          (moved (((repair.edit.emission decision.evaluation.instructions).map (·.1)).zip
            (body'.map (·.1))) simplified.size 5) position →
          ∃ instruction, body'.lookup position = some instruction ∧
            instruction.operation.isSilent = true := by
  obtain ⟨decision, hdecide, hchecks⟩ := Except.exists_ok_of_any (by decide +kernel :
    (closedLoop.decide ⟨#[]⟩).toOption.any (fun decision =>
      decision.showsClosedLoop && decision.marks.reachable.contains 5) = true)
  obtain ⟨hshows, hr⟩ := (Bool.and_eq_true ..).mp hchecks
  obtain ⟨⟨simplified, report⟩, pool', hsimplify, hbytes⟩ := Except.exists_ok_some_of_any
    (x := closedLoop.simplify.apply ⟨#[]⟩)
    (p := fun made _ => made.1.bytes == [0x1A, 0x9A, 0, 4, 0xB1, 0xA7, 0, 0]) (by decide +kernel)
  have hspins := Decision.spins_of_showsClosedLoop hshows
  have hbytes := eq_of_beq hbytes
  refine ⟨decision, simplified, report, pool', hdecide, hsimplify, hbytes, hr, hspins, ?_⟩
  refine MethodContext.simplify_keeps_spinning rfl (by decide) hdecide hsimplify ?_ hr hspins
  rw [Code.size, hbytes]
  decide

/-- A method with two loops around each other that have no way out. -/
def restlessLoop : MethodContext where
  around := ⟨.empty, .standard, .empty⟩
  assumptions := .none
  owner := "Loops"
  method := ⟨AccessFlags.static, "rest", "(I)V", none⟩
  code := ⟨1, 1, [0x00, 0x1A, 0x99, 0xFF, 0xFE, 0xA7, 0xFF, 0xFC], [], [], []⟩

/-- **A loop that is closed twice may vanish.** The branch back to the outer loop counts as a way
out of the inner one, so nothing is left of either. -/
theorem simplify_restlessLoop : ∃ simplified report pool',
    restlessLoop.simplify.apply ⟨#[]⟩ = (.ok (some (simplified, report)), pool') ∧
      simplified.bytes = [] := by
  obtain ⟨⟨simplified, report⟩, pool', hsimplify, hchecks⟩ := Except.exists_ok_some_of_any
    (x := restlessLoop.simplify.apply ⟨#[]⟩) (p := fun made _ => made.1.bytes == [])
    (by decide +kernel)
  exact ⟨simplified, report, pool', hsimplify, eq_of_beq hchecks⟩

end JvmTrim
