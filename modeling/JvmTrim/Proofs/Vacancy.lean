import JvmTrim.Proofs.Layout
import JvmTrim.Proofs.Necessity
import JvmTrim.Proofs.Producers

/-!
# Code of which nothing is left

An instruction that is neither necessary nor leaves code in its place is dead. Nothing is emitted for
it unless it is a pop that is kept for the instruction before, and only that instruction leads to such
a pop. So a dead stretch of code has no extent in the new code, and a branch over it may go: wherever
it leads to, control is there already.

None of this depends on what constants are loaded, so no load has to fit its constant here.

## Main definitions

* `MethodContext.Ruled`: a decision about a method body
* `MethodContext.Carried`: a decision with the edits that follow from it

## Main results

* `MethodContext.Carried.emitted_eq_nil`: nothing is emitted for dead code
* `MethodContext.Carried.eq_of_leads_kept`: only the instruction that a pop is kept for leads to it
* `MethodContext.Carried.moved_eq`: a dead stretch of code has no extent
* `MethodContext.Carried.moved_eq_of_unnecessary`: a branch that goes leads over no code
-/

namespace JvmTrim

/-! ## Instructions that leave nothing -/

/-- Nothing is popped where nothing is present. -/
theorem Marks.popsDownTo_eq_nil {marks : Marks} {stack : Stack} {bottom height : Nat}
    (h : ∀ position, bottom ≤ position → position < height →
      marks.wordPresent stack position = false) : marks.popsDownTo stack bottom height = [] := by
  fun_induction Marks.popsDownTo marks stack bottom height with
  | case1 => rfl
  | case2 hpop =>
    simp only [Bool.and_eq_true, decide_eq_true_eq] at hpop
    rw [h 0 (by omega) (by omega)] at hpop
    cases hpop.2
  | case3 => rfl
  | case4 => rfl
  | case5 top hlt isWide pops ihWide ihSingle =>
    have hnone : pops = [] := by
      simp only [pops]
      rw [h (top + 1) (by omega) (by omega)]
      rfl
    rw [hnone, List.nil_append]
    split
    · exact ihWide fun position hge hlt => h position hge (by omega)
    · exact ihSingle fun position hge hlt => h position hge (by omega)

/-- An instruction that leaves nothing and is no stack manipulation finds nothing of what it takes
and gives nothing that is present. -/
theorem Subject.absent_of_leavesCode {subject : Subject} {marks : Marks} {offset : Nat}
    {instruction : Instruction} {effect : StackEffect}
    (h : subject.leavesCode marks offset = .ok false)
    (hi : subject.evaluation.instruction? offset = some instruction)
    (hnot : instruction.isShuffle = false)
    (he : instruction.stackEffect subject.pool = .ok effect) :
    ∃ before, subject.evaluation.stackBefore? offset = some before ∧
      (∀ position, before.height - effect.pops ≤ position → position < before.height →
        marks.wordPresent before position = false) ∧
      ∀ after, subject.evaluation.stackAfter? offset = some after → ∀ position,
        after.height - effect.pushes ≤ position → position < after.height →
        marks.isPresent (.ofInstruction offset) position = false := by
  obtain ⟨instruction', hi', h⟩ := Except.bind_eq_ok.mp h
  rw [Subject.instruction, orDefect_eq_ok] at hi'
  cases hi.symm.trans hi'
  obtain ⟨before, hb, h⟩ := Except.bind_eq_ok.mp h
  rw [Subject.stackBefore, orDefect_eq_ok] at hb
  rw [hnot] at h
  simp only [he, bind, Except.bind, pure, Except.pure, Bool.false_eq_true, if_false,
    Except.ok.injEq, Bool.or_eq_false_iff, List.any_eq_false] at h
  refine ⟨before, hb, fun position hge hlt => ?_, fun after ha position hge hlt => ?_⟩
  · refine Bool.eq_false_iff.mpr (h.1 position (List.mem_range'_1.mpr ?_))
    omega
  · rw [ha] at h
    refine Bool.eq_false_iff.mpr (h.2 position (List.mem_range'_1.mpr ?_))
    omega

/-- There is no value to keep where nothing that is given is present. -/
theorem Decision.presentOutput_eq_none {decision : Decision} {offset pushes : Nat}
    {output : Option Value} (h : decision.presentOutput offset pushes = .ok output)
    (habsent : ∀ after, decision.evaluation.stackAfter? offset = some after → ∀ position,
      after.height - pushes ≤ position → position < after.height →
      decision.marks.isPresent (.ofInstruction offset) position = false) : output = none := by
  unfold presentOutput at h
  split at h
  · cases h
    rfl
  · obtain ⟨after, ha, h⟩ := Except.bind_eq_ok.mp h
    rw [recorded, orDefect_eq_ok] at ha
    dsimp only at h
    split at h
    · cases h
    · rename_i hpushes hheight
      rw [habsent after ha (after.height - 1) (by omega) (by omega)] at h
      cases h
      rfl

/-- Pops are kept by necessary instructions only. -/
theorem Decision.Emits.necessary_of_keeps {decision : Decision} {old new : ConstantPool}
    {offset next : Nat} {instruction : Instruction} {isKept : Bool} {code : List Instruction}
    (h : decision.Emits old new offset instruction isKept code (some next)) :
    decision.marks.necessary.contains offset = true := by
  cases h
  assumption

/-- A pop that is kept is the next instruction. -/
theorem Decision.Emits.eq_nextOffset_of_keeps {decision : Decision} {old new : ConstantPool}
    {offset next : Nat} {instruction : Instruction} {isKept : Bool} {code : List Instruction}
    (h : decision.Emits old new offset instruction isKept code (some next)) :
    next = decision.evaluation.nextOffset offset := by
  cases h with
  | keeps _ _ _ _ _ hpop => exact (Decision.discardingPop?_eq_some hpop).1

theorem Instruction.operation_of_popOf {pop : Instruction} {words : Nat}
    (h : pop.opcode = (popOf words).opcode) : pop.operation = .shuffle (Shuffle.popOf words) := by
  rw [operation, h, popOf_eq]
  exact operation_ofShuffle _

/-! ## Where control goes -/

theorem Opcode.layout?_of_branch {opcode : Opcode}
    (h : opcode.operation.flow = .conditional ∨ opcode.operation.flow = .unconditional) :
    opcode.layout? = some .branch ∨ opcode.layout? = some .wideBranch := by
  have hall := of_all (p := fun opcode =>
    !(opcode.operation.flow = .conditional || opcode.operation.flow = .unconditional) ||
      (opcode.layout? = some .branch || opcode.layout? = some .wideBranch))
    (by decide +kernel) opcode
  rcases h with h | h <;> simpa [h] using hall

/-- A branch that is no switch has one target. -/
theorem Instruction.WellFormed.targets_of_branch {instruction : Instruction} {offset target : Nat}
    {targets : List Nat} (h : instruction.WellFormed)
    (hflow : instruction.flow = .conditional ∨ instruction.flow = .unconditional)
    (ht : instruction.branchTargets offset = .ok targets) (hhead : targets.head? = some target) :
    targets = [target] := by
  obtain ⟨displacement, hoperand⟩ := h.operand_eq_branch (Opcode.layout?_of_branch hflow)
  rw [branchTargets, displacements, hoperand] at ht
  cases forall₂_of_mapM ht with
  | cons _ hrest =>
    cases hrest
    cases hhead
    rfl

theorem Evaluation.Recounted.eq_nextOffset_of_leads {evaluation : Evaluation}
    {options : EvaluationOptions} {pool : ConstantPool} {code : Code} {entry : Frame}
    {offset successor : Nat} {instruction : Instruction}
    (hf : evaluation.Recounted options pool code entry)
    (hi : evaluation.instruction? offset = some instruction)
    (hflow : instruction.flow = .sequential) (hl : evaluation.Leads offset successor) :
    successor = evaluation.nextOffset offset := by
  obtain ⟨frame, instruction', step, -, hi', he, hs, -⟩ := hf.took hl
  cases hi.symm.trans hi'
  rw [Context.successors_of_sequential he hflow] at hs
  exact List.mem_singleton.mp hs

namespace MethodContext

/-- A decision about a method body, whatever constants it loads. -/
structure Ruled (context : MethodContext) (pool : ConstantPool) (decision : Decision)
    (sideEffects : IndexSet) (entry : Frame) (original : Reductions) (simple : Evaluation) :
    Prop where
  recounted : decision.evaluation.Recounted context.preciseOptions pool context.code entry
  effects : context.sideEffects pool decision.evaluation = .ok sideEffects
  marked : (context.subject pool decision.evaluation sideEffects).Marked original simple
    decision.marks decision.reductions
  reduced : (context.subject pool decision.evaluation sideEffects).ReducedBy
    context.around.settings.simplify original

theorem Decided.ruled {context : MethodContext} {pool : ConstantPool} {decision : Decision}
    {sideEffects : IndexSet} {entry : Frame} {original : Reductions} {simple : Evaluation}
    (h : context.Decided pool decision sideEffects entry original simple) :
    context.Ruled pool decision sideEffects entry original simple :=
  ⟨h.faithful.recounted, h.effects, h.presence.marked, h.reduced⟩

theorem ruled_of_decide {context : MethodContext} {pool : ConstantPool} {decision : Decision}
    (h : context.decide pool = .ok decision) (hsize : context.code.bytes.length ≤ UInt32.size) :
    ∃ sideEffects entry original simple,
      context.Ruled pool decision sideEffects entry original simple ∧
      reductions context.around.settings.simplify decision.evaluation sideEffects =
        .ok original := by
  obtain ⟨evaluation, hevaluate, hdecide⟩ := Except.bind_eq_ok.mp h
  obtain ⟨sideEffects, heffects, hdecide⟩ := Except.bind_eq_ok.mp hdecide
  obtain ⟨original, hreductions, hdecide⟩ := Except.bind_eq_ok.mp hdecide
  obtain ⟨⟨marks, reductions⟩, hmark, hdecision⟩ := Except.bind_eq_ok.mp hdecide
  cases hdecision
  obtain ⟨entry, hrecounted⟩ := recounted_of_evaluate hevaluate hsize
  obtain ⟨simple, hmarked⟩ := Subject.marked_of_mark hmark
  exact ⟨sideEffects, entry, original, simple, ⟨hrecounted, heffects, hmarked,
    fun offset reduction hr => reduced_of_reductions hrecounted.listing hreductions hr⟩,
    hreductions⟩

namespace Ruled

variable {context : MethodContext} {pool : ConstantPool} {decision : Decision}
  {sideEffects : IndexSet} {entry : Frame} {original : Reductions} {simple : Evaluation}
  {offset successor : Nat} {instruction : Instruction} {reduction : Reduction}
  (h : context.Ruled pool decision sideEffects entry original simple)

include h

theorem settled (hr : decision.marks.reachable.contains offset = true) :
    ∃ before instruction step, decision.evaluation.before? offset = some before ∧
      decision.evaluation.Settled context.preciseOptions pool context.code.handlers offset before
        instruction step := by
  obtain ⟨before, hb⟩ := Option.isSome_iff_exists.mp
    (h.recounted.closed.traced offset (h.marked.reaches.traced offset hr))
  obtain ⟨instruction, step, hsettled⟩ := h.recounted.closed.settled offset before hb
  exact ⟨before, instruction, step, hb, hsettled⟩

theorem reachable_of_leads (hr : decision.marks.reachable.contains offset = true)
    (hl : decision.evaluation.Leads offset successor) :
    decision.marks.reachable.contains successor = true := by
  obtain ⟨frame, instruction, step, -, -, -, -, after, hafter, -⟩ := h.recounted.took hl
  obtain ⟨_, _, hsettled⟩ := h.recounted.closed.settled _ _ hafter
  exact (h.marked.reaches.leads offset successor hr hl hsettled.traced).resolve_right
    List.not_mem_nil

/-- A reduced instruction continues where its reduction says, or behind it. -/
theorem eq_of_reduced (hl : decision.evaluation.Leads offset successor)
    (horiginal : original[offset]? = some (some reduction)) :
    reduction = .goto successor ∨
      successor = decision.evaluation.nextOffset offset ∧ ∀ target, reduction ≠ .goto target := by
  obtain ⟨instruction, hreduces⟩ := h.reduced offset reduction horiginal
  by_cases hpushes : reduction.Pushes
  · refine .inr ⟨h.recounted.eq_nextOffset_of_leads hreduces.listed (hreduces.pushed hpushes).1 hl, ?_⟩
    rintro target rfl
    exact Reduction.not_pushes_goto _ hpushes
  · rcases eq_of_reduceBranch? (hreduces.branches hpushes).2 hl with ⟨rfl, hnext⟩ | hgoto
    · exact .inr ⟨hnext, nofun⟩
    · exact .inl hgoto

/-- Loops are not among the reductions that marking starts with. -/
theorem ne_loop (offset : Nat) : original[offset]? ≠ some (some .loop) := by
  intro horiginal
  obtain ⟨instruction, hreduces⟩ := h.reduced offset .loop horiginal
  obtain ⟨targets, -, hreduction⟩ :=
    Except.bind_eq_ok.mp (hreduces.branches Reduction.not_pushes_loop).2
  obtain ⟨target, -, hreduction⟩ := Option.map_eq_some_iff.mp (Except.ok.inj hreduction)
  split at hreduction <;> cases hreduction

/-- Control continues at the head of a loop that is closed by a jump back. -/
theorem eq_of_backwardGoto? {reduction : Option Reduction} {head : Nat}
    (hl : decision.evaluation.Leads offset successor)
    (horiginal : original[offset]? = some reduction)
    (hgoto : (context.subject pool decision.evaluation sideEffects).backwardGoto? reduction
      offset = .ok (some head)) : successor = head := by
  rcases (Subject.backwardGoto?_eq_some hgoto).2 with
    hreduction | ⟨-, instruction, targets, hi, hop, htargets, hhead⟩
  · subst hreduction
    rcases h.eq_of_reduced hl horiginal with hreduction | ⟨-, hne⟩
    · cases hreduction
      rfl
    · exact absurd rfl (hne head)
  · obtain ⟨frame, instruction', step, -, hi', he, hs, -⟩ := h.recounted.took hl
    cases hi.symm.trans hi'
    have hwf : instruction.WellFormed := wellFormed_of_decodeAll
      (Listing.ofCode_eq_ok h.recounted.listing).1 (offset, instruction)
      ((Listing.get?_eq_some_iff h.recounted.listing).mp hi)
    cases hwf.targets_of_branch (.inr (congrArg Operation.flow hop)) htargets hhead
    rw [(Context.jump_of_execute he hop).1] at htargets
    rw [Except.ok.inj htargets] at hs
    exact List.mem_singleton.mp hs

end Ruled

/-- A decision about a method body with the edits that follow from it. -/
structure Carried (context : MethodContext) (pool pool' : ConstantPool) (decision : Decision)
    (sideEffects : IndexSet) (entry : Frame) (original : Reductions) (simple : Evaluation)
    (repair : RepairState) (live : IndexSet) : Prop
    extends context.Ruled pool decision sideEffects entry original simple where
  live : (context.subject pool decision.evaluation sideEffects).liveCode decision.marks = .ok live
  repaired : ∀ offset instruction, decision.evaluation.instruction? offset = some instruction →
    decision.Repaired pool pool' repair offset instruction
  kept : ∀ offset, repair.keptPops.contains offset = true →
    decision.KeepsFor pool decision.evaluation.instructions offset

namespace Carried

variable {context : MethodContext} {pool pool' : ConstantPool} {decision : Decision}
  {sideEffects : IndexSet} {entry : Frame} {original : Reductions} {simple : Evaluation}
  {repair : RepairState} {live : IndexSet} {instruction : Instruction} {offset successor : Nat}
  {body : List (Nat × Instruction)} {placed : List (Nat × Nat)} {size : Nat}
  (h : context.Carried pool pool' decision sideEffects entry original simple repair live)

include h

/-! ## Dead code -/

/-- What is necessary is live. -/
theorem live_of_necessary (hn : decision.marks.necessary.contains offset = true) :
    live.contains offset = true :=
  (Subject.liveCode_spec h.live).1 offset hn

theorem not_necessary_of_dead (hdead : live.contains offset = false) :
    decision.marks.necessary.contains offset = false := by
  refine Bool.eq_false_iff.mpr fun hn => ?_
  rw [h.live_of_necessary hn] at hdead
  cases hdead

/-- **Nothing is emitted for dead code**, pops that are kept apart. -/
theorem emitted_eq_nil (hi : decision.evaluation.instruction? offset = some instruction)
    (hkept : repair.keptPops.contains offset = false) (hdead : live.contains offset = false) :
    (repair.edit.site offset).emitted instruction = [] := by
  obtain ⟨-, -, hreachable⟩ := Subject.liveCode_spec h.live
  obtain ⟨old, new, keeps, hold, -, -, hemits, -⟩ := h.repaired offset instruction hi
  rw [hkept] at hemits
  have hunnecessary {p : Prop} (hn : decision.marks.necessary.contains offset = true) : p := by
    rw [h.live_of_necessary hn] at hdead
    cases hdead
  generalize (repair.edit.site offset).emitted instruction = code at hemits ⊢
  have hleaves (hr : decision.marks.reachable.contains offset = true) :=
    (hreachable offset hr).resolve_left (by rw [hdead]; exact Bool.false_ne_true)
  cases hemits with
  | unreachable => rfl
  | keptPop _ _ hk => cases hk
  | @shuffle before inputs outputs plan hr hs _ hb hw hp =>
    have hplan := hleaves hr
    have hinstruction : (context.subject pool decision.evaluation sideEffects).instruction offset =
        .ok instruction := (orDefect_eq_ok ..).mpr hi
    have hstack : (context.subject pool decision.evaluation sideEffects).stackBefore offset =
        .ok before := (orDefect_eq_ok ..).mpr hb
    unfold Subject.leavesCode at hplan
    simp only [hinstruction, hstack, hs, hw, hp, bind, Except.bind, pure, Except.pure, if_true,
      Except.ok.injEq, Option.all_some, Bool.not_eq_false', List.isEmpty_iff] at hplan
    rw [hplan]
    rfl
  | @unnecessary effect reduction output placeholder pops hhandles hn ho hplaceholder hp =>
    obtain ⟨before, instruction', step, -, hs⟩ := h.settled hhandles.reachable
    cases hi.symm.trans hs.listed
    obtain ⟨effect', -, he, -⟩ := Context.execute_words hs.execute
    cases hhandles.effect.symm.trans (instruction.stable_stackEffect _ _ _ hold he)
    obtain ⟨stack, hstack, htaken, hgiven⟩ :=
      Subject.absent_of_leavesCode (hleaves hhandles.reachable) hi hhandles.not_shuffle he
    have hnone := Decision.presentOutput_eq_none ho hgiven
    have hpops : pops = [] := by
      rcases hp with ⟨-, hpops⟩ | hp
      · exact hpops
      · obtain ⟨frame, hb, rfl⟩ := Option.map_eq_some_iff.mp hstack
        obtain ⟨-, rfl⟩ := Decision.inputPops_eq_ok hb hp
        exact Marks.popsDownTo_eq_nil htaken
    obtain ⟨-, rfl⟩ := hplaceholder.resolve_right (by
      rintro ⟨_, _, hsome, -⟩
      rw [hnone] at hsome
      cases hsome)
    rw [hpops]
    rfl
  | stays _ hn => exact hunnecessary hn
  | call _ hn => exact hunnecessary hn
  | discards _ hn => exact hunnecessary hn
  | keeps _ hn => exact hunnecessary hn
  | constant _ hn => exact hunnecessary hn
  | «alias» _ hn => exact hunnecessary hn
  | goto _ hn => exact hunnecessary hn
  | loop _ hn => exact hunnecessary hn
  | drop _ hn => exact hunnecessary hn

/-! ## Pops that are kept -/

/-- **Only the instruction that a pop is kept for leads to it.** -/
theorem eq_of_leads_kept (hkept : repair.keptPops.contains successor = true)
    (hl : decision.evaluation.Leads offset successor) : ∃ instruction old new isKept code,
      decision.evaluation.instruction? offset = some instruction ∧ pool.Extends old ∧
      decision.Emits old new offset instruction isKept code (some successor) := by
  obtain ⟨⟨producer, instruction⟩, hmem, old, new, isKept, code, hold, hemits⟩ :=
    h.kept successor hkept
  have hi := (Listing.get?_eq_some_iff h.recounted.listing).mpr hmem
  suffices offset = producer by
    subst this
    exact ⟨instruction, old, new, isKept, code, hi, hold, hemits⟩
  cases hemits with
  | @keeps effect _ hhandles hn ho hcall hpushes hdiscards =>
    obtain ⟨rfl, -, pop, stack, top, hpop, hopcode, hstack, htop, hproducers⟩ :=
      Decision.discardingPop?_eq_some hdiscards
    obtain ⟨next, hn', rfl⟩ := Option.map_eq_some_iff.mp hstack
    have hflow : instruction.flow = .sequential := by
      by_contra hflow
      have := Instruction.pushes_of_flow hhandles.effect hflow hcall
      omega
    have hpops : pop.stackEffect pool = .ok ⟨(Shuffle.popOf effect.pushes).pops, 0⟩ := by
      rw [stackEffect_of_shuffle (Instruction.operation_of_popOf hopcode) pool]
      unfold Shuffle.popOf
      split <;> rfl
    have hpos : 0 < (Shuffle.popOf effect.pushes).pops := by
      unfold Shuffle.popOf
      split <;> decide
    have honly : top.producers.elements = [.instruction producer] := by
      rw [hproducers, Origin.ofInstruction,
        recordedOffset_of_lt (h.recounted.lt_of_instruction? hi)]
    exact h.recounted.eq_of_leads_pop hi hflow hpop hpops hpos hn' htop honly hl

/-- An instruction that is not necessary leads to no pop that is kept. -/
theorem not_kept_of_leads (hn : decision.marks.necessary.contains offset = false)
    (hl : decision.evaluation.Leads offset successor) :
    repair.keptPops.contains successor = false := by
  refine Bool.eq_false_iff.mpr fun hkept => ?_
  obtain ⟨_, _, _, _, _, -, -, hemits⟩ := h.eq_of_leads_kept hkept hl
  rw [hemits.necessary_of_keeps] at hn
  cases hn

/-- The instruction behind one that is not necessary is no pop that is kept. -/
theorem not_kept_nextOffset (hi : decision.evaluation.instruction? offset = some instruction)
    (hn : decision.marks.necessary.contains offset = false) :
    repair.keptPops.contains (decision.evaluation.nextOffset offset) = false := by
  refine Bool.eq_false_iff.mpr fun hkept => ?_
  obtain ⟨⟨producer, instruction'⟩, hmem, _, _, _, _, -, hemits⟩ := h.kept _ hkept
  have hlisting := h.recounted.listing
  obtain rfl := Listing.nextOffset_injective hlisting (Option.isSome_of_eq_some hi)
    (Option.isSome_of_eq_some ((Listing.get?_eq_some_iff hlisting).mpr hmem))
    hemits.eq_nextOffset_of_keeps
  rw [hemits.necessary_of_keeps] at hn
  cases hn

/-- Only pops are kept. -/
theorem isShuffle_of_kept (hi : decision.evaluation.instruction? offset = some instruction)
    (hkept : repair.keptPops.contains offset = true) : instruction.isShuffle = true := by
  obtain ⟨_, _, _, _, _, _, -, hemits⟩ := h.kept offset hkept
  cases hemits with
  | @keeps effect _ _ _ _ _ _ hdiscards =>
    obtain ⟨rfl, -, pop, -, -, hpop, hopcode, -⟩ := Decision.discardingPop?_eq_some hdiscards
    cases hi.symm.trans hpop
    rw [Instruction.isShuffle,
      Instruction.shuffle?_eq_some_iff.mpr (Instruction.operation_of_popOf hopcode)]
    rfl

/-! ## Dead stretches of code -/

/-- **A dead stretch of code has no extent in the new code**, unless it starts with a pop that is
kept for the instruction before. -/
theorem moved_eq (hlays : repair.edit.Lays decision.evaluation.instructions body placed size)
    {first last : Nat} (hle : first ≤ last)
    (hbound : ∀ o instruction, decision.evaluation.instruction? o = some instruction → o < first →
      decision.evaluation.nextOffset o ≤ first)
    (hkept : repair.keptPops.contains first = false)
    (hdead : ∀ o instruction, decision.evaluation.instruction? o = some instruction → first ≤ o →
      o < last → live.contains o = false) :
    Edit.moved placed size first = Edit.moved placed size last := by
  refine hlays.moved_eq hle fun offset instruction hmem hge hlt => ?_
  have hlisting := h.recounted.listing
  have hi := (Listing.get?_eq_some_iff hlisting).mpr hmem
  refine h.emitted_eq_nil hi ?_ (hdead offset _ hi hge hlt)
  refine Bool.eq_false_iff.mpr fun hcontains => ?_
  obtain ⟨⟨producer, instruction'⟩, hmem', old, new, isKept, code, -, hemits⟩ :=
    h.kept offset hcontains
  have hi' := (Listing.get?_eq_some_iff hlisting).mpr hmem'
  have hnext : offset = decision.evaluation.nextOffset producer := hemits.eq_nextOffset_of_keeps
  have hafter : producer < decision.evaluation.nextOffset producer := Listing.lt_nextOffset hi'
  have hlive := h.live_of_necessary hemits.necessary_of_keeps
  by_cases hbefore : producer < first
  · have := hbound producer instruction' hi' hbefore
    rw [show offset = first by omega, hkept] at hcontains
    cases hcontains
  · rw [hdead producer _ hi' (by omega) (by omega)] at hlive
    cases hlive

/-- Where control goes from an instruction that is not necessary, it passes no live code. -/
theorem dead_of_unnecessary (hr : decision.marks.reachable.contains offset = true)
    (hn : decision.marks.necessary.contains offset = false)
    (hi : decision.evaluation.instruction? offset = some instruction)
    (hbranches : successor = decision.evaluation.nextOffset offset ∨
      instruction.flow = .conditional ∨ instruction.flow = .unconditional ∨
      instruction.flow = .switch)
    (hl : decision.evaluation.Leads offset successor) :
    (decision.evaluation.nextOffset offset ≤ successor ∧
        ∀ o, decision.evaluation.nextOffset offset ≤ o → o < successor →
          live.contains o = false) ∨
      successor ≤ offset ∧ ∀ o, successor ≤ o → o < offset → live.contains o = false := by
  by_cases hnext : successor = decision.evaluation.nextOffset offset
  · exact .inl ⟨Nat.le_of_eq hnext.symm, fun o hge hlt => absurd (hnext ▸ hlt) (Nat.not_lt.mpr hge)⟩
  have hdead := h.marked.dead_of_branchesTo h.reduced h.live hr hn
    (.inr ⟨instruction, hi, hbranches.resolve_left hnext, hl⟩)
  by_cases hle : decision.evaluation.nextOffset offset ≤ successor
  · exact .inl ⟨hle, fun o => (hdead o).1⟩
  · refine .inr ⟨?_, fun o => (hdead o).2⟩
    by_contra hgt
    obtain ⟨_, _, _, -, hsettled⟩ := h.settled (h.reachable_of_leads hr hl)
    exact hle (Listing.nextOffset_le h.recounted.listing (Option.isSome_of_eq_some hi)
      (Option.isSome_of_eq_some hsettled.listed) (Nat.lt_of_not_le hgt))

/-- What lies behind an instruction that is not necessary has moved to the same position as what
follows it, dead code apart. -/
theorem moved_eq_nextOffset
    (hlays : repair.edit.Lays decision.evaluation.instructions body placed size)
    (hn : decision.marks.necessary.contains offset = false)
    (hi : decision.evaluation.instruction? offset = some instruction)
    (hle : decision.evaluation.nextOffset offset ≤ successor)
    (hdead : ∀ o, decision.evaluation.nextOffset offset ≤ o → o < successor →
      live.contains o = false) :
    Edit.moved placed size successor =
      Edit.moved placed size (decision.evaluation.nextOffset offset) := by
  have hlisting := h.recounted.listing
  have hhere := Option.isSome_of_eq_some hi
  refine (h.moved_eq hlays hle (fun o instruction' ho hlt => ?_) (h.not_kept_nextOffset hi hn)
    fun o _ _ => hdead o).symm
  have hthere := Option.isSome_of_eq_some ho
  rcases Nat.lt_trichotomy o offset with hbefore | rfl | hbehind
  · exact (Listing.nextOffset_le hlisting hthere hhere hbefore).trans
      (Nat.le_of_lt (Listing.lt_nextOffset hi))
  · exact Nat.le_refl _
  · exact absurd hlt (Nat.not_lt.mpr (Listing.nextOffset_le hlisting hhere hthere hbehind))

/-- **A branch that goes leads over no code**: where it leads to has moved to where it stood, or to
where the instruction behind it is now. -/
theorem moved_eq_of_unnecessary
    (hlays : repair.edit.Lays decision.evaluation.instructions body placed size)
    (hr : decision.marks.reachable.contains offset = true)
    (hn : decision.marks.necessary.contains offset = false)
    (hi : decision.evaluation.instruction? offset = some instruction)
    (hbranches : successor = decision.evaluation.nextOffset offset ∨
      instruction.flow = .conditional ∨ instruction.flow = .unconditional ∨
      instruction.flow = .switch)
    (hl : decision.evaluation.Leads offset successor) :
    Edit.moved placed size successor =
        Edit.moved placed size (decision.evaluation.nextOffset offset) ∨
      Edit.moved placed size successor = Edit.moved placed size offset := by
  rcases h.dead_of_unnecessary hr hn hi hbranches hl with ⟨hle, hdead⟩ | ⟨hle, hdead⟩
  · exact .inl (h.moved_eq_nextOffset hlays hn hi hle hdead)
  · obtain ⟨_, _, _, -, hsettled⟩ := h.settled (h.reachable_of_leads hr hl)
    refine .inr (h.moved_eq hlays hle (fun o instruction' ho hlt => ?_) (h.not_kept_of_leads hn hl)
      fun o _ _ => hdead o)
    exact Listing.nextOffset_le h.recounted.listing (Option.isSome_of_eq_some ho)
      (Option.isSome_of_eq_some hsettled.listed) hlt

/-- A loop that is kept as a jump to itself is as empty in the new code. -/
theorem moved_eq_of_loop
    (hlays : repair.edit.Lays decision.evaluation.instructions body placed size)
    (hr : decision.marks.reachable.contains offset = true)
    (hloop : decision.reductions[offset]? = some (some .loop))
    (hl : decision.evaluation.Leads offset successor) :
    Edit.moved placed size successor = Edit.moved placed size offset := by
  rcases h.marked.loops offset with hsame | ⟨-, reduction, head, horiginal, hgoto, -⟩
  · exact absurd (hsame.symm.trans hloop) (h.ne_loop offset)
  obtain rfl := h.eq_of_backwardGoto? hl horiginal hgoto
  obtain ⟨live', hlive, -, hempty⟩ := h.marked.straddles
  cases h.live.symm.trans hlive
  have hdead := hempty offset reduction successor hloop horiginal hgoto
  obtain ⟨_, _, _, -, hsettled⟩ := h.settled (h.reachable_of_leads hr hl)
  refine h.moved_eq hlays (Subject.backwardGoto?_eq_some hgoto).1 (fun o _ ho hlt => ?_) ?_
    fun o _ _ => Subject.contains_eq_false_of_anyIn hdead
  · exact Listing.nextOffset_le h.recounted.listing (Option.isSome_of_eq_some ho)
      (Option.isSome_of_eq_some hsettled.listed) hlt
  · refine Bool.eq_false_iff.mpr fun hkept => ?_
    obtain ⟨_, _, _, _, _, -, -, hemits⟩ := h.eq_of_leads_kept hkept hl
    cases hemits with
    | keeps hhandles => cases hhandles.reduction.symm.trans hloop

end Carried

end MethodContext

end JvmTrim
