import JvmTrim.Proofs.Execution
import JvmTrim.Proofs.Vacancy

/-!
# Necessary code stays

Something is emitted for every necessary instruction. That fails for two kinds of instructions: a
stack manipulation is planned anew and may come to nothing, and a branch that is reduced to none is
replaced by pops at most. Neither is ever necessary. Words are followed through stack manipulations to
what they copy, and what a branch that falls through jumps over is nothing.

So a handler that protects a necessary instruction protects some code that is emitted.

## Main definitions

* `Subject.Remains`: instructions that are neither stack manipulations nor reduced to nothing
* `Subject.Justified`: why a mark is set

## Main results

* `MethodContext.Ruled.remains_of_necessary`: necessary instructions remain
* `MethodContext.Carried.emitted_ne_nil`: something is emitted for a necessary instruction
* `Subject.Marked.protects_of_live`: a live handler protects a necessary instruction
-/

namespace JvmTrim

theorem Instruction.isShuffle_of_flow {instruction : Instruction}
    (h : instruction.flow ≠ .sequential) : instruction.isShuffle = false := by
  refine isShuffle_eq_false fun move hop => h ?_
  rw [flow, hop]
  rfl

/-! ## Instructions with side effects -/

/-- An instruction is noted for its side effects only if it has some. -/
theorem MethodContext.hasSideEffects_of_contains {context : MethodContext} {pool : ConstantPool}
    {evaluation : Evaluation} {sideEffects : IndexSet} {offset : Nat}
    (h : context.sideEffects pool evaluation = .ok sideEffects)
    (hcontains : sideEffects.contains offset = true) :
    ∃ instruction, (offset, instruction) ∈ evaluation.instructions ∧
      context.around.hasSideEffects context.owner pool evaluation offset instruction = .ok true := by
  refine foldlM_invariant (fun found : IndexSet => found.contains offset = true →
    ∃ instruction, (offset, instruction) ∈ evaluation.instructions ∧
      context.around.hasSideEffects context.owner pool evaluation offset instruction = .ok true)
    ?_ (by simp) h hcontains
  rintro found ⟨o, instruction⟩ found' hmem hfound hstep hcontains
  dsimp only at hstep
  split at hstep
  · obtain ⟨effect, heffect, hstep⟩ := Except.bind_eq_ok.mp hstep
    cases effect with
    | false =>
      cases hstep
      exact hfound hcontains
    | true =>
      rw [(IndexSet.add_eq_ok hstep).2.2, Bool.or_eq_true, decide_eq_true_eq] at hcontains
      rcases hcontains with rfl | hcontains
      · exact ⟨instruction, hmem, heffect⟩
      · exact hfound hcontains
  · cases hstep
    exact hfound hcontains

/-- Stack manipulations have no side effects. -/
theorem Surroundings.isShuffle_of_hasSideEffects {around : Surroundings} {owner : String}
    {pool : ConstantPool} {evaluation : Evaluation} {offset : Nat} {instruction : Instruction}
    (h : around.hasSideEffects owner pool evaluation offset instruction = .ok true) :
    instruction.isShuffle = false := by
  refine Instruction.isShuffle_eq_false fun move hop => ?_
  unfold hasSideEffects at h
  simp only [hop, mayThrow, Bool.and_false] at h
  cases h

/-! ## Why a mark is set -/

/-- Whether something of an instruction is left if it is necessary: it is no stack manipulation, and
it is not reduced to nothing. -/
def Subject.Remains (subject : Subject) (original : Reductions) (offset : Nat) : Prop :=
  ∃ instruction, subject.evaluation.instruction? offset = some instruction ∧
    instruction.isShuffle = false ∧ original[offset]? ≠ some (some .drop)

/-- What is known of a mark from the reason why it is set: instructions that are necessary are
reachable and remain, and words that are needed have been put on the stack. -/
def Subject.Justified (subject : Subject) (original : Reductions) (reachable : IndexSet) :
    Mark → Prop
  | .necessary offset => reachable.contains offset = true ∧ subject.Remains original offset
  | .needed word => subject.evaluation.GivesWord subject.pool word.origin
  | .present _ => True

namespace MethodContext.Ruled

variable {context : MethodContext} {pool : ConstantPool} {decision : Decision}
  {sideEffects : IndexSet} {entry : Frame} {original : Reductions} {simple : Evaluation}
  {offset : Nat} {instruction : Instruction}
  (h : context.Ruled pool decision sideEffects entry original simple)

include h

/-- Only branches are reduced to jumps or to nothing. -/
theorem flow_of_reduced {reduction : Reduction} (hnot : ¬ reduction.Pushes)
    (hr : original[offset]? = some (some reduction)) : ∃ instruction,
      decision.evaluation.instruction? offset = some instruction ∧
      (instruction.flow = .conditional ∨ instruction.flow = .switch) := by
  obtain ⟨instruction, hreduces⟩ := h.reduced offset reduction hr
  exact ⟨instruction, hreduces.listed, (hreduces.branches hnot).1⟩

theorem remains_of_flow (hi : decision.evaluation.instruction? offset = some instruction)
    (hnot : instruction.isShuffle = false)
    (hflow : instruction.flow ≠ .conditional ∧ instruction.flow ≠ .switch) :
    (context.subject pool decision.evaluation sideEffects).Remains original offset := by
  refine ⟨instruction, hi, hnot, fun hdrop => ?_⟩
  obtain ⟨instruction', hi', hbranches⟩ := h.flow_of_reduced Reduction.not_pushes_drop hdrop
  cases hi.symm.trans hi'
  exact hbranches.elim hflow.1 hflow.2

theorem remains_of_call (hcall : offset ∈ decision.evaluation.initializerCalls) :
    (context.subject pool decision.evaluation sideEffects).Remains original offset := by
  obtain ⟨frame, instruction, step, receiver, hi, he, hevent⟩ :=
    h.recounted.history.calls offset hcall
  obtain ⟨member, hop, -, -⟩ := Context.initializer_of_event he hevent
  have hflow : instruction.flow = .sequential := by
    rw [Instruction.flow, hop]
    rfl
  refine h.remains_of_flow hi (Instruction.isShuffle_eq_false fun move hmove => ?_)
    (by simp [hflow])
  cases hop.symm.trans hmove

theorem remains_of_stores (hi : decision.evaluation.instruction? offset = some instruction)
    (hstores : instruction.Stores) :
    (context.subject pool decision.evaluation sideEffects).Remains original offset := by
  refine h.remains_of_flow hi (Instruction.isShuffle_eq_false fun move hmove => ?_)
    (hstores.flow_eq ▸ ⟨nofun, nofun⟩)
  rcases hstores with ⟨kind, slot, hop⟩ | hop <;> cases hop.symm.trans hmove

/-- What gives a word that copies nothing remains. -/
theorem remains_of_givesWord
    (hgives : decision.evaluation.GivesWord pool (.instruction offset)) {position : Nat}
    (hsource : (context.subject pool decision.evaluation sideEffects).sourcePosition offset
      position = .ok none) :
    (context.subject pool decision.evaluation sideEffects).Remains original offset := by
  obtain ⟨instruction, effect, hi, he, hpos⟩ := hgives
  have hbranches (hflow : instruction.flow ≠ .sequential)
      (hcall : instruction.flow ≠ .subroutine) : False := by
    have := Instruction.pushes_of_flow he hflow fun hop => hcall (by rw [Instruction.flow, hop]; rfl)
    omega
  refine h.remains_of_flow hi (Instruction.isShuffle_eq_false fun move hop => ?_)
    ⟨fun hflow => hbranches (by simp [hflow]) (by simp [hflow]),
      fun hflow => hbranches (by simp [hflow]) (by simp [hflow])⟩
  have hshuffle := Instruction.shuffle?_eq_some_iff.mpr hop
  obtain ⟨instruction', hi', hsource⟩ := Except.bind_eq_ok.mp hsource
  rw [Subject.instruction, orDefect_eq_ok] at hi'
  cases hi.symm.trans hi'
  cases (stackEffect_of_shuffle hop pool).symm.trans he
  have hcopies : move.copies = true := by
    cases move <;> first | rfl | exact absurd hpos (by decide)
  simp only [hshuffle, hcopies, Bool.not_true, Bool.false_eq_true, if_false] at hsource
  obtain ⟨before, -, hsource⟩ := Except.bind_eq_ok.mp hsource
  split at hsource
  · cases hsource
  · split at hsource
    · cases hsource
    · obtain ⟨_, -, hsource⟩ := Except.bind_eq_ok.mp hsource
      cases hsource

theorem justified_of_starts {mark : Mark}
    (hstart : (context.subject pool decision.evaluation sideEffects).Starts simple original
      decision.marks.reachable mark) :
    (context.subject pool decision.evaluation sideEffects).Justified original
      decision.marks.reachable mark := by
  cases hstart with
  | exception => trivial
  | initialization hinit hreach =>
    refine ⟨hreach, h.remains_of_call (List.mem_append_right _ ?_)⟩
    rw [show decision.evaluation.superInitialization = some _ from hinit]
    exact List.mem_singleton_self _
  | jump hi hjump hreach =>
    have hflow : Instruction.flow _ = .unconditional := congrArg Operation.flow hjump
    exact ⟨hreach, h.remains_of_flow hi (Instruction.isShuffle_of_flow (hflow ▸ nofun))
      (hflow ▸ ⟨nofun, nofun⟩)⟩
  | effect heffect hr hreach =>
    obtain ⟨instruction, hmem, hhas⟩ := hasSideEffects_of_contains h.effects heffect
    refine ⟨hreach, instruction, (Listing.get?_eq_some_iff h.recounted.listing).mpr hmem,
      Surroundings.isShuffle_of_hasSideEffects hhas, fun hdrop => ?_⟩
    cases hr.symm.trans hdrop
  | branch hi hflow hr hreach =>
    refine ⟨hreach, _, hi, Instruction.isShuffle_of_flow hflow, fun hdrop => ?_⟩
    cases hr.symm.trans hdrop
  | goto hr hreach =>
    obtain ⟨instruction, hi, hflow⟩ := h.flow_of_reduced (Reduction.not_pushes_goto _) hr
    refine ⟨hreach, instruction, hi, Instruction.isShuffle_of_flow fun hsequential => ?_,
      fun hdrop => ?_⟩
    · rcases hflow with hflow | hflow <;> cases hsequential.symm.trans hflow
    · cases hr.symm.trans hdrop
  | store hl hload ho hreach =>
    obtain ⟨entry', hsimple⟩ := recounted_of_evaluate h.marked.evaluated h.recounted.size
    have hsame : simple.listing = decision.evaluation.listing :=
      Except.ok.inj (hsimple.listing.symm.trans h.recounted.listing)
    obtain ⟨before, hb, rfl⟩ := Option.map_eq_some_iff.mp hl
    obtain ⟨instruction, hi, hstores⟩ :=
      (hsimple.credits hb).writes _ _ (Locals.load_eq_ok.mp hload) _ ho
    rw [Evaluation.instruction?, hsame] at hi
    exact ⟨hreach, h.remains_of_stores hi hstores⟩

theorem justified_of_follows {a b : Mark}
    (ha : (context.subject pool decision.evaluation sideEffects).Justified original
      decision.marks.reachable a)
    (hfollows : (context.subject pool decision.evaluation sideEffects).Follows original
      decision.marks.reachable a b) :
    (context.subject pool decision.evaluation sideEffects).Justified original
      decision.marks.reachable b := by
  cases hfollows with
  | operand hu hs he hp hw ho =>
    obtain ⟨before, hb, rfl⟩ := Option.map_eq_some_iff.mp hs
    exact (h.recounted.credits hb).gives _ _ hw _ ho
  | «variable» hreads hl hload ho hreach =>
    obtain ⟨before, hb, rfl⟩ := Option.map_eq_some_iff.mp hl
    obtain ⟨instruction, hi, hstores⟩ :=
      (h.recounted.credits hb).writes _ _ (Locals.load_eq_ok.mp hload) _ ho
    exact ⟨hreach, h.remains_of_stores hi hstores⟩
  | initializer hu hnew hc hreach =>
    refine ⟨hreach, h.remains_of_call (List.mem_append_left _ ?_)⟩
    exact List.mem_map.mpr ⟨_, mem_of_lookup_eq_some hc, rfl⟩
  | source hreach hsource hs hw ho =>
    obtain ⟨before, hb, rfl⟩ := Option.map_eq_some_iff.mp hs
    exact (h.recounted.credits hb).gives _ _ hw _ ho
  | producer hreach hsource => exact ⟨hreach, h.remains_of_givesWord ha hsource⟩
  | present | copied | partner | occurrence => trivial

/-- **Necessary instructions remain**, and they are reachable. -/
theorem remains_of_necessary (hn : decision.marks.necessary.contains offset = true) :
    decision.marks.reachable.contains offset = true ∧
      (context.subject pool decision.evaluation sideEffects).Remains original offset :=
  h.marked.induction
    ((context.subject pool decision.evaluation sideEffects).Justified original
      decision.marks.reachable)
    (fun _ hstart => h.justified_of_starts hstart)
    (fun _ _ _ ha hfollows => h.justified_of_follows ha hfollows) (.necessary offset) hn

end MethodContext.Ruled

/-- **Something is emitted for a necessary instruction.** -/
theorem MethodContext.Carried.emitted_ne_nil {context : MethodContext}
    {pool pool' : ConstantPool} {decision : Decision} {sideEffects : IndexSet} {entry : Frame}
    {original : Reductions} {simple : Evaluation} {repair : RepairState} {live : IndexSet}
    {offset : Nat} {instruction : Instruction}
    (h : context.Carried pool pool' decision sideEffects entry original simple repair live)
    (hi : decision.evaluation.instruction? offset = some instruction)
    (hn : decision.marks.necessary.contains offset = true) :
    (repair.edit.site offset).emitted instruction ≠ [] := by
  obtain ⟨hreach, instruction', hi', hnot, hdrop⟩ := h.remains_of_necessary hn
  cases hi.symm.trans hi'
  obtain ⟨old, new, keeps, -, -, -, hemits, -⟩ := h.repaired offset instruction hi
  generalize (repair.edit.site offset).emitted instruction = code at hemits
  cases hemits with
  | unreachable hr => exact absurd (hr.symm.trans hreach) Bool.false_ne_true
  | keptPop _ hs => exact absurd (hnot.symm.trans hs) Bool.false_ne_true
  | shuffle _ hs => exact absurd (hnot.symm.trans hs) Bool.false_ne_true
  | drop hhandles =>
    exact absurd (h.marked.loops.eq_of_ne_loop hhandles.reduction nofun) hdrop
  | unnecessary _ hn' => exact absurd (hn'.symm.trans hn) Bool.false_ne_true
  | stays | call | discards | keeps | «alias» => exact List.cons_ne_nil _ _
  | constant | goto | loop => exact List.append_ne_nil_of_right_ne_nil _ (List.cons_ne_nil _ _)

/-! ## Live handlers -/

/-- Whether a handler protects a necessary instruction. -/
def Marks.Protects (marks : Marks) (handler : Handler) : Prop :=
  ∃ offset, handler.start ≤ offset ∧ offset < handler.stop ∧ marks.necessary.contains offset = true

namespace Subject

variable {subject : Subject} {live : List Bool}

theorem exists_of_mem_liveTargets {target : Nat} (h : target ∈ subject.liveTargets live) :
    ∃ (index : Nat) (handler : Handler), subject.code.handlers[index]? = some handler ∧
      live[index]? = some true ∧ handler.target = target := by
  obtain ⟨⟨handler, isLive⟩, hmem, rfl⟩ := List.mem_map.mp h
  obtain ⟨hmem, hlive⟩ := List.mem_filter.mp hmem
  obtain ⟨index, hindex⟩ := List.mem_iff_getElem?.mp hmem
  obtain ⟨hhandler, hflag⟩ := List.getElem?_zip_eq_some.mp hindex
  exact ⟨index, handler, hhandler, hflag.trans (congrArg some hlive), rfl⟩

/-- A handler stays live if it is live and protects a necessary instruction. -/
theorem getElem?_stillLive {marks : Marks} {index : Nat} {handler : Handler}
    (hhandler : subject.code.handlers[index]? = some handler) :
    (subject.stillLive marks)[index]? = some true ↔
      marks.liveHandlers[index]? = some true ∧ marks.Protects handler := by
  have hzip (flag : Bool) : (subject.code.handlers.zip marks.liveHandlers)[index]? =
      some (handler, flag) ↔ marks.liveHandlers[index]? = some flag := by
    rw [List.getElem?_zip_eq_some, hhandler]
    simp
  rw [stillLive, List.getElem?_map, Option.map_eq_some_iff]
  constructor
  · rintro ⟨⟨handler', flag⟩, hmem, hflag⟩
    obtain ⟨hhandler', -⟩ := List.getElem?_zip_eq_some.mp hmem
    cases hhandler.symm.trans hhandler'
    obtain ⟨rfl, hany⟩ := Bool.and_eq_true_iff.mp hflag
    exact ⟨(hzip true).mp hmem, IndexSet.anyIn_iff.mp hany⟩
  · rintro ⟨hlive, hprotects⟩
    exact ⟨(handler, true), (hzip true).mpr hlive, IndexSet.anyIn_iff.mpr hprotects⟩

/-- **A live handler protects a necessary instruction.** -/
theorem Marked.protects_of_live {original reductions : Reductions} {simple : Evaluation}
    {marks : Marks} (h : subject.Marked original simple marks reductions) {index : Nat}
    {handler : Handler} (hhandler : subject.code.handlers[index]? = some handler)
    (hlive : marks.liveHandlers[index]? = some true) : marks.Protects handler :=
  ((getElem?_stillLive hhandler).mp (h.handlers.symm ▸ hlive)).2

end Subject

end JvmTrim
