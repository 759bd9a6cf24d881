import JvmTrim.Proofs.Heights
import JvmTrim.Proofs.Retention

/-!
# Branches that are not decided

A frame that covers another one knows less. So whatever a branch is decided to do on the covering
frame, it does on the covered one: a constant, a name or a null mark of a covering value is one of
the covered value too. The frame that is recorded for an offset covers every frame that arises
there. A branch that is decided on the recorded frame therefore went to the same place each time, and
it is reduced to that. Any other branch is recorded to lead everywhere that its operand says.

This is what makes the targets in the operands of a simplified body as good as the recorded ones. It
needs the reduction of branches to be switched on.

## Main results

* `Transfer.condition_of_covers`: what is decided stays decided on what is covered
* `Context.decided_or_open`: a branch goes on at one place, or everywhere
* `MethodContext.Ruled.leads_of_unreduced`: a branch that is not reduced leads everywhere it can
-/

namespace JvmTrim

/-! ## What covered values are known to be -/

theorem Value.isNull_eq_false_of_isNotNull {value : Value} (h : value.isNotNull = true) :
    value.isNull = false := by
  cases value with
  | reference r => cases r <;> first | rfl | cases h
  | _ => rfl

theorem Value.symbol?_of_isNull {value : Value} (h : value.isNull = true) :
    value.symbol? = none := by
  cases value with
  | reference r => cases r <;> first | rfl | cases h
  | _ => cases h

theorem Value.sameIdentity_of_isNull {a b : Value} (h : a.isNull = true ∨ b.isNull = true) :
    a.sameIdentity b = false := by
  rcases h with h | h
  · simp [sameIdentity, symbol?_of_isNull h]
  · simp only [sameIdentity, symbol?_of_isNull h]
    cases a.symbol? <;> simp

/-- A value with a name is no constant. -/
theorem Value.int?_of_sameIdentity {a b : Value} (h : a.sameIdentity b = true) :
    a.int? = none := by
  simp only [sameIdentity, Bool.and_eq_true] at h
  obtain ⟨⟨-, hs⟩, -⟩ := h
  cases a with
  | int a => cases a <;> first | rfl | cases hs
  | _ => rfl

section Operands

variable {a a' b b' : Value} (ha : a.Covers a') (hb : b.Covers b')

include ha

theorem nullness?_of_covers {null : Bool} (h : nullness? a = some null) :
    nullness? a' = some null := by
  unfold nullness? at h ⊢
  split at h
  · rename_i hn
    rwa [if_pos (ha.isNull hn)]
  · split at h
    · rename_i hn
      have hn' := ha.isNotNull hn
      rwa [if_neg (by simp [Value.isNull_eq_false_of_isNotNull hn']), if_pos hn']
    · cases h

include hb

theorem Value.Covers.sameIdentity (h : a.sameIdentity b = true) : a'.sameIdentity b' = true := by
  simp only [Value.sameIdentity, Bool.and_eq_true, beq_iff_eq, Option.isSome_iff_exists] at h ⊢
  obtain ⟨⟨hkind, symbol, hs⟩, hsame⟩ := h
  obtain ⟨hs', hk⟩ := ha.symbol? hs
  obtain ⟨ht', hk'⟩ := hb.symbol? (hsame ▸ hs)
  exact ⟨⟨(hk.trans hkind).trans hk'.symm, symbol, hs'⟩, hs'.trans ht'.symm⟩

theorem sameReference?_of_covers {same : Bool} (h : sameReference? a b = some same) :
    sameReference? a' b' = some same := by
  unfold sameReference? at h ⊢
  split at h
  · rename_i hyes
    rwa [if_pos]
    simp only [Bool.or_eq_true, Bool.and_eq_true] at hyes ⊢
    exact hyes.imp (fun hn => ⟨ha.isNull hn.1, hb.isNull hn.2⟩) (ha.sameIdentity hb)
  · split at h
    · rename_i hno
      simp only [Bool.or_eq_true, Bool.and_eq_true] at hno
      have hno' : a'.isNull = true ∧ b'.isNotNull = true ∨
          a'.isNotNull = true ∧ b'.isNull = true :=
        hno.imp (fun hn => ⟨ha.isNull hn.1, hb.isNotNull hn.2⟩)
          fun hn => ⟨ha.isNotNull hn.1, hb.isNull hn.2⟩
      rcases hno' with ⟨hnull, hnot⟩ | ⟨hnot, hnull⟩
      · simpa [hnull, hnot, Value.isNull_eq_false_of_isNotNull hnot,
          Value.sameIdentity_of_isNull (.inl hnull)] using h
      · simpa [hnull, hnot, Value.isNull_eq_false_of_isNotNull hnot,
          Value.sameIdentity_of_isNull (.inr hnull)] using h
    · cases h

end Operands

/-! ## What covered frames decide -/

namespace Transfer

variable {above below above' below' : Frame} {a b : Value}

/-- What is popped from a stack covers what is popped from a stack that it covers, and so does the
rest. -/
theorem pop_of_covers {count : Nat}
    (h : List.Forall₂ Slot.Covers above.stack.view below.stack.view)
    (ha : pop count above = .ok (a, above')) (hb : pop count below = .ok (b, below')) :
    a.Covers b ∧ List.Forall₂ Slot.Covers above'.stack.view below'.stack.view := by
  obtain ⟨-, hview, -, top, rest, htop, rfl⟩ := pop_eq_ok ha
  obtain ⟨-, hview', -, top', rest', htop', rfl⟩ := pop_eq_ok hb
  refine ⟨?_, hview ▸ hview' ▸ List.forall₂_drop _ h⟩
  rw [htop, htop', List.forall₂_cons] at h
  exact (Slot.covers_iff.mp h.1).1

theorem popKind_of_covers {kind : Kind}
    (h : List.Forall₂ Slot.Covers above.stack.view below.stack.view)
    (ha : popKind kind above = .ok (a, above')) (hb : popKind kind below = .ok (b, below')) :
    a.Covers b ∧ List.Forall₂ Slot.Covers above'.stack.view below'.stack.view := by
  obtain ⟨-, hview, -, -, top, rest, htop, rfl⟩ := popKind_eq_ok ha
  obtain ⟨-, hview', -, -, top', rest', htop', rfl⟩ := popKind_eq_ok hb
  refine ⟨?_, hview ▸ hview' ▸ List.forall₂_drop _ h⟩
  rw [htop, htop', List.forall₂_cons] at h
  exact (Slot.covers_iff.mp h.1).1

theorem eq_int?_of_expectInt {known : Option Int32} (h : a.expectInt = .ok known) :
    known = a.int? := by
  cases a with
  | int a =>
    cases h
    rfl
  | _ => cases h

/-- **What is decided stays decided** on what is covered. -/
theorem condition_of_covers {operation : Operation} {decided : Bool} {decided' : Option Bool}
    (h : List.Forall₂ Slot.Covers above.stack.view below.stack.view)
    (ha : condition operation above = .ok (some decided, above'))
    (hb : condition operation below = .ok (decided', below')) : decided' = some decided := by
  unfold condition at ha hb
  cases operation with
  | branchZero comparison =>
    obtain ⟨a, f, hpop, ha⟩ := StateT.bind_eq_ok.mp ha
    obtain ⟨b, g, hpop', hb⟩ := StateT.bind_eq_ok.mp hb
    obtain ⟨n, f', hn, ha⟩ := StateT.bind_eq_ok.mp ha
    obtain ⟨m, g', hm, hb⟩ := StateT.bind_eq_ok.mp hb
    obtain rfl := eq_int?_of_expectInt (StateT.liftM_eq_ok.mp hn).1
    obtain rfl := eq_int?_of_expectInt (StateT.liftM_eq_ok.mp hm).1
    obtain ⟨number, hnumber, rfl⟩ := Option.map_eq_some_iff.mp (StateT.pure_eq_ok.mp ha).1.symm
    rw [(StateT.pure_eq_ok.mp hb).1, (popKind_of_covers h hpop hpop').1.int? hnumber]
    rfl
  | branchInt comparison =>
    obtain ⟨b, f, hpopb, ha⟩ := StateT.bind_eq_ok.mp ha
    obtain ⟨a, f', hpopa, ha⟩ := StateT.bind_eq_ok.mp ha
    obtain ⟨x, _, hx, ha⟩ := StateT.bind_eq_ok.mp ha
    obtain ⟨y, _, hy, ha⟩ := StateT.bind_eq_ok.mp ha
    obtain ⟨d, g, hpopd, hb⟩ := StateT.bind_eq_ok.mp hb
    obtain ⟨c, g', hpopc, hb⟩ := StateT.bind_eq_ok.mp hb
    obtain ⟨z, _, hz, hb⟩ := StateT.bind_eq_ok.mp hb
    obtain ⟨w, _, hw, hb⟩ := StateT.bind_eq_ok.mp hb
    obtain rfl := eq_int?_of_expectInt (StateT.liftM_eq_ok.mp hx).1
    obtain rfl := eq_int?_of_expectInt (StateT.liftM_eq_ok.mp hy).1
    obtain rfl := eq_int?_of_expectInt (StateT.liftM_eq_ok.mp hz).1
    obtain rfl := eq_int?_of_expectInt (StateT.liftM_eq_ok.mp hw).1
    obtain ⟨hbd, h⟩ := popKind_of_covers h hpopb hpopd
    obtain ⟨hac, -⟩ := popKind_of_covers h hpopa hpopc
    have eq_of_same {frame frame' : Frame}
        (ha : (pure (if a.sameIdentity b then some comparison.isReflexive else none) :
          Transfer (Option Bool)) frame = .ok (some decided, frame')) :
        decided' = some decided := by
      obtain ⟨hsame, hreflexive⟩ := Option.ite_none_right_eq_some.mp
        (StateT.pure_eq_ok.mp ha).1.symm
      have hsame := hac.sameIdentity hbd hsame
      rw [Value.int?_of_sameIdentity hsame] at hb
      rw [← hreflexive, (StateT.pure_eq_ok.mp hb).1, if_pos hsame]
    cases hx : a.int? with
    | some x =>
      cases hy : b.int? with
      | some y =>
        rw [hx, hy] at ha
        rw [hac.int? hx, hbd.int? hy] at hb
        exact (StateT.pure_eq_ok.mp hb).1.trans (StateT.pure_eq_ok.mp ha).1.symm
      | none =>
        rw [hx, hy] at ha
        exact eq_of_same ha
    | none =>
      rw [hx] at ha
      exact eq_of_same ha
  | branchReference equal =>
    obtain ⟨b, f, hpopb, ha⟩ := StateT.bind_eq_ok.mp ha
    obtain ⟨a, f', hpopa, ha⟩ := StateT.bind_eq_ok.mp ha
    obtain ⟨d, g, hpopd, hb⟩ := StateT.bind_eq_ok.mp hb
    obtain ⟨c, g', hpopc, hb⟩ := StateT.bind_eq_ok.mp hb
    obtain ⟨hbd, h⟩ := pop_of_covers h hpopb hpopd
    obtain ⟨hac, -⟩ := pop_of_covers h hpopa hpopc
    obtain ⟨same, hsame, rfl⟩ := Option.map_eq_some_iff.mp (StateT.pure_eq_ok.mp ha).1.symm
    rw [(StateT.pure_eq_ok.mp hb).1, sameReference?_of_covers hac hbd hsame]
    rfl
  | branchNull null =>
    obtain ⟨a, f, hpop, ha⟩ := StateT.bind_eq_ok.mp ha
    obtain ⟨b, g, hpop', hb⟩ := StateT.bind_eq_ok.mp hb
    obtain ⟨isNull, hnull, rfl⟩ := Option.map_eq_some_iff.mp (StateT.pure_eq_ok.mp ha).1.symm
    rw [(StateT.pure_eq_ok.mp hb).1, nullness?_of_covers (pop_of_covers h hpop hpop').1 hnull]
    rfl
  | _ => cases (StateT.pure_eq_ok.mp ha).1

end Transfer

/-- **An execution of a branch goes on at one place**, and so do the executions on what is covered, or
it goes on everywhere. -/
theorem Context.decided_or_open {context : Context} {offset next : Nat} {instruction : Instruction}
    {above below : Frame} {step step' : Step} (hwf : instruction.WellFormed)
    (h : above.Covers below) (ha : context.execute offset next instruction above = .ok step)
    (hb : context.execute offset next instruction below = .ok step')
    (hflow : instruction.flow = .conditional ∨ instruction.flow = .switch) :
    (∃ target, step.successors = [target] ∧ step'.successors = [target]) ∨
      (∃ targets, instruction.branchTargets offset = .ok targets ∧
        ∀ target ∈ targets, target ∈ step.successors) ∧
      (instruction.fallsThrough = true → next ∈ step.successors) := by
  rcases hflow with hflow | hflow
  · obtain ⟨decision, target, hcondition, htarget, hsuccessors⟩ := branch_of_execute ha hflow
    obtain ⟨decision', target', hcondition', htarget', hsuccessors'⟩ := branch_of_execute hb hflow
    cases htarget.symm.trans htarget'
    rw [hsuccessors, hsuccessors']
    cases decision with
    | some decided =>
      rw [Transfer.condition_of_covers h.view hcondition hcondition']
      cases decided
      · exact .inl ⟨next, rfl, rfl⟩
      · exact .inl ⟨target, rfl, rfl⟩
    | none =>
      obtain ⟨htaken, hpassed⟩ := mem_branchSuccessors_none target next
      obtain ⟨targets, htargets, hfirst⟩ := firstTarget_eq_ok htarget
      obtain rfl := hwf.targets_of_branch (.inl hflow) htargets (List.head?_eq_getElem? ▸ hfirst)
      refine .inr ⟨⟨_, htargets, fun other hother => ?_⟩, fun _ => hpassed⟩
      obtain rfl := List.mem_singleton.mp hother
      exact htaken
  · obtain ⟨value, key, targets, hpop, hkey, htargets, hsuccessors⟩ := switch_of_execute ha hflow
    obtain ⟨value', key', targets', hpop', hkey', htargets', hsuccessors'⟩ :=
      switch_of_execute hb hflow
    cases htargets.symm.trans htargets'
    obtain rfl := Transfer.eq_int?_of_expectInt hkey
    obtain rfl := Transfer.eq_int?_of_expectInt hkey'
    rcases hsuccessors with ⟨hunknown, hall⟩ | ⟨number, target, hknown, hchosen, honly⟩
    · rw [hall]
      refine .inr ⟨⟨targets, htargets, fun target => mem_ascending.mpr⟩, fun hfalls => ?_⟩
      unfold Instruction.fallsThrough at hfalls
      rw [hflow] at hfalls
      cases hfalls
    · have hknown' := (Transfer.popKind_of_covers h.view hpop hpop').1.int? hknown
      rcases hsuccessors' with ⟨hunknown, -⟩ | ⟨number', target', hsame, hchosen', honly'⟩
      · cases hunknown.symm.trans hknown'
      · cases hsame.symm.trans hknown'
        cases hchosen.symm.trans hchosen'
        exact .inl ⟨target, honly, honly'⟩

/-! ## Reductions of branches -/

theorem OffsetSet.single?_of_forall {set : OffsetSet} {only : Nat} (hmem : only ∈ set.elements)
    (hall : ∀ offset ∈ set.elements, offset = only) : OffsetSet.single? set = some only := by
  obtain ⟨elements, hascending⟩ := set
  match elements with
  | [] => cases hmem
  | [first] => exact congrArg some (hall first List.mem_cons_self)
  | first :: second :: rest =>
    have hlt := (List.pairwise_cons.mp hascending).1 second List.mem_cons_self
    have hfirst := hall first List.mem_cons_self
    have hsecond := hall second (List.mem_cons_of_mem _ List.mem_cons_self)
    omega

/-- A branch leads to where it is reduced to. -/
theorem leads_of_reduceBranch? {evaluation : Evaluation} {offset : Nat} {reduction : Reduction}
    (h : reduceBranch? evaluation offset = .ok (some reduction)) :
    ∃ target, evaluation.Leads offset target ∧
      reduction = if target = evaluation.nextOffset offset then .drop else .goto target := by
  obtain ⟨set, hset, h⟩ := Except.bind_eq_ok.mp h
  obtain ⟨target, hsingle, rfl⟩ := Option.map_eq_some_iff.mp (Except.ok.inj h)
  unfold OffsetSet.single? at hsingle
  split at hsingle
  · rename_i only helements
    cases hsingle
    exact ⟨target, Evaluation.leads_iff.mpr ⟨set, hset, helements ▸ List.mem_singleton_self _⟩, rfl⟩
  · cases hsingle

/-- What is found for an instruction without side effects is what it reduces to on its own. -/
theorem reduce?_of_reductions {options : SimplifyOptions} {evaluation : Evaluation} {code : Code}
    {sideEffects : IndexSet} {found : Reductions} {offset : Nat} {instruction : Instruction}
    (hlisting : Listing.ofCode code.bytes = .ok evaluation.listing)
    (h : reductions options evaluation sideEffects = .ok found)
    (hi : evaluation.instruction? offset = some instruction)
    (ht : evaluation.isTraced offset = true) (hquiet : sideEffects.contains offset = false) :
    ∃ reduction, found[offset]? = some reduction ∧
      reduce? options evaluation offset instruction = .ok reduction := by
  unfold reductions at h
  obtain ⟨first, last, hsplit⟩ := List.append_of_mem ((Listing.get?_eq_some_iff hlisting).mp hi)
  change evaluation.listing.instructions.foldlM _ _ = _ at h
  rw [hsplit, List.foldlM_append] at h
  obtain ⟨before, -, h⟩ := Except.bind_eq_ok.mp h
  rw [List.foldlM_cons] at h
  obtain ⟨after, hset, h⟩ := Except.bind_eq_ok.mp h
  refine foldlM_invariant (fun found : Reductions => ∃ reduction, found[offset]? = some reduction ∧
    reduce? options evaluation offset instruction = .ok reduction) ?_ ?_ h
  · rintro found ⟨o, other⟩ found' hmem ⟨reduction, hreduction, hreduce⟩ hstep
    have hother : (o, other) ∈ evaluation.listing.instructions := by
      rw [hsplit]
      exact List.mem_append_right _ (List.mem_cons_of_mem _ hmem)
    dsimp only at hstep
    split at hstep
    · obtain ⟨reduced, hreduced, hstep⟩ := Except.bind_eq_ok.mp hstep
      obtain ⟨current, hcurrent, hstep⟩ := Except.bind_eq_ok.mp hstep
      cases hstep
      by_cases ho : o = offset
      · subst ho
        cases hi.symm.trans ((Listing.get?_eq_some_iff hlisting).mpr hother)
        rw [Array.getElem?_setIfInBounds_self_of_lt (Array.getElem?_eq_some_iff.mp hreduction).1]
        exact ⟨reduced, rfl, hreduced⟩
      · rw [Array.getElem?_setIfInBounds_ne ho]
        exact ⟨reduction, hreduction, hreduce⟩
    · cases hstep
      exact ⟨reduction, hreduction, hreduce⟩
  · simp only [ht, hquiet, Bool.not_false, Bool.and_self, if_true] at hset
    obtain ⟨reduced, hreduced, hset⟩ := Except.bind_eq_ok.mp hset
    obtain ⟨current, hcurrent, hset⟩ := Except.bind_eq_ok.mp hset
    rw [Reductions.at, orFail_eq_ok] at hcurrent
    cases hset
    rw [Array.getElem?_setIfInBounds_self_of_lt (Array.getElem?_eq_some_iff.mp hcurrent).1]
    exact ⟨reduced, rfl, hreduced⟩

/-- Branches have no side effects. -/
theorem Surroundings.hasSideEffects_of_branch {around : Surroundings} {owner : String}
    {pool : ConstantPool} {evaluation : Evaluation} {offset : Nat} {instruction : Instruction}
    (hflow : instruction.flow = .conditional ∨ instruction.flow = .switch) :
    around.hasSideEffects owner pool evaluation offset instruction = .ok false := by
  unfold Instruction.flow at hflow
  unfold hasSideEffects
  cases hop : instruction.operation
  case branchZero | branchInt | branchReference | branchNull | switch =>
    simp only [mayThrow, Bool.and_false]
    rfl
  all_goals simp [hop, Operation.flow] at hflow

theorem Instruction.operation_of_unconditional {instruction : Instruction}
    (h : instruction.flow = .unconditional) : instruction.operation = .jump := by
  unfold flow at h
  cases hop : instruction.operation
  case jump => rfl
  all_goals simp [hop, Operation.flow] at h

namespace MethodContext.Ruled

variable {context : MethodContext} {pool : ConstantPool} {decision : Decision}
  {sideEffects : IndexSet} {entry : Frame} {original : Reductions} {simple : Evaluation}
  {offset : Nat} {instruction : Instruction} {before : Frame} {step : Step}
  (h : context.Ruled pool decision sideEffects entry original simple)

include h

/-- An instruction leads wherever it goes on from its recorded frame. -/
theorem leads_of_settled (hs : decision.evaluation.Settled context.preciseOptions pool
      context.code.handlers offset before instruction step) {successor : Nat}
    (hmem : successor ∈ step.successors) : decision.evaluation.Leads offset successor := by
  obtain ⟨hl, hreceives⟩ := hs.successors successor hmem rfl
  rwa [recordedOffset_of_lt (h.recounted.lt_of_receives hreceives)] at hl

/-- A branch that is reduced to a jump leads to where it jumps. -/
theorem leads_of_goto {target : Nat} (horiginal : original[offset]? = some (some (.goto target))) :
    decision.evaluation.Leads offset target := by
  obtain ⟨instruction, hreduces⟩ := h.reduced offset _ horiginal
  obtain ⟨target', hl, heq⟩ :=
    leads_of_reduceBranch? (hreduces.branches (Reduction.not_pushes_goto target)).2
  split at heq
  · cases heq
  · cases heq
    exact hl

/-- A branch that is dropped leads to the next instruction. -/
theorem leads_of_drop (horiginal : original[offset]? = some (some .drop)) :
    decision.evaluation.Leads offset (decision.evaluation.nextOffset offset) := by
  obtain ⟨instruction, hreduces⟩ := h.reduced offset _ horiginal
  obtain ⟨target, hl, heq⟩ :=
    leads_of_reduceBranch? (hreduces.branches Reduction.not_pushes_drop).2
  split at heq
  · rename_i hnext
    exact hnext ▸ hl
  · cases heq

/-- A branch that is decided on its recorded frame is reduced. -/
theorem reduced_of_decided
    (hreductions : reductions context.around.settings.simplify decision.evaluation sideEffects =
      .ok original) (hbranches : context.around.settings.simplify.simplifyBranches = true)
    (hr : decision.marks.reachable.contains offset = true)
    (hi : decision.evaluation.instruction? offset = some instruction)
    (hflow : instruction.flow = .conditional ∨ instruction.flow = .switch) {only : Nat}
    (honly : ∀ successor, decision.evaluation.Leads offset successor ↔ successor = only) :
    ∃ reduction, original[offset]? = some (some reduction) := by
  have hquiet : sideEffects.contains offset = false := by
    refine Bool.eq_false_iff.mpr fun hcontains => ?_
    obtain ⟨instruction', hmem, heffect⟩ := hasSideEffects_of_contains h.effects hcontains
    cases hi.symm.trans ((Listing.get?_eq_some_iff h.recounted.listing).mpr hmem)
    rw [Surroundings.hasSideEffects_of_branch hflow] at heffect
    cases heffect
  obtain ⟨reduction, hfound, hreduce⟩ := reduce?_of_reductions h.recounted.listing hreductions hi
    (h.marked.reaches.traced offset hr) hquiet
  obtain ⟨set, hset, hmem⟩ := Evaluation.leads_iff.mp ((honly only).mpr rfl)
  have hsingle := OffsetSet.single?_of_forall hmem fun successor hsuccessor =>
    (honly successor).mp (Evaluation.leads_iff.mpr ⟨set, hset, hsuccessor⟩)
  have hsome : reduceBranch? decision.evaluation offset = .ok (some
      (if only = decision.evaluation.nextOffset offset then .drop else .goto only)) := by
    simp only [reduceBranch?, hset, hsingle, bind, Except.bind, pure, Except.pure, Option.map_some]
  have hsame : reduce? context.around.settings.simplify decision.evaluation offset instruction =
      reduceBranch? decision.evaluation offset := by
    unfold reduce?
    rcases hflow with hflow | hflow
    · rw [hflow]
      exact if_pos hbranches
    · rw [hflow]
      exact if_pos hbranches
  cases (hreduce.symm.trans hsame).trans hsome
  exact ⟨_, hfound⟩

/-- **A branch that is not reduced leads everywhere** that its operand says, and to the next
instruction if it may fall through. -/
theorem leads_of_unreduced
    (hreductions : reductions context.around.settings.simplify decision.evaluation sideEffects =
      .ok original) (hbranches : context.around.settings.simplify.simplifyBranches = true)
    (hr : decision.marks.reachable.contains offset = true)
    (hi : decision.evaluation.instruction? offset = some instruction)
    (hflow : instruction.flow = .conditional ∨ instruction.flow = .unconditional ∨
      instruction.flow = .switch) (horiginal : original[offset]? = some none) :
    (∃ targets, instruction.branchTargets offset = .ok targets ∧
        ∀ target ∈ targets, decision.evaluation.Leads offset target) ∧
      (instruction.fallsThrough = true →
        decision.evaluation.Leads offset (decision.evaluation.nextOffset offset)) := by
  obtain ⟨before, instruction', step, hb, hs⟩ := h.settled hr
  cases hi.symm.trans hs.listed
  have hcases : instruction.flow = .unconditional ∨
      instruction.flow = .conditional ∨ instruction.flow = .switch := or_left_comm.mp hflow
  rcases hcases with hjump | hbranch
  · obtain ⟨htargets, -⟩ :=
      Context.jump_of_execute hs.execute (Instruction.operation_of_unconditional hjump)
    refine ⟨⟨step.successors, htargets, fun target => h.leads_of_settled hs⟩, fun hfalls => ?_⟩
    · unfold Instruction.fallsThrough at hfalls
      rw [hjump] at hfalls
      cases hfalls
  have hwf : instruction.WellFormed := wellFormed_of_decodeAll
    (Listing.ofCode_eq_ok h.recounted.listing).1 (offset, instruction)
    ((Listing.get?_eq_some_iff h.recounted.listing).mp hi)
  by_contra hnot
  have hopen : ¬ ((∃ targets, instruction.branchTargets offset = .ok targets ∧
      ∀ target ∈ targets, target ∈ step.successors) ∧
      (instruction.fallsThrough = true →
        decision.evaluation.nextOffset offset ∈ step.successors)) := by
    rintro ⟨⟨targets, htargets, hall⟩, hnext⟩
    exact hnot ⟨⟨targets, htargets, fun target hmem => h.leads_of_settled hs (hall target hmem)⟩,
      fun hfalls => h.leads_of_settled hs (hnext hfalls)⟩
  obtain ⟨only, honly, -⟩ := (Context.decided_or_open hwf (Frame.covers_refl before) hs.execute
    hs.execute hbranch).resolve_right hopen
  have hleads (successor : Nat) :
      decision.evaluation.Leads offset successor ↔ successor = only := by
    constructor
    · intro hl
      obtain ⟨frame, instruction', step', ha, hi', he, hmem, -⟩ := h.recounted.took hl
      cases hi.symm.trans hi'
      obtain ⟨before', hb', hcovers⟩ := ha.receives
      cases hb.symm.trans hb'
      obtain ⟨target, hsame, hsame'⟩ := (Context.decided_or_open hwf hcovers hs.execute he
        hbranch).resolve_right hopen
      rw [honly] at hsame
      rw [hsame'] at hmem
      cases hsame
      exact List.mem_singleton.mp hmem
    · rintro rfl
      exact h.leads_of_settled hs (honly ▸ List.mem_singleton_self _)
  obtain ⟨reduction, hreduction⟩ :=
    h.reduced_of_decided hreductions hbranches hr hi hbranch hleads
  cases hreduction.symm.trans horiginal

end MethodContext.Ruled

end JvmTrim
