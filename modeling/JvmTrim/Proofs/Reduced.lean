import JvmTrim.Proofs.Presence
import JvmTrim.Simplify.Body

/-!
# Reductions and what they leave on the stack

A reduction that pushes a value stands in for an instruction that pushes one of the same size. Such an
instruction is necessary only because what it gives is needed, so that what it gives is present; the
one exception would be the call of an initializer with a known result, which no class can declare.

## Main definitions

* `Assumptions.IgnoreInitializers`: nothing is assumed about results of initializers

## Main results

* `reduced_of_reductions`: where reductions come from
* `Subject.Presence.isPresent_of_reduced`: what a necessary reduced push gives is present
-/

namespace JvmTrim

/-- Whether no constant is assumed to be the result of an initializer. -/
def Assumptions.IgnoreInitializers (assumptions : Assumptions) : Prop :=
  ∀ member value, member.isInitializer = true → assumptions.result member = some value →
    value.isParticular = false

/-! ## Where reductions come from -/

/-- Whether the instruction at an offset is reached and has the reduction, seen on its own. -/
structure Evaluation.Reduces (evaluation : Evaluation) (options : SimplifyOptions)
    (sideEffects : IndexSet) (offset : Nat) (instruction : Instruction) (reduction : Reduction) :
    Prop where
  listed : evaluation.instruction? offset = some instruction
  traced : evaluation.isTraced offset = true
  quiet : sideEffects.contains offset = false
  reduce : reduce? options evaluation offset instruction = .ok (some reduction)

theorem reduced_of_reductions {options : SimplifyOptions} {evaluation : Evaluation} {code : Code}
    {sideEffects : IndexSet} {found : Reductions}
    (hlisting : Listing.ofCode code.bytes = .ok evaluation.listing)
    (h : reductions options evaluation sideEffects = .ok found) {offset : Nat}
    {reduction : Reduction} (hr : found[offset]? = some (some reduction)) :
    ∃ instruction, evaluation.Reduces options sideEffects offset instruction reduction := by
  refine foldlM_invariant (fun found : Reductions => ∀ (offset : Nat) reduction,
    found[offset]? = some (some reduction) →
      ∃ instruction, evaluation.Reduces options sideEffects offset instruction reduction)
    ?_ ?_ h offset reduction hr
  · rintro found ⟨o, instruction⟩ found' hmem ih hstep offset reduction hr
    dsimp only at hstep
    split at hstep
    · rename_i hcond
      obtain ⟨reduced, hreduce, hstep⟩ := Except.bind_eq_ok.mp hstep
      obtain ⟨-, -, hstep⟩ := Except.bind_eq_ok.mp hstep
      cases hstep
      rw [Array.getElem?_setIfInBounds] at hr
      split at hr
      · rename_i heq
        subst heq
        split at hr
        · cases hr
          rw [Bool.and_eq_true, Bool.not_eq_true'] at hcond
          exact ⟨instruction, (Listing.get?_eq_some_iff hlisting).mpr hmem, hcond.1, hcond.2,
            hreduce⟩
        · cases hr
      · exact ih offset reduction hr
    · cases hstep
      exact ih offset reduction hr
  · intro offset reduction hr
    rw [Array.getElem?_replicate] at hr
    split at hr <;> cases hr

/-- Whether a reduction pushes a value. -/
def Reduction.Pushes (reduction : Reduction) : Prop :=
  (∃ value, reduction = .constant value) ∨ ∃ slot, reduction = .alias slot

@[simp]
theorem Reduction.not_pushes_goto (target : Nat) : ¬ (Reduction.goto target).Pushes := by
  rintro (⟨_, hgoto⟩ | ⟨_, hgoto⟩) <;> cases hgoto

@[simp]
theorem Reduction.not_pushes_drop : ¬ Reduction.drop.Pushes := by
  rintro (⟨_, hdrop⟩ | ⟨_, hdrop⟩) <;> cases hdrop

@[simp]
theorem Reduction.not_pushes_loop : ¬ Reduction.loop.Pushes := by
  rintro (⟨_, hloop⟩ | ⟨_, hloop⟩) <;> cases hloop

/-- A reduction to a push is the reduction of a value that is pushed. -/
theorem Evaluation.Reduces.pushed {evaluation : Evaluation} {options : SimplifyOptions}
    {sideEffects : IndexSet} {offset : Nat} {instruction : Instruction} {reduction : Reduction}
    (h : evaluation.Reduces options sideEffects offset instruction reduction)
    (hpush : reduction.Pushes) : instruction.flow = .sequential ∧ instruction.isShuffle = false ∧
      ∃ value, evaluation.pushedValue? offset = some value ∧
        reducePush? options instruction (evaluation.localsBefore? offset) value =
          some reduction := by
  have hreduce := h.reduce
  have hbranch (hb : (if options.simplifyBranches then reduceBranch? evaluation offset
      else return none) = .ok (some reduction)) : False := by
    split at hb
    · obtain ⟨targets, -, hb⟩ := Except.bind_eq_ok.mp hb
      obtain ⟨target, -, hb⟩ := Option.map_eq_some_iff.mp (Except.ok.inj hb)
      split at hb <;> rcases hpush with ⟨value, rfl⟩ | ⟨slot, rfl⟩ <;> cases hb
    · cases hb
  unfold reduce? at hreduce
  split at hreduce
  · exact absurd hreduce hbranch
  · exact absurd hreduce hbranch
  · rename_i hflow
    dsimp only at hreduce
    split at hreduce
    · cases hreduce
    · rename_i hshuffle
      obtain ⟨value, hvalue, hreduce⟩ := Option.bind_eq_some_iff.mp (Except.ok.inj hreduce)
      exact ⟨hflow, by simpa using hshuffle, value, hvalue, hreduce⟩
  · cases hreduce

theorem reducePush?_eq_constant {options : SimplifyOptions} {instruction : Instruction}
    {locals : Option Locals} {pushed value : Value}
    (h : reducePush? options instruction locals pushed = some (.constant value)) :
    value = pushed ∧ pushed.isParticular = true := by
  unfold reducePush? at h
  dsimp only at h
  split at h
  · rename_i hparticular
    obtain ⟨-, hconstant⟩ := Option.ite_none_right_eq_some.mp h
    cases hconstant
    exact ⟨rfl, (Bool.and_eq_true _ _ ▸ hparticular).1⟩
  · split at h
    · split at h
      · obtain ⟨slot, -, hslot⟩ := Option.map_eq_some_iff.mp h
        cases hslot
      · cases h
    · cases h

theorem reducePush?_eq_alias {options : SimplifyOptions} {instruction : Instruction}
    {locals : Option Locals} {pushed : Value} {slot : UInt16}
    (h : reducePush? options instruction locals pushed = some (.alias slot)) :
    ∃ kind index found, instruction.localAccess? = some (.load, kind, index) ∧
      locals = some found ∧ lowestAlias? found index pushed = some slot := by
  unfold reducePush? at h
  dsimp only at h
  split at h
  · obtain ⟨-, hconstant⟩ := Option.ite_none_right_eq_some.mp h
    cases hconstant
  · split at h
    · split at h
      · rename_i kind index found haccess
        obtain ⟨slot', hslot, hsame⟩ := Option.map_eq_some_iff.mp h
        cases hsame
        exact ⟨kind, index, found, haccess, rfl, hslot⟩
      · cases h
    · cases h

/-- Any other reduction is that of a branch. -/
theorem Evaluation.Reduces.branches {evaluation : Evaluation} {options : SimplifyOptions}
    {sideEffects : IndexSet} {offset : Nat} {instruction : Instruction} {reduction : Reduction}
    (h : evaluation.Reduces options sideEffects offset instruction reduction)
    (hnot : ¬ reduction.Pushes) :
    (instruction.flow = .conditional ∨ instruction.flow = .switch) ∧
      reduceBranch? evaluation offset = .ok (some reduction) := by
  have hreduce := h.reduce
  have hbranch (hb : (if options.simplifyBranches then reduceBranch? evaluation offset
      else return none) = .ok (some reduction)) :
      reduceBranch? evaluation offset = .ok (some reduction) := by
    split at hb
    · exact hb
    · cases hb
  unfold reduce? at hreduce
  split at hreduce
  · rename_i hflow
    exact ⟨.inl hflow, hbranch hreduce⟩
  · rename_i hflow
    exact ⟨.inr hflow, hbranch hreduce⟩
  · dsimp only at hreduce
    split at hreduce
    · cases hreduce
    · obtain ⟨value, -, hpush⟩ := Option.bind_eq_some_iff.mp (Except.ok.inj hreduce)
      refine absurd ?_ hnot
      unfold reducePush? at hpush
      dsimp only at hpush
      split at hpush
      · obtain ⟨-, hconstant⟩ := Option.ite_none_right_eq_some.mp hpush
        cases hconstant
        exact .inl ⟨_, rfl⟩
      · split at hpush
        · split at hpush
          · obtain ⟨slot, -, rfl⟩ := Option.map_eq_some_iff.mp hpush
            exact .inr ⟨slot, rfl⟩
          · cases hpush
        · cases hpush
  · cases hreduce

/-- A branch that is reduced continues where the reduction says. -/
theorem eq_of_reduceBranch? {evaluation : Evaluation} {offset successor : Nat}
    {reduction : Reduction} (h : reduceBranch? evaluation offset = .ok (some reduction))
    (hl : evaluation.Leads offset successor) :
    reduction = .drop ∧ successor = evaluation.nextOffset offset ∨ reduction = .goto successor := by
  obtain ⟨targets, htargets, hreduction⟩ := Except.bind_eq_ok.mp h
  obtain ⟨set, hset, hmem⟩ := Evaluation.leads_iff.mp hl
  cases htargets.symm.trans hset
  obtain ⟨target, hsingle, hreduction⟩ := Option.map_eq_some_iff.mp (Except.ok.inj hreduction)
  unfold OffsetSet.single? at hsingle
  split at hsingle
  · rename_i only helements
    cases hsingle
    rw [helements] at hmem
    obtain rfl := List.mem_singleton.mp hmem
    split at hreduction
    · exact .inl ⟨hreduction.symm, ‹_›⟩
    · exact .inr hreduction.symm
  · cases hsingle

/-- Only instructions that go on with the next one, and calls of subroutines, push values. -/
theorem Instruction.pushes_of_flow {pool : ConstantPool} {instruction : Instruction}
    {effect : StackEffect} (he : instruction.stackEffect pool = .ok effect)
    (hflow : instruction.flow ≠ .sequential) (hcall : instruction.operation ≠ .subroutine) :
    effect.pushes = 0 := by
  unfold Instruction.flow at hflow
  unfold Instruction.stackEffect at he
  cases hop : instruction.operation
  all_goals simp only [hop] at he hflow hcall
  case branchZero | branchInt | branchReference | branchNull | jump | ret | switch | returnValue |
      returnVoid | raise =>
    cases he
    rfl
  all_goals exact absurd rfl ‹_›

/-! ## Values that are pushed -/

theorem Stack.peek?_zero {stack : Stack} {word : Slot} (h : stack.peek? 0 = some word) :
    0 < stack.height ∧ stack.get? (stack.height - 1) = some word := by
  unfold peek? at h
  split at h
  · exact ⟨‹_›, h⟩
  · cases h

theorem getElem?_zero_pushedWords (value : Value) (producers : OriginSet) :
    (pushedWords value producers)[0]? = some ⟨value, producers⟩ := by
  rw [pushedWords]
  split <;> rfl

theorem Value.size_pos (value : Value) : 0 < value.size := by
  rw [size]
  split <;> omega

/-- A pushed value is all that its instruction pushes. -/
theorem Evaluation.Faithful.pushedValue?_eq_some {evaluation : Evaluation}
    {options : EvaluationOptions} {pool : ConstantPool} {code : Code} {entry before : Frame}
    {offset : Nat} {instruction : Instruction} {step : Step} {value : Value}
    (h : evaluation.Faithful options pool code entry)
    (hb : evaluation.before? offset = some before)
    (hs : evaluation.Settled options pool code.handlers offset before instruction step)
    (hnot : instruction.isShuffle = false) (hv : evaluation.pushedValue? offset = some value) :
    ∃ effect, instruction.stackEffect pool = .ok effect ∧ 0 < effect.pushes ∧
      value.size = effect.pushes ∧ step.frame.stack.get? (step.frame.stack.height - 1) =
        some ⟨value, OriginSet.ofInstruction offset⟩ := by
  obtain ⟨after, hafter, hv⟩ := Option.bind_eq_some_iff.mp hv
  rw [Evaluation.stackAfter?, hs.after] at hafter
  obtain rfl : step.frame.stack = after := Option.some.inj hafter
  obtain ⟨top, htop, hv⟩ := Option.bind_eq_some_iff.mp hv
  obtain ⟨hpos, htop⟩ := Stack.peek?_zero htop
  split at hv
  case isFalse => cases hv
  rename_i hcontains
  obtain ⟨effect, pushed, heffect, hpushed, hmoves⟩ :=
    Context.execute_moves hs.execute (h.fits _ _ hs.listed) hnot
  have hheight := hmoves.length_eq
  refine ⟨effect, heffect, ?_⟩
  rcases hpushed with ⟨hzero, rfl⟩ | ⟨pushedValue, -, hsize, rfl⟩
  · -- a word from before
    rw [List.length_nil, Nat.zero_add] at hheight
    obtain ⟨old, new, hold, hnew, halike⟩ := hmoves.get?_kept
      (show step.frame.stack.height - 1 < before.stack.height - effect.pops by omega)
    cases htop.symm.trans hnew
    obtain ⟨origin, horigin, hrank⟩ := OrderedSet.contains_iff.mp hcontains
    rw [halike.producers_eq] at horigin
    have hplaces := (h.accounts hb).placed _ _ hold origin horigin
    rw [Origin.ofInstruction, recordedOffset_of_lt (h.lt_of_instruction? hs.listed)] at hrank
    cases origin with
    | entry => cases hplaces
    | handler target =>
      simp only [Evaluation.Places, Origin.rank] at hplaces hrank
      omega
    | instruction producer =>
      obtain rfl : producer = offset := Nat.add_left_cancel hrank
      obtain ⟨instruction', before', effect', hi, hb', heffect', hge, hlt⟩ := hplaces
      cases hs.listed.symm.trans hi
      cases hb.symm.trans hb'
      cases heffect.symm.trans heffect'
      omega
  · -- the word just pushed
    rw [length_pushedWords] at hheight
    have hpos' := pushedValue.size_pos
    have hget := hmoves.get?_pushed (show _ ≤ step.frame.stack.height - 1 by omega) (by omega)
    rw [Nat.sub_self, htop, getElem?_zero_pushedWords] at hget
    cases hget
    cases hv
    exact ⟨hsize ▸ hpos', hsize, htop⟩

/-! ## Calls of initializers -/

theorem Value.isParticular_specific (kind : Kind) (symbol : Symbol) (notNull : Bool) :
    (Value.specific kind symbol notNull).isParticular = false := by
  cases kind <;> rfl

theorem Detail.isParticular_constant (detail : Detail) {value : Value}
    (h : value.isParticular = false) : (detail.constant value).isParticular = false := by
  cases detail with
  | precise => exact h
  | simple => cases value <;> first | rfl | exact h

/-- A value from outside of which no constant is assumed. -/
theorem Context.not_isParticular_of_pushSupplied {context : Context} {offset : Nat} {kind : Kind}
    {assumed : Option Value} {frame frame' : Frame}
    (h : context.pushSupplied offset kind assumed frame = .ok ((), frame'))
    (hassumed : ∀ value, assumed = some value → value.isParticular = false) :
    ∃ top rest, frame'.stack.view = top :: rest ∧ top.value.isParticular = false := by
  have hpush {value : Value} {frame : Frame} (hvalue : value.isParticular = false)
      (h : Transfer.push offset value frame = .ok ((), frame')) :
      ∃ top rest, frame'.stack.view = top :: rest ∧ top.value.isParticular = false := by
    rw [(Transfer.push_eq_ok h).1, pushedWords]
    split
    · exact ⟨_, _, rfl, hvalue⟩
    · exact ⟨_, _, rfl, hvalue⟩
  unfold pushSupplied at h
  cases hvalue : context.detail.supplied? kind assumed with
  | some value =>
    rw [hvalue] at h
    obtain ⟨known, hknown, rfl⟩ := Option.map_eq_some_iff.mp hvalue
    exact hpush (Detail.isParticular_constant _ (hassumed _ (Option.filter_eq_some_iff.mp hknown).1))
      h
  | none =>
    rw [hvalue] at h
    obtain ⟨value, middle, hfresh, h⟩ := StateT.bind_eq_ok.mp h
    have hnamed : value = context.detail.named kind (.instruction offset) false := by
      unfold fresh at hfresh
      cases hdetail : context.detail <;> rw [hdetail] at hfresh <;> cases hfresh <;> rfl
    rw [hnamed] at h
    exact hpush (Detail.isParticular_constant _ (Value.isParticular_specific _ _ _)) h

/-- The call of an initializer pushes no constant. -/
theorem Context.not_isParticular_of_initializer {context : Context} {offset next : Nat}
    {instruction : Instruction} {frame : Frame} {step : Step} {member : MemberRef}
    {effect : StackEffect} (hassumptions : context.assumptions.IgnoreInitializers)
    (h : context.execute offset next instruction frame = .ok step)
    (hop : instruction.operation = .invoke .special)
    (hmember : instruction.member context.pool = .ok member) (hinit : member.isInitializer = true)
    (heffect : instruction.stackEffect context.pool = .ok effect) (hpushes : 0 < effect.pushes)
    {word : Slot} (hword : step.frame.stack.get? (step.frame.stack.height - 1) = some word) :
    word.value.isParticular = false := by
  obtain ⟨descriptor, found, _, _, hdescriptor, hfound, -, -, hpush⟩ :=
    invoke_eq_ok (invoke_of_execute h hop)
  obtain ⟨found', hfound', rfl⟩ := hfound (by decide)
  cases hmember.symm.trans hfound'
  unfold Instruction.stackEffect at heffect
  simp only [hop, hdescriptor] at heffect
  cases heffect
  cases hresult : descriptor.result with
  | none => simp [MethodDescriptor.resultSlots, hresult] at hpushes
  | some type =>
    rw [pushResult, hresult] at hpush
    obtain ⟨top, rest, hview, htop⟩ := not_isParticular_of_pushSupplied hpush
      fun value hvalue => hassumptions member value hinit hvalue
    have hheight : step.frame.stack.height = rest.length + 1 := by
      rw [← Stack.length_view, hview, List.length_cons]
    rw [Stack.get?, Stack.getElem?_words _ (by omega), hview, Nat.sub_self] at hword
    cases hword
    exact htop

/-! ## Reductions that push -/

/-- Whether all reductions are those of single instructions. -/
def Subject.ReducedBy (subject : Subject) (simplify : SimplifyOptions) (original : Reductions) :
    Prop :=
  ∀ (offset : Nat) reduction, original[offset]? = some (some reduction) → ∃ instruction,
    subject.evaluation.Reduces simplify subject.sideEffects offset instruction reduction

namespace Subject.Presence

variable {subject : Subject} {options : EvaluationOptions} {simplify : SimplifyOptions}
  {entry before : Frame} {original reductions : Reductions} {simple : Evaluation} {marks : Marks}
  {offset : Nat} {instruction : Instruction} {reduction : Reduction} {step : Step}
  {effect : StackEffect}
  (h : subject.Presence options entry original simple marks reductions)

include h

/-- An instruction that is reduced to a push pushes a value. -/
theorem pushes_of_reduces
    (hr : subject.evaluation.Reduces simplify subject.sideEffects offset instruction reduction)
    (hpush : reduction.Pushes) (he : instruction.stackEffect subject.pool = .ok effect) :
    0 < effect.pushes := by
  obtain ⟨-, hnot, value, hvalue, -⟩ := hr.pushed hpush
  obtain ⟨before, instruction', step, hb, hs⟩ := h.settled_of_traced hr.traced
  cases hr.listed.symm.trans hs.listed
  obtain ⟨effect', heffect, hpos, -⟩ := h.faithful.pushedValue?_eq_some hb hs hnot hvalue
  cases he.symm.trans heffect
  exact hpos

/-- The call of an initializer is not reduced to a push. -/
theorem not_pushes_of_initializes (hassumptions : options.assumptions.IgnoreInitializers)
    (hcall : offset ∈ subject.evaluation.initializerCalls)
    (hr : subject.evaluation.Reduces simplify subject.sideEffects offset instruction reduction) :
    ¬ reduction.Pushes := by
  intro hpush
  obtain ⟨-, hnot, value, hvalue, hreduce⟩ := hr.pushed hpush
  obtain ⟨frame, instruction', called, receiver, hi, he, hevent⟩ :=
    h.faithful.history.calls offset hcall
  cases hr.listed.symm.trans hi
  obtain ⟨member, hop, hmember, hinit⟩ := Context.initializer_of_event he hevent
  obtain ⟨before, instruction', step, hb, hs⟩ := h.settled_of_traced hr.traced
  cases hr.listed.symm.trans hs.listed
  obtain ⟨effect, heffect, hpos, -, htop⟩ := h.faithful.pushedValue?_eq_some hb hs hnot hvalue
  have hparticular : value.isParticular = false := Context.not_isParticular_of_initializer
    hassumptions hs.execute hop hmember hinit heffect hpos htop
  have haccess : instruction.localAccess? = none := by
    unfold Instruction.localAccess?
    simp only [hop]
  unfold reducePush? at hreduce
  simp only [hparticular, haccess, Bool.false_and, Bool.false_eq_true, if_false] at hreduce
  split at hreduce <;> cases hreduce

/-- An instruction that writes a variable is not reduced to a push. -/
theorem not_pushes_of_writes {evaluation : Evaluation}
    (hlisting : evaluation.listing = subject.evaluation.listing)
    (hw : evaluation.Writes subject.pool (.instruction offset))
    (hr : subject.evaluation.Reduces simplify subject.sideEffects offset instruction reduction) :
    ¬ reduction.Pushes := by
  intro hpush
  obtain ⟨instruction', effect, hi, he, hzero⟩ := hw
  rw [Evaluation.instruction?, hlisting, ← Evaluation.instruction?] at hi
  cases hr.listed.symm.trans hi
  have hpos := h.pushes_of_reduces hr hpush he
  omega

/-- The evaluation without constants is faithful too. -/
theorem faithful_simple : ∃ entry, simple.listing = subject.evaluation.listing ∧
    simple.Faithful ⟨subject.assumptions, .simple, some marks.reachable, subject.maxVisits⟩
      subject.pool subject.code entry := by
  obtain ⟨-, hlisting, -⟩ := closed_of_evaluate h.marked.evaluated
  have hsame : simple.listing = subject.evaluation.listing :=
    Except.ok.inj (hlisting.symm.trans h.faithful.listing)
  obtain ⟨entry, hfaithful⟩ := faithful_of_evaluate h.marked.evaluated (fun offset instruction hi => by
    rw [Evaluation.instruction?, hsame, ← Evaluation.instruction?] at hi
    exact h.faithful.fits offset instruction hi) h.faithful.size
  exact ⟨entry, hsame, hfaithful⟩

/-- What a mark says of an instruction that is reduced to a push: its value is needed. -/
def NeededIfPushing (original : Reductions) (marks : Marks) : Mark → Prop
  | .necessary offset => ∀ reduction, original[offset]? = some (some reduction) →
    reduction.Pushes → ∃ position, marks.has (.needed ⟨.instruction offset, position⟩) = true
  | .needed _ | .present _ => True

/-- What makes an instruction necessary that is reduced to a push is that its value is needed. -/
theorem needed_of_reduced (hassumptions : options.assumptions.IgnoreInitializers)
    (hfrom : subject.ReducedBy simplify original)
    (hn : marks.necessary.contains offset = true)
    (hr : original[offset]? = some (some reduction)) (hpush : reduction.Pushes) :
    ∃ position, marks.has (.needed ⟨.instruction offset, position⟩) = true := by
  refine h.marked.induction (NeededIfPushing original marks) (fun mark hstart => ?_)
    (fun a b ha _ hfollows => ?_) (.necessary offset) hn reduction hr hpush
  · cases hstart with
    | exception => trivial
    | initialization hinit =>
      intro reduction hr hpush
      obtain ⟨instruction, hreduces⟩ := hfrom _ _ hr
      refine absurd hpush (h.not_pushes_of_initializes hassumptions ?_ hreduces)
      simp [Evaluation.initializerCalls, hinit]
    | jump hi hjump =>
      intro reduction hr hpush
      obtain ⟨instruction, hreduces⟩ := hfrom _ _ hr
      cases hi.symm.trans hreduces.listed
      have hflow := (hreduces.pushed hpush).1
      rw [Instruction.flow, hjump] at hflow
      cases hflow
    | effect heffect hnone | branch hi hflow hnone =>
      intro reduction hr hpush
      cases hr.symm.trans hnone
    | goto hgoto =>
      intro reduction hr hpush
      cases hr.symm.trans hgoto
      rcases hpush with ⟨value, hv⟩ | ⟨slot, hs⟩
      · cases hv
      · cases hs
    | store hl hload ho =>
      intro reduction hr hpush
      obtain ⟨instruction, hreduces⟩ := hfrom _ _ hr
      obtain ⟨entry', hsame, hsimple⟩ := h.faithful_simple
      obtain ⟨before, hb, rfl⟩ := Option.map_eq_some_iff.mp hl
      have hw := (hsimple.accounts hb).written _ _ (Locals.load_eq_ok.mp hload) _ ho
      exact absurd hpush (h.not_pushes_of_writes hsame hw hreduces)
  · cases hfollows with
    | «variable» hreads hl hload ho hreach =>
      intro reduction hr hpush
      obtain ⟨instruction, hreduces⟩ := hfrom _ _ hr
      obtain ⟨before, hb, rfl⟩ := Option.map_eq_some_iff.mp hl
      have hw := (h.faithful.accounts hb).written _ _ (Locals.load_eq_ok.mp hload) _ ho
      exact absurd hpush (h.not_pushes_of_writes rfl hw hreduces)
    | initializer hu hnew hc hreach =>
      intro reduction hr hpush
      obtain ⟨instruction, hreduces⟩ := hfrom _ _ hr
      refine absurd hpush (h.not_pushes_of_initializes hassumptions ?_ hreduces)
      refine List.mem_append_left _ (List.mem_map.mpr ⟨_, mem_of_lookup_eq_some hc, rfl⟩)
    | producer hreach hsource => exact fun _ _ _ => ⟨_, ha⟩
    | operand => trivial
    | present => trivial
    | source => trivial
    | copied => trivial
    | partner => trivial
    | occurrence => trivial

/-- **What a necessary reduced push gives is present.** -/
theorem isPresent_of_reduced (hassumptions : options.assumptions.IgnoreInitializers)
    (hfrom : subject.ReducedBy simplify original)
    (hr : marks.reachable.contains offset = true)
    (hb : subject.evaluation.before? offset = some before)
    (hs : subject.evaluation.Settled options subject.pool subject.code.handlers offset before
      instruction step)
    (hn : marks.necessary.contains offset = true)
    (hreduction : original[offset]? = some (some reduction)) (hpush : reduction.Pushes) :
    marks.isPresent (.instruction offset) (step.frame.stack.height - 1) = true := by
  obtain ⟨instruction', hreduces⟩ := hfrom offset reduction hreduction
  cases hs.listed.symm.trans hreduces.listed
  obtain ⟨position, hneeded⟩ := h.needed_of_reduced hassumptions hfrom hn hreduction hpush
  exact h.isPresent_of_needed hr hb hs (hreduces.pushed hpush).2.1 hneeded

end Subject.Presence

/-! ## What is decided about a body -/

namespace MethodContext

/-- What is marked: the body with its precise evaluation. -/
def subject (context : MethodContext) (pool : ConstantPool) (evaluation : Evaluation)
    (sideEffects : IndexSet) : Subject where
  pool := pool
  owner := context.owner
  method := context.method
  code := context.code
  evaluation := evaluation
  assumptions := context.assumptions
  maxVisits := context.around.settings.maxVisits
  sideEffects := sideEffects

/-- The options of the precise evaluation. -/
def preciseOptions (context : MethodContext) : EvaluationOptions :=
  ⟨context.assumptions, .precise, none, context.around.settings.maxVisits⟩

/-- What is known of a decision about a body. -/
structure Decided (context : MethodContext) (pool : ConstantPool) (decision : Decision)
    (sideEffects : IndexSet) (entry : Frame) (original : Reductions) (simple : Evaluation) : Prop where
  evaluated : evaluate context.preciseOptions pool context.owner context.method context.code =
    .ok decision.evaluation
  effects : context.sideEffects pool decision.evaluation = .ok sideEffects
  presence : (context.subject pool decision.evaluation sideEffects).Presence context.preciseOptions
    entry original simple decision.marks decision.reductions
  reduced : (context.subject pool decision.evaluation sideEffects).ReducedBy
    context.around.settings.simplify original

theorem Decided.faithful {context : MethodContext} {pool : ConstantPool} {decision : Decision}
    {sideEffects : IndexSet} {entry : Frame} {original : Reductions} {simple : Evaluation}
    (h : context.Decided pool decision sideEffects entry original simple) :
    decision.evaluation.Faithful context.preciseOptions pool context.code entry :=
  h.presence.faithful

/-- What a decision is made of: the evaluation, the side effects, the reductions and the marks. -/
theorem exists_of_decide {context : MethodContext} {pool : ConstantPool} {decision : Decision}
    (h : context.decide pool = .ok decision) :
    ∃ sideEffects original,
      evaluate context.preciseOptions pool context.owner context.method context.code =
        .ok decision.evaluation ∧
      context.sideEffects pool decision.evaluation = .ok sideEffects ∧
      reductions context.around.settings.simplify decision.evaluation sideEffects = .ok original ∧
      (context.subject pool decision.evaluation sideEffects).mark original =
        .ok (decision.marks, decision.reductions) := by
  obtain ⟨evaluation, hevaluate, hdecide⟩ := Except.bind_eq_ok.mp h
  obtain ⟨sideEffects, heffects, hdecide⟩ := Except.bind_eq_ok.mp hdecide
  obtain ⟨original, hreductions, hdecide⟩ := Except.bind_eq_ok.mp hdecide
  obtain ⟨⟨marks, reductions⟩, hmark, hdecision⟩ := Except.bind_eq_ok.mp hdecide
  cases hdecision
  exact ⟨sideEffects, original, hevaluate, heffects, hreductions, hmark⟩

theorem decided_of_decide {context : MethodContext} {pool : ConstantPool} {decision : Decision}
    (h : context.decide pool = .ok decision)
    (hfits : ∀ offset instruction, decision.evaluation.instruction? offset = some instruction →
      instruction.loadFits pool = true) (hsize : context.code.bytes.length ≤ UInt32.size) :
    ∃ sideEffects entry original simple,
      context.Decided pool decision sideEffects entry original simple := by
  obtain ⟨sideEffects, original, hevaluate, heffects, hreductions, hmark⟩ := exists_of_decide h
  obtain ⟨entry, hfaithful⟩ := faithful_of_evaluate hevaluate hfits hsize
  obtain ⟨simple, hmarked⟩ := Subject.marked_of_mark hmark
  exact ⟨sideEffects, entry, original, simple, hevaluate, heffects, ⟨hfaithful, hmarked⟩,
    fun offset reduction hr => reduced_of_reductions hfaithful.listing hreductions hr⟩

end MethodContext

end JvmTrim
