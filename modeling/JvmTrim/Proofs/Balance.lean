import JvmTrim.Proofs.Pushes
import JvmTrim.Proofs.Reduced
import JvmTrim.Proofs.StackPlan

/-!
# Repairs keep the stack balanced

The marks say which words are on the stack before every instruction that is reached. What is emitted
for an instruction agrees with them: started on the words that are present before the instruction, it
takes nothing below the words that the instruction takes, and it leaves as many words as are present
before each successor.

## Main definitions

* `heightAfter?`: the height of the stack after some instructions
* `RepairState.emittedFor`: what is emitted for an instruction, with a pop that it keeps

## Main results

* `Decision.Emits.heightAfter?`: what is emitted for an instruction leaves what is present of its
  results
* `MethodContext.leftBehind?_eq_presentBefore?`: repairs keep the stack balanced along every edge
-/

namespace JvmTrim

/-! ## Heights -/

/-- The height of the stack after an instruction, if it finds the words that it takes above the
lowest `floor` ones. -/
def Instruction.heightAfter? (pool : ConstantPool) (floor height : Nat) (instruction : Instruction) :
    Option Nat :=
  match instruction.stackEffect pool with
  | .ok effect =>
    if floor + effect.pops ≤ height then some (height - effect.pops + effect.pushes) else none
  | .error _ => none

/-- The height of the stack after some instructions, if each of them finds the words that it takes
above the lowest `floor` ones. -/
def heightAfter? (pool : ConstantPool) (floor : Nat) (code : List Instruction) (height : Nat) :
    Option Nat :=
  code.foldlM (Instruction.heightAfter? pool floor) height

section

variable {pool : ConstantPool} {floor height middle pops pushes : Nat} {instruction : Instruction}

theorem heightAfter?_nil : heightAfter? pool floor [] height = some height := rfl

theorem heightAfter?_cons (rest : List Instruction)
    (he : instruction.stackEffect pool = .ok ⟨pops, pushes⟩) (hle : floor + pops ≤ height) :
    heightAfter? pool floor (instruction :: rest) height =
      heightAfter? pool floor rest (height - pops + pushes) := by
  have hstep : instruction.heightAfter? pool floor height = some (height - pops + pushes) := by
    unfold Instruction.heightAfter?
    rw [he]
    exact if_pos hle
  rw [heightAfter?, List.foldlM_cons, hstep]
  rfl

/-- An instruction that takes nothing needs nothing above the floor. -/
theorem heightAfter?_of_pops_zero (he : instruction.stackEffect pool = .ok ⟨0, pushes⟩) :
    heightAfter? pool floor [instruction] floor = some (floor + pushes) := by
  exact heightAfter?_cons [] he (Nat.le_refl floor)

theorem heightAfter?_append {first : List Instruction} (second : List Instruction)
    (h : heightAfter? pool floor first height = some middle) :
    heightAfter? pool floor (first ++ second) height = heightAfter? pool floor second middle := by
  unfold heightAfter? at h ⊢
  rw [List.foldlM_append, h]
  rfl

theorem heightAfter?_popOf {words : Nat} (h : words = 1 ∨ words = 2) (rest : List Instruction)
    (hle : floor + words ≤ height) :
    heightAfter? pool floor (popOf words :: rest) height =
      heightAfter? pool floor rest (height - words) :=
  heightAfter?_cons rest (stackEffect_popOf h pool) hle

end

/-! ## Pops of present words -/

namespace Marks

variable {marks : Marks} {stack : Stack} {base height : Nat}

theorem presentBelow_mono (marks : Marks) (stack : Stack) (h : base ≤ height) :
    marks.presentBelow stack base ≤ marks.presentBelow stack height := by
  induction h with
  | refl => exact Nat.le_refl _
  | step _ ih =>
    rw [presentBelow_succ]
    omega

theorem presentBelow_of_absent (hle : base ≤ height)
    (h : ∀ position, base ≤ position → position < height →
      marks.wordPresent stack position = false) :
    marks.presentBelow stack height = marks.presentBelow stack base := by
  induction hle with
  | refl => rfl
  | @step height hle ih =>
    rw [presentBelow_succ, h height hle (Nat.lt_succ_self _), ih fun p hge hlt =>
      h p hge (Nat.lt_succ_of_lt hlt)]
    rfl

theorem presentBelow_of_present (hle : base ≤ height)
    (h : ∀ position, base ≤ position → position < height →
      marks.wordPresent stack position = true) :
    marks.presentBelow stack height = marks.presentBelow stack base + (height - base) := by
  induction hle with
  | refl => simp
  | @step height hle ih =>
    rw [presentBelow_succ, h height hle (Nat.lt_succ_self _), ih fun p hge hlt =>
      h p hge (Nat.lt_succ_of_lt hlt), if_pos rfl]
    have hle : base ≤ height := hle
    omega

/-- Whether the halves of two-word values are present together. -/
def KeepsHalves (marks : Marks) (stack : Stack) : Prop :=
  ∀ below word, stack.get? (below + 1) = some word → word.value.isWide = true →
    marks.wordPresent stack below = marks.wordPresent stack (below + 1)

/-- **Pops take just the present words.** -/
theorem heightAfter?_popsDownTo (pool : ConstantPool) (hhalves : marks.KeepsHalves stack)
    (bottom height : Nat) (hle : bottom ≤ height) :
    heightAfter? pool (marks.presentBelow stack bottom) (marks.popsDownTo stack bottom height)
      (marks.presentBelow stack height) = some (marks.presentBelow stack bottom) := by
  fun_induction popsDownTo marks stack bottom height with
  | case1 =>
    obtain rfl : bottom = 0 := Nat.le_zero.mp hle
    rfl
  | case2 h =>
    rw [Bool.and_eq_true, decide_eq_true_eq] at h
    obtain rfl : bottom = 0 := by omega
    rw [presentBelow_succ, if_pos h.2, heightAfter?_popOf (.inl rfl) _ (Nat.le_refl _)]
    rfl
  | case3 h =>
    rw [heightAfter?_nil, presentBelow_of_absent hle fun position hge hlt => ?_]
    obtain rfl : position = 0 := by omega
    obtain rfl : bottom = 0 := by omega
    simpa using h
  | case4 top h =>
    obtain rfl : bottom = top + 2 := Nat.le_antisymm hle h
    rfl
  | case5 top h isWide pops ihWide ihSingle =>
    change heightAfter? pool _ _ (marks.presentBelow stack (top + 1 + 1)) = _
    have hmono := presentBelow_mono marks stack (show bottom ≤ top + 1 by omega)
    have hsucc := presentBelow_succ marks stack (top + 1)
    by_cases hwide : isWide = true
    · -- a value of two words
      rw [if_pos hwide]
      simp only [isWide, Bool.and_eq_true, decide_eq_true_eq] at hwide
      have hmono := presentBelow_mono marks stack (show bottom ≤ top by omega)
      have hboth : marks.wordPresent stack top = marks.wordPresent stack (top + 1) := by
        cases hword : stack.get? (top + 1) with
        | none => simp [hword] at hwide
        | some word => exact hhalves top word hword (by simpa [hword] using hwide.1)
      have hsucc' := presentBelow_succ marks stack top
      rw [hboth] at hsucc'
      by_cases hpresent : marks.wordPresent stack (top + 1) = true
      · rw [if_pos hpresent] at hsucc hsucc'
        have hpops : pops = [popOf 2] := by
          simp only [pops, isWide, hpresent, hwide.1, hwide.2, decide_true, Bool.and_self, if_true]
        rw [hpops, List.singleton_append, heightAfter?_popOf (.inr rfl) _ (by omega),
          show marks.presentBelow stack (top + 1 + 1) - 2 = marks.presentBelow stack top by omega]
        exact ihWide (by omega)
      · rw [if_neg hpresent] at hsucc hsucc'
        have hpops : pops = [] := if_neg hpresent
        rw [hpops, List.nil_append,
          show marks.presentBelow stack (top + 1 + 1) = marks.presentBelow stack top by omega]
        exact ihWide (by omega)
    · -- a single word
      rw [if_neg hwide]
      by_cases hpresent : marks.wordPresent stack (top + 1) = true
      · rw [if_pos hpresent] at hsucc
        have hpops : pops = [popOf 1] := by
          simp [pops, hpresent, hwide]
        rw [hpops, List.singleton_append, heightAfter?_popOf (.inl rfl) _ (by omega),
          show marks.presentBelow stack (top + 1 + 1) - 1 = marks.presentBelow stack (top + 1) by
            omega]
        exact ihSingle (by omega)
      · rw [if_neg hpresent] at hsucc
        have hpops : pops = [] := if_neg hpresent
        rw [hpops, List.nil_append,
          show marks.presentBelow stack (top + 1 + 1) = marks.presentBelow stack (top + 1) by omega]
        exact ihSingle (by omega)

end Marks

/-! ## Planned stack manipulations -/

namespace Shuffle

theorem length_moveWords? {move : Shuffle} {words moved : List Word}
    (h : move.moveWords? words = some moved) : move.pops ≤ words.length ∧
      moved.length = words.length - move.pops + move.outputs.length := by
  obtain ⟨-, below, taken, given, rfl, htaken, hgiven, rfl⟩ := moveWords?_eq_some_iff.mp h
  have hlength := hgiven.length_eq
  rw [List.length_append, List.length_append]
  omega

/-- **A plan takes no other words than those it was made for.** -/
theorem heightAfter?_of_moveAll? {plan : List Shuffle} {inputs outputs : List Word}
    (pool : ConstantPool) (floor : Nat) (h : moveAll? plan inputs = some outputs) :
    heightAfter? pool floor (plan.map fun move => .simple (Opcode.ofShuffle move))
      (floor + inputs.length) = some (floor + outputs.length) := by
  induction plan generalizing inputs with
  | nil =>
    cases h
    rfl
  | cons move rest ih =>
    obtain ⟨words, hwords, hrest⟩ := Option.bind_eq_some_iff.mp h
    obtain ⟨hle, hlength⟩ := length_moveWords? hwords
    rw [List.map_cons, heightAfter?_cons _ (stackEffect_of_shuffle (operation_ofShuffle move) pool)
      (by omega), ← ih hrest,
      show floor + inputs.length - move.pops + move.outputs.length = floor + words.length by omega]

end Shuffle

namespace Marks

variable {marks : Marks} {offset : Nat} {instruction : Instruction} {before : Stack}
  {inputs outputs : List Word}

theorem countP_range_add (marks : Marks) (stack : Stack) (base count : Nat) :
    marks.presentBelow stack (base + count) = marks.presentBelow stack base +
      (List.range count).countP fun k => marks.wordPresent stack (base + k) := by
  rw [presentBelow, List.range_add, List.countP_append, List.countP_map]
  rfl

/-- How many words a stack manipulation is planned for. -/
theorem length_shuffleWords {move : Shuffle} (hop : instruction.operation = .shuffle move)
    (h : marks.shuffleWords offset instruction before = .ok (inputs, outputs)) :
    move.pops ≤ before.height ∧
      marks.presentBelow before before.height =
        marks.presentBelow before (before.height - move.pops) + inputs.length ∧
      outputs.length = (List.range move.outputs.length).countP fun k =>
        marks.isPresent (.ofInstruction offset) (before.height - move.pops + k) := by
  obtain ⟨move', hmove, h⟩ := Except.bind_eq_ok.mp h
  rw [orDefect_eq_ok, Instruction.shuffle?_eq_some_iff, hop] at hmove
  cases hmove
  split at h
  · cases h
  · rename_i hle
    have hle : move.pops ≤ before.height := Nat.le_of_not_lt hle
    cases h
    refine ⟨hle, ?_, ?_⟩
    · rw [List.length_map, ← List.countP_eq_length_filter, ← countP_range_add,
        Nat.sub_add_cancel hle]
    · have hrange : move.outputs.zipIdx.map Prod.snd = List.range move.outputs.length := by
        rw [List.zipIdx_map_snd, List.range_eq_range']
      rw [List.length_map, ← List.countP_eq_length_filter, ← hrange, List.countP_map]
      rfl

end Marks

/-! ## What is present around an instruction -/

theorem Decision.inputPops_eq_ok {decision : Decision} {offset count : Nat} {before : Frame}
    {pops : List Instruction} (hb : decision.evaluation.before? offset = some before)
    (h : decision.inputPops offset count = .ok pops) : count ≤ before.stack.height ∧
      pops = decision.marks.popsDownTo before.stack (before.stack.height - count)
        before.stack.height := by
  obtain ⟨stack, hstack, h⟩ := Except.bind_eq_ok.mp h
  rw [recorded, orDefect_eq_ok, Evaluation.stackBefore?, hb] at hstack
  obtain rfl : before.stack = stack := Option.some.inj hstack
  split at h
  · cases h
  · rename_i hle
    cases h
    exact ⟨Nat.le_of_not_lt hle, rfl⟩

/-- Whatever is no stack manipulation gives one value at most. -/
theorem Context.pushes_of_execute {context : Context} {offset next : Nat}
    {instruction : Instruction} {frame : Frame} {step : Step}
    (h : context.execute offset next instruction frame = .ok step)
    (hfits : instruction.loadFits context.pool = true) (hnot : instruction.isShuffle = false) :
    ∃ effect, instruction.stackEffect context.pool = .ok effect ∧
      (effect.pushes = 0 ∨ effect.pushes = 1 ∨ effect.pushes = 2) := by
  obtain ⟨effect, pushed, he, hpushed, -⟩ := execute_moves h hfits hnot
  refine ⟨effect, he, ?_⟩
  rcases hpushed with ⟨hzero, -⟩ | ⟨value, -, hsize, -⟩
  · exact .inl hzero
  · unfold Value.size at hsize
    split at hsize <;> omega

namespace MethodContext.Decided

variable {context : MethodContext} {pool : ConstantPool} {decision : Decision}
  {sideEffects : IndexSet} {entry before : Frame} {original : Reductions} {simple : Evaluation}
  {offset : Nat} {instruction : Instruction} {step : Step} {effect : StackEffect}
  (h : context.Decided pool decision sideEffects entry original simple)

include h

theorem ofInstruction_eq (hi : decision.evaluation.instruction? offset = some instruction) :
    Origin.ofInstruction offset = .instruction offset := by
  rw [Origin.ofInstruction, recordedOffset_of_lt (h.presence.faithful.lt_of_instruction? hi)]

theorem keepsHalves (hr : decision.marks.reachable.contains offset = true)
    (hb : decision.evaluation.before? offset = some before) :
    decision.marks.KeepsHalves before.stack :=
  fun _ _ hw hwide => h.presence.wordPresent_of_isWide hr hb hw hwide

/-- All that a necessary instruction takes is present if it stays as it is. -/
theorem wordPresent_of_necessary (hb : decision.evaluation.before? offset = some before)
    (hi : decision.evaluation.instruction? offset = some instruction)
    (hn : decision.marks.necessary.contains offset = true)
    (hreduction : decision.reductions[offset]? = some none) (hnot : instruction.isShuffle = false)
    (he : instruction.stackEffect pool = .ok effect) {position : Nat}
    (hge : before.stack.height - effect.pops ≤ position) (hlt : position < before.stack.height) :
    decision.marks.wordPresent before.stack position = true := by
  have hs : decision.evaluation.stackBefore? offset = some before.stack := by
    rw [Evaluation.stackBefore?, hb]
    rfl
  obtain ⟨word, hw⟩ : ∃ word, before.stack.get? position = some word :=
    ⟨_, Array.getElem?_eq_getElem hlt⟩
  obtain ⟨origin, ho⟩ := List.exists_mem_of_ne_nil _
    ((h.presence.faithful.accounts hb).produced position word hw)
  have hneeded := h.presence.marked.closed (.necessary offset) (.needed ⟨origin, position⟩) hn
    (.operand ⟨hi, hreduction, hnot⟩ hs he hge hw ho)
  exact (Marks.wordPresent_iff hw).mpr
    ⟨origin, ho, h.presence.marked.closed _ _ hneeded (.present _)⟩

/-- What the repairs take for the present result of an instruction. -/
theorem presentOutput_spec {output : Option Value}
    (hr : decision.marks.reachable.contains offset = true)
    (hs : decision.evaluation.Settled context.preciseOptions pool context.code.handlers offset
      before instruction step) (hnot : instruction.isShuffle = false)
    (he : instruction.stackEffect pool = .ok effect)
    (ho : decision.presentOutput offset effect.pushes = .ok output) :
    let present := (List.range effect.pushes).countP fun k =>
      decision.marks.isPresent (.instruction offset) (before.stack.height - effect.pops + k)
    output = none ∧ present = 0 ∨ ∃ value, output = some value ∧
      (value.size = effect.pushes ∧ step.frame.stack.get? (step.frame.stack.height - 1) =
        some ⟨value, OriginSet.ofInstruction offset⟩) ∧ present = effect.pushes := by
  intro present
  have hcount : present = if decision.marks.isPresent (.instruction offset)
      (step.frame.stack.height - 1) then effect.pushes else 0 :=
    h.presence.countP_isPresent hr hs hnot he
  obtain ⟨effect', pushed, heffect, hpushed, hmoves⟩ :=
    Context.execute_moves hs.execute (h.presence.faithful.fits _ _ hs.listed) hnot
  cases he.symm.trans heffect
  unfold Decision.presentOutput at ho
  rw [h.ofInstruction_eq hs.listed] at ho
  dsimp only at ho
  rcases hpushed with ⟨hzero, -⟩ | ⟨value, -, hsize, rfl⟩
  · rw [if_pos hzero] at ho
    cases ho
    left
    refine ⟨rfl, ?_⟩
    rw [hcount, hzero, ite_self]
  · have hheight := hmoves.length_eq
    rw [length_pushedWords, hsize] at hheight
    have hpos := value.size_pos
    rw [if_neg (by omega)] at ho
    obtain ⟨after, hafter, ho⟩ := Except.bind_eq_ok.mp ho
    rw [Decision.recorded, orDefect_eq_ok, Evaluation.stackAfter?, hs.after] at hafter
    obtain rfl : step.frame.stack = after := Option.some.inj hafter
    rw [if_neg (by omega)] at ho
    split at ho
    · rename_i hpresent
      have hget := hmoves.get?_pushed (show _ ≤ step.frame.stack.height - 1 by omega) (by omega)
      rw [Nat.sub_self, getElem?_zero_pushedWords] at hget
      rw [hget] at ho
      cases ho
      exact .inr ⟨value, rfl, ⟨hsize, hget⟩, hcount.trans (if_pos hpresent)⟩
    · rename_i habsent
      cases ho
      exact .inl ⟨rfl, hcount.trans (if_neg habsent)⟩

theorem heightAfter?_inputPops (pool' : ConstantPool) {count : Nat} {pops : List Instruction}
    (hr : decision.marks.reachable.contains offset = true)
    (hb : decision.evaluation.before? offset = some before)
    (hp : decision.inputPops offset count = .ok pops) :
    heightAfter? pool' (decision.marks.presentBelow before.stack (before.stack.height - count)) pops
      (decision.marks.presentBelow before.stack before.stack.height) =
        some (decision.marks.presentBelow before.stack (before.stack.height - count)) := by
  obtain ⟨-, rfl⟩ := Decision.inputPops_eq_ok hb hp
  exact Marks.heightAfter?_popsDownTo pool' (h.keepsHalves hr hb) _ _ (Nat.sub_le _ _)

/-- The final reduction of an instruction that pushes is its own. -/
theorem reduces_of_pushes {reduction : Reduction} (hpush : reduction.Pushes)
    (hreduction : decision.reductions[offset]? = some (some reduction)) :
    original[offset]? = some (some reduction) ∧ ∃ instruction,
      decision.evaluation.Reduces context.around.settings.simplify sideEffects offset instruction
        reduction := by
  have horiginal := h.presence.marked.loops.eq_of_ne_loop hreduction (by
    rintro ⟨⟩
    rcases hpush with ⟨value, hv⟩ | ⟨slot, hs⟩
    · cases hv
    · cases hs)
  exact ⟨horiginal, h.reduced offset reduction horiginal⟩

/-- The words of a push that stands in for an instruction are present. -/
theorem countP_of_pushes (hassumptions : context.assumptions.IgnoreInitializers)
    {reduction : Reduction} (hpush : reduction.Pushes)
    (hr : decision.marks.reachable.contains offset = true)
    (hb : decision.evaluation.before? offset = some before)
    (hs : decision.evaluation.Settled context.preciseOptions pool context.code.handlers offset
      before instruction step)
    (hn : decision.marks.necessary.contains offset = true)
    (hreduction : decision.reductions[offset]? = some (some reduction))
    (he : instruction.stackEffect pool = .ok effect) :
    ((List.range effect.pushes).countP fun k =>
      decision.marks.isPresent (.instruction offset) (before.stack.height - effect.pops + k)) =
        effect.pushes := by
  obtain ⟨horiginal, instruction', hreduces⟩ := h.reduces_of_pushes hpush hreduction
  cases hs.listed.symm.trans hreduces.listed
  have hpresent :=
    h.presence.isPresent_of_reduced hassumptions h.reduced hr hb hs hn horiginal hpush
  have hcount := h.presence.countP_isPresent hr hs (hreduces.pushed hpush).2.1 he
  rwa [if_pos hpresent] at hcount

/-- A branch that is reduced pushes nothing. -/
theorem pushes_of_branches {reduction : Reduction} (hnot : ¬ reduction.Pushes)
    (hreduction : decision.reductions[offset]? = some (some reduction))
    (hi : decision.evaluation.instruction? offset = some instruction)
    (he : instruction.stackEffect pool = .ok effect) : effect.pushes = 0 := by
  have hbranch {reduction : Reduction} (hnot : ¬ reduction.Pushes)
      (horiginal : original[offset]? = some (some reduction)) : effect.pushes = 0 := by
    obtain ⟨instruction', hreduces⟩ := h.reduced offset reduction horiginal
    cases hi.symm.trans hreduces.listed
    have hflow := (hreduces.branches hnot).1
    refine Instruction.pushes_of_flow he (fun hs => ?_) (fun hcall => ?_)
    · rcases hflow with hflow | hflow <;> cases hs.symm.trans hflow
    · rw [Instruction.flow, hcall] at hflow
      rcases hflow with hflow | hflow <;> cases hflow
  rcases h.presence.marked.loops offset with hsame | ⟨-, other, head, horiginal, hhead, -⟩
  · exact hbranch hnot (hsame ▸ hreduction)
  · rcases (Subject.backwardGoto?_eq_some hhead).2 with rfl | ⟨rfl, instruction', -, hi', hjump, -⟩
    · exact hbranch (Reduction.not_pushes_goto _) horiginal
    · cases hi.symm.trans hi'
      refine Instruction.pushes_of_flow he (fun hs => ?_) (fun hcall => ?_)
      · rw [Instruction.flow, hjump] at hs
        cases hs
      · rw [hjump] at hcall
        cases hcall

/-- **What is emitted for an instruction** takes nothing below what the instruction takes, and
leaves what is present of its results, with those that a kept pop discards. -/
theorem heightAfter?_of_emits (hassumptions : context.assumptions.IgnoreInitializers)
    {old new pool' : ConstantPool} {code : List Instruction} {keeps : Option Nat}
    (hold : pool.Extends old) (hnew : old.Extends new) (hlast : new.Extends pool')
    (hr : decision.marks.reachable.contains offset = true)
    (hb : decision.evaluation.before? offset = some before)
    (hs : decision.evaluation.Settled context.preciseOptions pool context.code.handlers offset
      before instruction step)
    (he : instruction.stackEffect pool = .ok effect)
    (hemits : decision.Emits old new offset instruction false code keeps) :
    heightAfter? pool'
        (decision.marks.presentBelow before.stack (before.stack.height - effect.pops)) code
        (decision.marks.presentBelow before.stack before.stack.height) =
      some (decision.marks.presentBelow before.stack (before.stack.height - effect.pops) +
        ((List.range effect.pushes).countP fun k =>
          decision.marks.isPresent (.instruction offset) (before.stack.height - effect.pops + k)) +
        if keeps.isSome then effect.pushes else 0) := by
  have hi := hs.listed
  have heffect' : instruction.stackEffect pool' = .ok effect :=
    instruction.stable_stackEffect _ _ _ (hold.trans (hnew.trans hlast)) he
  have hsame {effect' : StackEffect} (he' : instruction.stackEffect old = .ok effect') :
      effect' = effect :=
    Except.ok.inj (he'.symm.trans (instruction.stable_stackEffect _ _ _ hold he))
  obtain ⟨effect', pushed, heffect, hlength, -, hmoves⟩ :=
    Context.execute_effect hs.execute (h.presence.faithful.fits _ _ hi)
  cases he.symm.trans heffect
  have hle := hmoves.le_height
  have hfull (hn : decision.marks.necessary.contains offset = true)
      (hreduction : decision.reductions[offset]? = some none)
      (hnot : instruction.isShuffle = false) :
      decision.marks.presentBelow before.stack before.stack.height =
        decision.marks.presentBelow before.stack (before.stack.height - effect.pops) +
          effect.pops := by
    rw [Marks.presentBelow_of_present (Nat.sub_le _ _) fun position hge hlt =>
      h.wordPresent_of_necessary hb hi hn hreduction hnot he hge hlt]
    omega
  have hone (hnot : instruction.isShuffle = false) (hpos : 0 < effect.pushes) :
      effect.pushes = 1 ∨ effect.pushes = 2 := by
    obtain ⟨effect', heffect, hsize⟩ :=
      Context.pushes_of_execute hs.execute (h.presence.faithful.fits _ _ hi) hnot
    cases he.symm.trans heffect
    exact hsize.resolve_left (Nat.pos_iff_ne_zero.mp hpos)
  cases hemits with
  | unreachable hunreachable =>
    rw [hr] at hunreachable
    cases hunreachable
  | keptPop _ _ hk => cases hk
  | shuffle _ hshuffle _ hstack hwords hplan =>
    obtain ⟨move, hmove⟩ := Option.isSome_iff_exists.mp hshuffle
    have hop := Instruction.shuffle?_eq_some_iff.mp hmove
    cases he.symm.trans (stackEffect_of_shuffle hop pool)
    rw [Evaluation.stackBefore?, hb] at hstack
    obtain rfl := Option.some.inj hstack
    obtain ⟨-, hinputs, houtputs⟩ := Marks.length_shuffleWords hop hwords
    rw [h.ofInstruction_eq hi] at houtputs
    rw [hinputs, Shuffle.heightAfter?_of_moveAll? pool' _ (moveAll?_of_planShuffles? hplan),
      houtputs]
    rfl
  | stays hhandles hn ho hgives =>
    obtain rfl := hsame hhandles.effect
    have hfull := hfull hn hhandles.reduction hhandles.not_shuffle
    have hcount := h.presentOutput_spec hr hs hhandles.not_shuffle he ho
    rw [heightAfter?_cons _ heffect' (by omega), heightAfter?_nil]
    rcases hcount with ⟨rfl, hcount⟩ | ⟨value, rfl, -, hcount⟩
    · have hzero := hgives.resolve_right (by simp)
      rw [hcount, hzero, hfull]
      simp
    · rw [hcount, hfull]
      simp
  | @call effect targets target opcode hhandles hn ho hcall ht hhead hreturns hopcode =>
    obtain rfl := hsame hhandles.effect
    have hfull := hfull hn hhandles.reduction hhandles.not_shuffle
    have hjump : (⟨opcode, instruction.operand⟩ : Instruction).operation = .jump := by
      unfold Instruction.operation
      dsimp only
      rw [hopcode]
      split
      · exact operation_gotoW
      · exact operation_goto
    have hpops : effect.pops = 0 := by
      unfold Instruction.stackEffect at he
      rw [hcall] at he
      cases he
      rfl
    rcases h.presentOutput_spec hr hs hhandles.not_shuffle he ho with
      ⟨-, hcount⟩ | ⟨value, hvalue, -⟩
    · rw [heightAfter?_cons _ (stackEffect_of_jump hjump pool') (by omega), heightAfter?_nil, hcount,
        hfull, hpops]
      rfl
    · cases hvalue
  | discards hhandles hn ho hcall hpushes hpop =>
    obtain rfl := hsame hhandles.effect
    have hfull := hfull hn hhandles.reduction hhandles.not_shuffle
    have hwords := hone hhandles.not_shuffle hpushes
    rcases h.presentOutput_spec hr hs hhandles.not_shuffle he ho with
      ⟨-, hcount⟩ | ⟨value, hvalue, -⟩
    · rw [heightAfter?_cons _ heffect' (by omega), heightAfter?_popOf hwords _ (by omega),
        heightAfter?_nil, hcount, hfull]
      simp
    · cases hvalue
  | keeps hhandles hn ho hcall hpushes hpop =>
    obtain rfl := hsame hhandles.effect
    have hfull := hfull hn hhandles.reduction hhandles.not_shuffle
    rcases h.presentOutput_spec hr hs hhandles.not_shuffle he ho with
      ⟨-, hcount⟩ | ⟨value, hvalue, -⟩
    · rw [heightAfter?_cons _ heffect' (by omega), heightAfter?_nil, hcount, hfull]
      simp
    · cases hvalue
  | constant hhandles hn hp hv =>
    obtain rfl := hsame hhandles.effect
    obtain ⟨-, instruction', hreduces⟩ :=
      h.reduces_of_pushes (.inl ⟨_, rfl⟩) hhandles.reduction
    cases hi.symm.trans hreduces.listed
    obtain ⟨-, hnot, pushedValue, hvalue, hreduce⟩ := hreduces.pushed (.inl ⟨_, rfl⟩)
    obtain ⟨rfl, -⟩ := reducePush?_eq_constant hreduce
    obtain ⟨effect', heffect, -, hsize, -⟩ :=
      h.presence.faithful.pushedValue?_eq_some hb hs hnot hvalue
    cases he.symm.trans heffect
    have hcount := h.countP_of_pushes hassumptions (.inl ⟨_, rfl⟩) hr hb hs hn hhandles.reduction he
    rw [heightAfter?_append _ (h.heightAfter?_inputPops pool' hr hb hp),
      heightAfter?_of_pops_zero ((gives_of_constantPush hv).stackEffect pool'), hcount, hsize]
    rfl
  | «alias» hhandles hn ha =>
    obtain rfl := hsame hhandles.effect
    have hcount := h.countP_of_pushes hassumptions (.inr ⟨_, rfl⟩) hr hb hs hn hhandles.reduction he
    obtain ⟨-, instruction', hreduces⟩ :=
      h.reduces_of_pushes (.inr ⟨_, rfl⟩) hhandles.reduction
    cases hi.symm.trans hreduces.listed
    obtain ⟨-, -, pushedValue, -, hreduce⟩ := hreduces.pushed (.inr ⟨_, rfl⟩)
    obtain ⟨kind, index, locals, haccess, -, -⟩ := reducePush?_eq_alias hreduce
    cases ha.symm.trans haccess
    cases he.symm.trans (stackEffect_of_load haccess pool)
    rw [hcount]
    exact heightAfter?_of_pops_zero (stackEffect_of_load (Instruction.localAccess?_load _ _) pool')
  | goto hhandles hn hp hd | loop hhandles hn hp =>
    obtain rfl := hsame hhandles.effect
    have hzero := h.pushes_of_branches (by simp) hhandles.reduction hi he
    rw [heightAfter?_append _ (h.heightAfter?_inputPops pool' hr hb hp),
      heightAfter?_of_pops_zero (stackEffect_of_jump (operation_branch_goto _) pool'), hzero]
    rfl
  | drop hhandles hn hp =>
    obtain rfl := hsame hhandles.effect
    have hzero := h.pushes_of_branches Reduction.not_pushes_drop hhandles.reduction hi he
    rw [h.heightAfter?_inputPops pool' hr hb hp, hzero]
    rfl
  | @unnecessary effect reduction output placeholder pops hhandles hn ho hplaceholder hp =>
    obtain rfl := hsame hhandles.effect
    have hpops : heightAfter? pool'
        (decision.marks.presentBelow before.stack (before.stack.height - effect.pops)) pops
        (decision.marks.presentBelow before.stack before.stack.height) =
          some (decision.marks.presentBelow before.stack (before.stack.height - effect.pops)) := by
      rcases hp with ⟨hzero, rfl⟩ | hp
      · rw [hzero]
        rfl
      · exact h.heightAfter?_inputPops pool' hr hb hp
    rw [heightAfter?_append _ hpops]
    rcases h.presentOutput_spec hr hs hhandles.not_shuffle he ho with
      ⟨rfl, hcount⟩ | ⟨value, rfl, ⟨hsize, -⟩, hcount⟩
    · rcases hplaceholder with ⟨-, rfl⟩ | ⟨value, push, hvalue, -⟩
      · rw [hcount]
        rfl
      · cases hvalue
    · rcases hplaceholder with ⟨hnone, -⟩ | ⟨value', push, hvalue, hpush, rfl⟩
      · cases hnone
      · cases hvalue
        obtain ⟨given, kind, hgives, hkind, hkind'⟩ := gives_of_placeholderPush pool' hpush
        have hsize' : given.size = effect.pushes := by
          rw [← hsize, Value.size_of_kind? hkind, Value.size_of_kind? hkind']
        rw [Option.toList_some, heightAfter?_of_pops_zero (hgives.stackEffect pool'), hcount, hsize']
        rfl

end MethodContext.Decided

/-! ## Pops that are kept -/

theorem Listing.nextOffset_injective {code : List UInt8} {listing : Listing}
    (h : ofCode code = .ok listing) {a b : Nat} (ha : (listing.get? a).isSome = true)
    (hb : (listing.get? b).isSome = true) (heq : listing.nextOffset a = listing.nextOffset b) :
    a = b := by
  obtain ⟨first, hfirst⟩ := Option.isSome_iff_exists.mp ha
  obtain ⟨second, hsecond⟩ := Option.isSome_iff_exists.mp hb
  have hlt := lt_nextOffset hfirst
  have hlt' := lt_nextOffset hsecond
  rcases Nat.lt_trichotomy a b with hab | hab | hab
  · have hle := nextOffset_le h ha hb hab
    omega
  · exact hab
  · have hle := nextOffset_le h hb ha hab
    omega

namespace Decision

/-- What is emitted for an instruction. A pop that is kept to discard what the instruction in front
of it gives counts as part of that instruction. -/
def emittedFor (decision : Decision) (state : RepairState) (offset : Nat)
    (instruction : Instruction) : List Instruction :=
  let next := decision.evaluation.nextOffset offset
  (if state.keptPops.contains offset then [] else (state.edit.site offset).emitted instruction) ++
    if state.keptPops.contains next then (decision.evaluation.instruction? next).toList else []

/-- Number of words that are present before an offset. -/
def presentBefore? (decision : Decision) (offset : Nat) : Option Nat :=
  (decision.evaluation.before? offset).map fun before =>
    decision.marks.presentBelow before.stack before.stack.height

/-- Number of words after what is emitted for the instruction at `offset`, started on the words that
are present before it; none if that takes a word below those that the instruction takes. -/
def leftBehind? (decision : Decision) (pool pool' : ConstantPool) (state : RepairState)
    (offset : Nat) : Option Nat := do
  let instruction ← decision.evaluation.instruction? offset
  let before ← decision.evaluation.before? offset
  let effect ← (instruction.stackEffect pool).toOption
  heightAfter? pool' (decision.marks.presentBelow before.stack (before.stack.height - effect.pops))
    (decision.emittedFor state offset instruction)
    (decision.marks.presentBelow before.stack before.stack.height)

theorem leftBehind?_eq {decision : Decision} {pool pool' : ConstantPool} {state : RepairState}
    {offset : Nat} {instruction : Instruction} {before : Frame} {effect : StackEffect}
    (hi : decision.evaluation.instruction? offset = some instruction)
    (hb : decision.evaluation.before? offset = some before)
    (he : instruction.stackEffect pool = .ok effect) :
    decision.leftBehind? pool pool' state offset = heightAfter? pool'
      (decision.marks.presentBelow before.stack (before.stack.height - effect.pops))
      (decision.emittedFor state offset instruction)
      (decision.marks.presentBelow before.stack before.stack.height) := by
  simp only [leftBehind?, hi, hb, he, Except.toOption, Option.bind_eq_bind, Option.bind_some]

/-- All repairs of a body, started with no edits. -/
def repairs (decision : Decision) (pool : ConstantPool) :
    Except Failure (Unit × RepairState) × ConstantPool :=
  (decision.repairAll.run ⟨Edit.ofSize decision.evaluation.size, {},
    IndexSet.ofCapacity decision.evaluation.size⟩).apply pool

/-- Whether a pop is kept for an instruction does not depend on what is emitted around it. -/
theorem Emits.keeps_eq {decision : Decision} {pool old new old' new' : ConstantPool}
    {offset next : Nat} {instruction : Instruction} {isKept : Bool} {code code' : List Instruction}
    {keeps : Option Nat} (hold : pool.Extends old) (hold' : pool.Extends old')
    (heffect : ∃ effect, instruction.stackEffect pool = .ok effect)
    (h : decision.Emits old new offset instruction false code keeps)
    (h' : decision.Emits old' new' offset instruction isKept code' (some next)) :
    keeps = some next := by
  obtain ⟨effect, heffect⟩ := heffect
  cases h' with
  | keeps hhandles hn ho hcall hpushes hpop =>
    have hsame := hhandles.effect.symm.trans
      (Instruction.stable_stackEffect _ _ _ _ hold' heffect)
    cases hsame
    have heffect' := Instruction.stable_stackEffect _ _ _ _ hold heffect
    cases h with
    | unreachable hr => exact absurd hhandles.reachable (by rw [hr]; simp)
    | keptPop _ _ hk => cases hk
    | shuffle _ hs => exact absurd hs (by rw [hhandles.not_shuffle]; simp)
    | stays hstays _ ho' hgives =>
      cases hstays.effect.symm.trans heffect'
      cases ho.symm.trans ho'
      rcases hgives with hzero | hsome
      · omega
      · cases hsome
    | call _ _ _ hcall' => exact absurd hcall' hcall
    | discards hdiscards _ _ _ _ hpop' =>
      cases hdiscards.effect.symm.trans heffect'
      cases hpop.symm.trans hpop'
    | keeps hkeeps _ _ _ _ hpop' =>
      cases hkeeps.effect.symm.trans heffect'
      exact hpop'.symm.trans hpop
    | constant hreduced => cases hreduced.reduction.symm.trans hhandles.reduction
    | «alias» hreduced => cases hreduced.reduction.symm.trans hhandles.reduction
    | goto hreduced => cases hreduced.reduction.symm.trans hhandles.reduction
    | loop hreduced => cases hreduced.reduction.symm.trans hhandles.reduction
    | drop hreduced => cases hreduced.reduction.symm.trans hhandles.reduction
    | unnecessary _ hn' => exact absurd hn (by rw [hn']; simp)

end Decision

namespace MethodContext.Decided

variable {context : MethodContext} {pool : ConstantPool} {decision : Decision}
  {sideEffects : IndexSet} {entry before : Frame} {original : Reductions} {simple : Evaluation}
  {offset next : Nat} {instruction : Instruction} {effect : StackEffect}
  (h : context.Decided pool decision sideEffects entry original simple)

include h

theorem leads_iff_of_sequential (hr : decision.marks.reachable.contains offset = true)
    (hi : decision.evaluation.instruction? offset = some instruction)
    (hflow : instruction.flow = .sequential) {successor : Nat} :
    decision.evaluation.Leads offset successor ↔
      successor = decision.evaluation.nextOffset offset := by
  constructor
  · intro hleads
    obtain ⟨frame, instruction', step, target, -, hi', he, ht, hreceives, rfl⟩ :=
      h.presence.faithful.history.edges offset successor hleads
    cases hi.symm.trans hi'
    rw [Context.successors_of_sequential he hflow, List.mem_singleton] at ht
    rw [recordedOffset_of_lt (h.presence.faithful.lt_of_receives hreceives), ht]
    rfl
  · rintro rfl
    obtain ⟨before, instruction', step, -, hs⟩ := h.presence.settled hr
    cases hi.symm.trans hs.listed
    obtain ⟨hleads, hreceives⟩ := hs.successors (decision.evaluation.nextOffset offset) (by
      rw [Context.successors_of_sequential hs.execute hflow]
      exact List.mem_singleton_self _) rfl
    rwa [recordedOffset_of_lt (h.presence.faithful.lt_of_receives hreceives)] at hleads

/-- A pop that is kept discards all that the instruction in front of it gives, and nothing of that is
present. -/
theorem discards_of_keeps {old new : ConstantPool} {isKept : Bool} {code : List Instruction}
    (hold : pool.Extends old) (hi : decision.evaluation.instruction? offset = some instruction)
    (hemits : decision.Emits old new offset instruction isKept code (some next)) :
    next = decision.evaluation.nextOffset offset ∧ instruction.isShuffle = false ∧
      ∃ effect pop, instruction.stackEffect pool = .ok effect ∧
        decision.evaluation.instruction? next = some pop ∧ pop.isShuffle = true ∧
        (∀ pool, pop.stackEffect pool = .ok ⟨effect.pushes, 0⟩) ∧
        ∀ before, decision.evaluation.before? next = some before →
          ∀ position, before.stack.height - effect.pushes ≤ position →
            position < before.stack.height →
              decision.marks.wordPresent before.stack position = false := by
  cases hemits with
  | @keeps effect _ hhandles hn ho hcall hpushes hpop =>
    obtain ⟨rfl, hr', pop, stack, top, hpop, hopcode, -, -, -⟩ :=
      Decision.discardingPop?_eq_some hpop
    have hr := hhandles.reachable
    obtain ⟨frame, instruction', step, hb, hs⟩ := h.presence.settled hr
    cases hi.symm.trans hs.listed
    obtain ⟨effect', he, hsize⟩ := Context.pushes_of_execute hs.execute
      (h.presence.faithful.fits _ _ hs.listed) hhandles.not_shuffle
    cases hhandles.effect.symm.trans (Instruction.stable_stackEffect _ _ _ _ hold he)
    have hsize := hsize.resolve_left (Nat.pos_iff_ne_zero.mp hpushes)
    have hoperation : pop.operation = .shuffle (Shuffle.popOf effect.pushes) := by
      rw [Instruction.operation, hopcode, popOf_eq]
      exact operation_ofShuffle _
    refine ⟨rfl, hhandles.not_shuffle, effect, pop, he, hpop, ?_, fun pool => ?_, ?_⟩
    · rw [Instruction.isShuffle, Instruction.shuffle?_eq_some_iff.mpr hoperation]
      rfl
    · rw [stackEffect_of_shuffle hoperation, ← stackEffect_of_shuffle (operation_ofShuffle _) pool,
        ← popOf_eq, stackEffect_popOf hsize]
    · intro before hbefore position hge hlt
      have hflow : instruction.flow = .sequential := by
        by_contra hflow
        have := Instruction.pushes_of_flow he hflow hcall
        omega
      obtain ⟨instruction', frame', next, effect', hi', hb', hn', he', hpasses⟩ :=
        h.presence.faithful.passes ((h.leads_iff_of_sequential hr hi hflow).mpr rfl)
      cases hi.symm.trans hi'
      cases he.symm.trans he'
      cases hbefore.symm.trans hn'
      cases hb.symm.trans hb'
      have hheight := hpasses.height_eq
      obtain ⟨word, hw, hproducer⟩ := hpasses.pushed position (by omega) hlt
      rcases h.presentOutput_spec hr hs hhandles.not_shuffle he ho with
        ⟨-, hcount⟩ | ⟨value, hvalue, -⟩
      · rw [List.countP_eq_zero] at hcount
        have habsent := hcount (position - (frame.stack.height - effect.pops))
          (List.mem_range.mpr (by omega))
        rw [Nat.add_sub_cancel' (by omega)] at habsent
        by_contra hpresent
        rw [Bool.not_eq_false, h.presence.wordPresent_iff hr' hn' hw hproducer] at hpresent
        exact habsent hpresent
      · cases hvalue

/-- A pop that is kept takes nothing that is present. -/
theorem presentBelow_of_kept (hb : decision.evaluation.before? offset = some before)
    (hi : decision.evaluation.instruction? offset = some instruction)
    (he : instruction.stackEffect pool = .ok effect)
    (hkept : decision.KeepsFor pool decision.evaluation.instructions offset) :
    instruction.isShuffle = true ∧ effect.pushes = 0 ∧
      decision.marks.presentBelow before.stack before.stack.height =
        decision.marks.presentBelow before.stack (before.stack.height - effect.pops) := by
  obtain ⟨first, hmem, old, new, isKept, code, hold, hemits⟩ := hkept
  have hfirst := (Listing.get?_eq_some_iff h.presence.faithful.listing).mpr hmem
  obtain ⟨-, -, effect', pop, -, hpop, hshuffle, heffect, habsent⟩ :=
    h.discards_of_keeps hold hfirst hemits
  cases hi.symm.trans hpop
  cases he.symm.trans (heffect pool)
  exact ⟨hshuffle, rfl, Marks.presentBelow_of_absent (Nat.sub_le _ _) (habsent before hb)⟩

/-- The pop behind an instruction is kept for that instruction. -/
theorem keepsFor_nextOffset (hi : decision.evaluation.instruction? offset = some instruction)
    (hkept : decision.KeepsFor pool decision.evaluation.instructions
      (decision.evaluation.nextOffset offset)) :
    ∃ old new isKept code, pool.Extends old ∧ decision.Emits old new offset instruction isKept code
      (some (decision.evaluation.nextOffset offset)) := by
  obtain ⟨⟨first, instruction'⟩, hmem, old, new, isKept, code, hold, hemits⟩ := hkept
  have hlisting := h.presence.faithful.listing
  have hfirst := (Listing.get?_eq_some_iff hlisting).mpr hmem
  obtain ⟨hnext, -⟩ := h.discards_of_keeps hold hfirst hemits
  obtain rfl := Listing.nextOffset_injective hlisting (Option.isSome_of_eq_some hi)
    (Option.isSome_of_eq_some hfirst) hnext
  cases hi.symm.trans hfirst
  exact ⟨old, new, isKept, code, hold, hemits⟩

/-- What is emitted for an instruction, with a pop that it keeps, takes nothing below what the
instruction takes, and leaves what is present of its results. -/
theorem heightAfter?_emittedFor (hassumptions : context.assumptions.IgnoreInitializers)
    {pool' : ConstantPool} {state : RepairState}
    (hr : decision.marks.reachable.contains offset = true)
    (hb : decision.evaluation.before? offset = some before)
    (hi : decision.evaluation.instruction? offset = some instruction)
    (he : instruction.stackEffect pool = .ok effect)
    (hrepaired : decision.Repaired pool pool' state offset instruction)
    (hkeeps : ∀ o, state.keptPops.contains o = true →
      decision.KeepsFor pool decision.evaluation.instructions o) :
    heightAfter? pool'
        (decision.marks.presentBelow before.stack (before.stack.height - effect.pops))
        (decision.emittedFor state offset instruction)
        (decision.marks.presentBelow before.stack before.stack.height) =
      some (decision.marks.presentBelow before.stack (before.stack.height - effect.pops) +
        (List.range effect.pushes).countP fun k =>
          decision.marks.isPresent (.instruction offset)
            (before.stack.height - effect.pops + k)) := by
  obtain ⟨old, new, keeps, hold, hnew, hlast, hemits, hset⟩ := hrepaired
  unfold Decision.emittedFor
  cases hkept : state.keptPops.contains offset with
  | true =>
    obtain ⟨hshuffle, hpushes, hpresent⟩ := h.presentBelow_of_kept hb hi he (hkeeps _ hkept)
    have hnext : state.keptPops.contains (decision.evaluation.nextOffset offset) = false := by
      by_contra hnext
      obtain ⟨old, new, isKept, code, hold, hemits⟩ :=
        h.keepsFor_nextOffset hi (hkeeps _ (Bool.not_eq_false _ ▸ hnext))
      obtain ⟨-, hnot, -⟩ := h.discards_of_keeps hold hi hemits
      cases hshuffle.symm.trans hnot
    simp only [hnext, if_true, Bool.false_eq_true, if_false, List.append_nil]
    rw [hpresent, hpushes]
    rfl
  | false =>
    rw [hkept] at hemits
    obtain ⟨before', instruction', step, hb', hs⟩ := h.presence.settled hr
    cases hb.symm.trans hb'
    cases hi.symm.trans hs.listed
    have hemitted := h.heightAfter?_of_emits hassumptions hold hnew hlast hr hb hs he hemits
    simp only [Bool.false_eq_true, if_false]
    rw [heightAfter?_append _ hemitted]
    cases hnext : state.keptPops.contains (decision.evaluation.nextOffset offset) with
    | true =>
      obtain ⟨old', new', isKept, code, hold', hemits'⟩ := h.keepsFor_nextOffset hi (hkeeps _ hnext)
      obtain rfl := hemits.keeps_eq hold hold' ⟨effect, he⟩ hemits'
      obtain ⟨-, -, effect', pop, he', hpop, -, heffect, -⟩ :=
        h.discards_of_keeps hold' hi hemits'
      cases he.symm.trans he'
      simp only [hpop, Option.toList_some, Option.isSome_some, if_true]
      rw [heightAfter?_cons _ (heffect pool') (by omega), heightAfter?_nil]
      exact congrArg some (by omega)
    | false =>
      obtain rfl : keeps = none := by
        cases hk : keeps with
        | none => rfl
        | some kept =>
          subst hk
          obtain ⟨rfl, -⟩ := h.discards_of_keeps hold hi hemits
          cases (hset _ rfl).symm.trans hnext
      simp only [Option.isSome_none, Bool.false_eq_true, if_false, Nat.add_zero, heightAfter?_nil]

end MethodContext.Decided

/-- Whether all constant loads of a listing load values of their size. -/
def Listing.loadsFit (listing : Listing) (pool : ConstantPool) : Bool :=
  listing.table.all fun entry => entry.all (·.loadFits pool)

theorem Listing.loadFits_of_loadsFit {listing : Listing} {pool : ConstantPool}
    (h : listing.loadsFit pool = true) {offset : Nat} {instruction : Instruction}
    (hi : listing.get? offset = some instruction) : instruction.loadFits pool = true := by
  have hentry : listing.table[offset]? = some (some instruction) := Option.join_eq_some_iff.mp hi
  have hall := Array.all_eq_true_iff_forall_mem.mp h _ (Array.mem_of_getElem? hentry)
  simpa only [Option.all_some] using hall

/-- **Repairs keep the stack balanced.** Along every edge of the control flow, what is emitted for
the instruction takes nothing below the words that the instruction takes, and it leaves as many words
as are present before its successor. -/
theorem MethodContext.leftBehind?_eq_presentBefore? {context : MethodContext}
    {pool pool' : ConstantPool} {decision : Decision} {state : RepairState}
    (hdecide : context.decide pool = .ok decision)
    (hfits : decision.evaluation.listing.loadsFit pool = true)
    (hsize : context.code.bytes.length ≤ UInt32.size)
    (hassumptions : context.assumptions.IgnoreInitializers)
    (hrepairs : decision.repairs pool = (.ok ((), state), pool'))
    {offset successor : Nat} {targets : OffsetSet}
    (hr : decision.marks.reachable.contains offset = true)
    (htargets : decision.evaluation.targets offset = .ok targets)
    (hmem : successor ∈ targets.elements)
    (hr' : decision.marks.reachable.contains successor = true) :
    ∃ height, decision.leftBehind? pool pool' state offset = some height ∧
      decision.presentBefore? successor = some height := by
  obtain ⟨sideEffects, entry, original, simple, h⟩ :=
    decided_of_decide hdecide (fun _ _ => Listing.loadFits_of_loadsFit hfits) hsize
  obtain ⟨-, hrepaired, hkeeps⟩ :=
    Decision.repaired_of_repairAll h.presence.faithful.listing hrepairs
  obtain ⟨instruction, before, next, effect, hi, hb, hn, he, hpasses⟩ :=
    h.presence.faithful.passes (Evaluation.leads_iff.mpr ⟨targets, htargets, hmem⟩)
  have hleft := h.heightAfter?_emittedFor hassumptions hr hb hi he (hrepaired _ _ hi) hkeeps
  rw [← h.presence.presentBelow_of_passes hr hr' hb hn hpasses] at hleft
  exact ⟨_, (decision.leftBehind?_eq hi hb he).trans hleft, congrArg (Option.map _) hn⟩

/-- A method that divides 100 by its argument and discards the result. -/
def quotient : MethodContext where
  around := ⟨.empty, .standard, .empty⟩
  assumptions := .none
  owner := "Quotients"
  method := ⟨AccessFlags.static, "check", "(I)I", none⟩
  code := ⟨2, 1, [0x10, 100, 0x1A, 0x6C, 0x57, 0x08, 0xAC], [], [], []⟩

theorem Assumptions.ignoreInitializers_none : Assumptions.none.IgnoreInitializers := by
  intro member value _ h
  cases h

/-- The division keeps the pop behind it. -/
theorem leftBehind?_quotient : ∃ decision state pool',
    quotient.decide ⟨#[]⟩ = .ok decision ∧ decision.repairs ⟨#[]⟩ = (.ok ((), state), pool') ∧
      decision.marks.reachable.contains 3 = true ∧ decision.marks.reachable.contains 4 = true ∧
      decision.evaluation.targets 3 = .ok (OrderedSet.singleton 4) ∧
      ∃ height, decision.leftBehind? ⟨#[]⟩ pool' state 3 = some height ∧
        decision.presentBefore? 4 = some height := by
  obtain ⟨decision, hdecide⟩ := Except.exists_ok
    (by decide +kernel : (quotient.decide ⟨#[]⟩).isOk = true)
  have hchecks : (quotient.decide ⟨#[]⟩).toOption.all (fun decision =>
      (decision.repairs ⟨#[]⟩).1.isOk && decision.marks.reachable.contains 3 &&
        decision.marks.reachable.contains 4 && decision.evaluation.listing.loadsFit ⟨#[]⟩ &&
        decide (decision.evaluation.targets 3 = .ok (OrderedSet.singleton 4))) = true := by
    decide +kernel
  simp only [hdecide, Except.toOption, Option.all_some, Bool.and_eq_true, decide_eq_true_eq]
    at hchecks
  obtain ⟨⟨⟨⟨hok, hr⟩, hr'⟩, hfits⟩, htargets⟩ := hchecks
  obtain ⟨⟨⟨⟩, state⟩, hstate⟩ := Except.exists_ok hok
  have hrepairs : decision.repairs ⟨#[]⟩ = (.ok ((), state), (decision.repairs ⟨#[]⟩).2) :=
    Prod.ext hstate rfl
  exact ⟨decision, state, _, hdecide, hrepairs, hr, hr', htargets,
    MethodContext.leftBehind?_eq_presentBefore? hdecide hfits (by decide)
      Assumptions.ignoreInitializers_none hrepairs hr htargets (List.mem_singleton_self _) hr'⟩

/-- A method that creates an object, in a program that assumes of the constructor that it has no side
effects and returns 5. -/
def creation : MethodContext where
  around := ⟨.empty, Settings.standard.assumePure "a/A" "<init>" "()I", .empty⟩
  assumptions := (Seeds.empty.setResult ⟨"a/A", "<init>", "()I"⟩ (.ofInt 5)).assumptions
  owner := "a/B"
  method := ⟨AccessFlags.static, "m", "()La/A;", none⟩
  code := ⟨2, 0, [0xBB, 0, 2, 0x59, 0xB7, 0, 6, 0x57, 0xB0], [], [], []⟩

/-- The constants of its class. -/
def creationPool : ConstantPool :=
  ⟨#[none, some (.utf8 "a/A"), some (.class 1), some (.utf8 "<init>"), some (.utf8 "()I"),
    some (.nameAndType 3 4), some (.methodref 2 5)]⟩

/-- A constructor call that is known to return a number leaves it behind, though nothing of it is
present: the call is necessary for the object, and its result is used nowhere. -/
theorem leftBehind?_creation : ∃ decision state pool',
    creation.decide creationPool = .ok decision ∧
      decision.repairs creationPool = (.ok ((), state), pool') ∧
      decision.evaluation.listing.loadsFit creationPool = true ∧
      decision.marks.reachable.contains 4 = true ∧ decision.marks.reachable.contains 7 = true ∧
      decision.evaluation.targets 4 = .ok (OrderedSet.singleton 7) ∧
      decision.leftBehind? creationPool pool' state 4 = some 2 ∧
      decision.presentBefore? 7 = some 1 := by
  obtain ⟨decision, hdecide⟩ := Except.exists_ok
    (by decide +kernel : (creation.decide creationPool).isOk = true)
  have hchecks : (creation.decide creationPool).toOption.all (fun decision =>
      (decision.repairs creationPool).1.toOption.any (fun result =>
        decide (decision.leftBehind? creationPool (decision.repairs creationPool).2 result.2 4 =
          some 2)) && decision.marks.reachable.contains 4 &&
        decision.marks.reachable.contains 7 && decision.evaluation.listing.loadsFit creationPool &&
        decide (decision.evaluation.targets 4 = .ok (OrderedSet.singleton 7)) &&
        decide (decision.presentBefore? 7 = some 1)) = true := by
    decide +kernel
  simp only [hdecide, Except.toOption, Option.all_some, Bool.and_eq_true, decide_eq_true_eq]
    at hchecks
  obtain ⟨⟨⟨⟨⟨hok, hr⟩, hr'⟩, hfits⟩, htargets⟩, hpresent⟩ := hchecks
  cases hstate : (decision.repairs creationPool).1 with
  | error failure =>
    rw [hstate] at hok
    cases hok
  | ok result =>
    obtain ⟨⟨⟩, state⟩ := result
    simp only [hstate, Option.any_some, decide_eq_true_eq] at hok
    exact ⟨decision, state, _, hdecide, Prod.ext hstate rfl, hfits, hr, hr', htargets, hok,
      hpresent⟩

end JvmTrim
