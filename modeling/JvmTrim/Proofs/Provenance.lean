import JvmTrim.Proofs.Attribution

/-!
# Where stack words and variables come from

Every word of a recorded stack has a producer, and an instruction that is one puts a word at just
this position: the height of the stack before an instruction is the same whenever it is executed. A
two-word value lies on an unusable word. What produced a variable is the entry or an instruction
that pushes nothing.

All of this is one property of frames, which every way in which a frame can arise preserves.

## Main definitions

* `Evaluation.Places`: an origin that puts a word at a position
* `Stack.Paired`: every two-word value lies on an unusable word
* `Evaluation.Accounts`: the origins of a frame are right

## Main results

* `Evaluation.Arises.accounts`: the origins of every frame are right
* `Evaluation.Faithful.passes`: a word that stays has a producer that both ends of an edge know
-/

namespace JvmTrim

/-- Whether every two-word value on a stack lies on an unusable word. -/
def Stack.Paired (stack : Stack) : Prop :=
  ∀ position word, stack.get? position = some word → word.value.isWide = true →
    ∃ below lower, position = below + 1 ∧ stack.get? below = some lower ∧ lower.value = .top

namespace Evaluation

/-- Whether an origin puts a word at a position of the stack. -/
def Places (evaluation : Evaluation) (pool : ConstantPool) (position : Nat) : Origin → Prop
  | .entry => False
  | .handler target => target < UInt32.size
  | .instruction offset => ∃ instruction before effect,
    evaluation.instruction? offset = some instruction ∧ evaluation.before? offset = some before ∧
      instruction.stackEffect pool = .ok effect ∧
      before.stack.height - effect.pops ≤ position ∧
      position < before.stack.height - effect.pops + effect.pushes

/-- Whether an origin may have written a variable. -/
def Writes (evaluation : Evaluation) (pool : ConstantPool) : Origin → Prop
  | .entry => True
  | .handler _ => False
  | .instruction offset => ∃ instruction effect, evaluation.instruction? offset = some instruction ∧
    instruction.stackEffect pool = .ok effect ∧ effect.pushes = 0

/-- Whether the origins in a frame are right. -/
structure Accounts (evaluation : Evaluation) (pool : ConstantPool) (frame : Frame) : Prop where
  produced : ∀ position word, frame.stack.get? position = some word → word.producers.elements ≠ []
  placed : ∀ position word, frame.stack.get? position = some word →
    ∀ origin ∈ word.producers.elements, evaluation.Places pool position origin
  paired : frame.stack.Paired
  written : ∀ (i : Nat) slot, frame.locals.slots[i]? = some slot →
    ∀ origin ∈ slot.producers.elements, evaluation.Writes pool origin

end Evaluation

/-! ## Two-word values -/

theorem Value.isWide_of_isWide_join {a b : Value} (h : (a.join b).isWide = true) :
    a.isWide = true := by
  cases a <;> cases b <;> simp_all [join, isWide]

theorem Value.isWide_right_of_isWide_join {a b : Value} (h : (a.join b).isWide = true) :
    b.isWide = true := by
  cases a <;> cases b <;> simp_all [join, isWide]

theorem Value.top_join (a : Value) : Value.top.join a = .top := by
  cases a <;> rfl

/-- A word that a stack manipulation pushes lies on a copy of the word that the copied word lies on,
or it is copied from right above a boundary. -/
theorem Shuffle.follows_or_bounds {move : Shuffle} {k source : Nat}
    (h : move.outputs[k]? = some source) :
    (∃ below, k = below + 1 ∧ ∃ lower, source = lower + 1 ∧ move.outputs[below]? = some lower) ∨
      move.pops - source ∈ move.boundaries := by
  have hall : ∀ k ∈ List.range 6, ∀ source ∈ List.range 4, move.outputs[k]? = some source →
      (k ≠ 0 ∧ source ≠ 0 ∧ move.outputs[k - 1]? = some (source - 1)) ∨
        move.pops - source ∈ move.boundaries := by
    cases move <;> decide
  have hk : k < 6 := by
    have hlt := (List.getElem?_eq_some_iff.mp h).1
    cases move <;> simp [outputs] at hlt <;> omega
  have hsource : source < 4 := by
    have hlt := lt_pops_of_mem_outputs (List.mem_of_getElem? h)
    cases move <;> simp [pops] at hlt <;> omega
  refine (hall k (List.mem_range.mpr hk) source (List.mem_range.mpr hsource) h).imp_left ?_
  rintro ⟨hk0, hs0, hbelow⟩
  exact ⟨k - 1, by omega, source - 1, by omega, hbelow⟩

/-- No boundary of a legal stack manipulation lies inside of a value. -/
theorem Shuffle.not_isWide_of_fits {move : Shuffle} {stack : Stack} {depth : Nat} {word : Slot}
    (h : move.fits (stack.words.map (·.value.isWide)) = true) (hd : depth ∈ move.boundaries)
    (hlt : depth < stack.height) (hw : stack.get? (stack.height - depth) = some word) :
    word.value.isWide = false := by
  simp only [fits, Bool.and_eq_true, List.all_eq_true, Bool.or_eq_true, decide_eq_true_eq,
    Array.size_map, Array.getElem?_map] at h
  rcases h.2 depth hd with hle | hnot
  · exact absurd hlt (by simp only [Stack.height]; omega)
  · rw [Stack.get?, Stack.height] at hw
    simpa [hw] using hnot

/-! ## One step -/

theorem Transfer.PushedBy.paired {offset pushes : Nat} {pushed : List Slot}
    (h : PushedBy offset pushes pushed) {i : Nat} {word : Slot} (hw : pushed[i]? = some word)
    (hwide : word.value.isWide = true) :
    ∃ lower, pushed[i + 1]? = some lower ∧ lower.value = .top := by
  rcases h with ⟨-, rfl⟩ | ⟨value, -, -, rfl⟩
  · simp at hw
  · rw [pushedWords] at hw ⊢
    split at hw
    · rename_i hv
      rw [if_pos hv]
      rcases i with _ | _ | i
      · exact ⟨_, rfl, rfl⟩
      · cases hw
        cases hwide
      · simp at hw
    · rename_i hv
      rcases i with _ | i
      · cases hw
        exact absurd hwide hv
      · simp at hw

namespace Transfer.Moves

variable {stores : Prop} {offset pops pushes position : Nat} {pushed : List Slot} {a b : Frame}
  {word : Slot}

/-- A two-word value that stays lies on the word that it lay on. -/
theorem paired_kept (h : Moves stores offset pops pushed a b) (hpaired : a.stack.Paired)
    (hkept : position < a.stack.height - pops) (hword : b.stack.get? position = some word)
    (hwide : word.value.isWide = true) :
    ∃ below lower, position = below + 1 ∧ b.stack.get? below = some lower ∧ lower.value = .top := by
  obtain ⟨old, new, hold, hnew, halike⟩ := h.get?_kept hkept
  cases hword.symm.trans hnew
  obtain ⟨below, lower, rfl, hlower, htop⟩ := hpaired position old hold (halike.isWide_eq ▸ hwide)
  obtain ⟨old', new', hold', hnew', halike'⟩ := h.get?_kept (show below < _ by omega)
  cases hlower.symm.trans hold'
  exact ⟨below, new', rfl, hnew', halike'.top_iff.mpr htop⟩

/-- A two-word value that is pushed as a whole lies on a word that is pushed with it. -/
theorem paired_pushed (h : Moves stores offset pops pushed a b)
    (hpushed : PushedBy offset pushes pushed) (hge : a.stack.height - pops ≤ position)
    (hword : b.stack.get? position = some word) (hwide : word.value.isWide = true) :
    ∃ below lower, position = below + 1 ∧ a.stack.height - pops ≤ below ∧
      b.stack.get? below = some lower ∧ lower.value = .top := by
  have hlt : position < b.stack.height := (Array.getElem?_eq_some_iff.mp hword).1
  have hheight := h.length_eq
  rw [h.get?_pushed hge hlt] at hword
  obtain ⟨lower, hlower, htop⟩ := hpushed.paired hword hwide
  have hi := (List.getElem?_eq_some_iff.mp hlower).1
  obtain ⟨below, rfl⟩ : ∃ below, position = below + 1 := ⟨position - 1, by omega⟩
  refine ⟨below, lower, rfl, by omega, ?_, htop⟩
  rw [h.get?_pushed (by omega) (by omega), ← hlower,
    show b.stack.height - 1 - below = b.stack.height - 1 - (below + 1) + 1 by omega]

end Transfer.Moves

namespace Context

open Transfer

variable {context : Context} {offset next : Nat} {instruction : Instruction} {frame : Frame}
  {step : Step}

/-- A two-word value that an instruction pushes lies on an unusable word that it pushes too. -/
theorem paired_pushed (h : context.execute offset next instruction frame = .ok step)
    (hfits : instruction.loadFits context.pool = true) (hpaired : frame.stack.Paired)
    {effect : StackEffect} (heffect : instruction.stackEffect context.pool = .ok effect)
    {position : Nat} {word : Slot} (hge : frame.stack.height - effect.pops ≤ position)
    (hword : step.frame.stack.get? position = some word) (hwide : word.value.isWide = true) :
    ∃ below lower, position = below + 1 ∧ frame.stack.height - effect.pops ≤ below ∧
      step.frame.stack.get? below = some lower ∧ lower.value = .top := by
  have hlt : position < step.frame.stack.height := (Array.getElem?_eq_some_iff.mp hword).1
  by_cases hshuffle : instruction.isShuffle = true
  · obtain ⟨effect', pushed, heffect', hlength, -, hmoves⟩ := execute_effect h hfits
    cases heffect.symm.trans heffect'
    have hheight := hmoves.length_eq
    obtain ⟨move, hm⟩ := Option.isSome_iff_exists.mp hshuffle
    have hmove := Instruction.shuffle?_eq_some_iff.mp hm
    have hpops : effect = ⟨move.pops, move.outputs.length⟩ := by
      unfold Instruction.stackEffect at heffect
      simp only [hmove, Except.ok.injEq] at heffect
      exact heffect.symm
    subst hpops
    have hle := hmoves.le_height
    simp only at hge hheight hlength hle
    obtain ⟨k, rfl⟩ : ∃ k, position = frame.stack.height - move.pops + k :=
      ⟨position - (frame.stack.height - move.pops), by omega⟩
    obtain ⟨source, hsource⟩ : ∃ source, move.outputs[k]? = some source :=
      ⟨_, List.getElem?_eq_getElem (by omega)⟩
    obtain ⟨copied, hcopied, hcopy⟩ := get?_execute_shuffle h hmove hsource
    cases hword.symm.trans hcopy
    have hsourcelt := Shuffle.lt_pops_of_mem_outputs (List.mem_of_getElem? hsource)
    obtain ⟨below, lower, hbelow, hlower, htop⟩ := hpaired _ _ hcopied hwide
    rcases Shuffle.follows_or_bounds hsource with ⟨j, rfl, s, rfl, hj⟩ | hbound
    · obtain ⟨copied', hcopied', hcopy'⟩ := get?_execute_shuffle h hmove hj
      refine ⟨_, _, rfl, Nat.le_add_right _ _, hcopy', ?_⟩
      rw [show below = frame.stack.height - move.pops + s by omega] at hlower
      cases hlower.symm.trans hcopied'
      exact htop
    · have hnot := Shuffle.not_isWide_of_fits (execute_shuffle h hmove).1 hbound (by omega)
        (by rw [← hcopied, show frame.stack.height - (move.pops - source) =
          frame.stack.height - move.pops + source by omega])
      rw [hnot] at hwide
      cases hwide
  · obtain ⟨effect', pushed, heffect', hpushed, hmoves⟩ :=
      execute_moves h hfits (by simpa using hshuffle)
    cases heffect.symm.trans heffect'
    exact hmoves.paired_pushed hpushed hge hword hwide

/-- Executing an instruction leaves every two-word value on an unusable word. -/
theorem paired_execute (h : context.execute offset next instruction frame = .ok step)
    (hfits : instruction.loadFits context.pool = true) (hpaired : frame.stack.Paired) :
    step.frame.stack.Paired := by
  intro position word hword hwide
  obtain ⟨effect, pushed, heffect, hlength, -, hmoves⟩ := execute_effect h hfits
  by_cases hkept : position < frame.stack.height - effect.pops
  · exact hmoves.paired_kept hpaired hkept hword hwide
  · obtain ⟨below, lower, hbelow, -, hlower⟩ :=
      paired_pushed h hfits hpaired heffect (by omega) hword hwide
    exact ⟨below, lower, hbelow, hlower⟩

end Context

namespace Evaluation

/-- What an evaluation of a body is like whose constant loads fit and whose offsets can be recorded:
it is closed, and it has a history. -/
structure Faithful (evaluation : Evaluation) (options : EvaluationOptions) (pool : ConstantPool)
    (code : Code) (entry : Frame) : Prop where
  closed : evaluation.Closed options pool code.handlers
  history : evaluation.History options pool code.handlers entry
  listing : Listing.ofCode code.bytes = .ok evaluation.listing
  fits : ∀ offset instruction, evaluation.instruction? offset = some instruction →
    instruction.loadFits pool = true
  size : code.bytes.length ≤ UInt32.size

variable {evaluation : Evaluation} {options : EvaluationOptions} {pool : ConstantPool}
  {code : Code} {entry frame : Frame} {offset : Nat}

namespace Faithful

theorem recounted (h : evaluation.Faithful options pool code entry) :
    evaluation.Recounted options pool code entry :=
  ⟨h.closed, h.history, h.listing, h.size⟩

theorem lt_of_instruction? (h : evaluation.Faithful options pool code entry)
    {instruction : Instruction} (hi : evaluation.instruction? offset = some instruction) :
    offset < UInt32.size :=
  h.recounted.lt_of_instruction? hi

theorem elements_ofInstruction (h : evaluation.Faithful options pool code entry)
    {instruction : Instruction} (hi : evaluation.instruction? offset = some instruction) :
    (OriginSet.ofInstruction offset).elements = [.instruction offset] :=
  h.recounted.elements_ofInstruction hi

theorem lt_of_receives (h : evaluation.Faithful options pool code entry)
    (hr : evaluation.Receives offset frame) : offset < UInt32.size :=
  h.recounted.lt_of_receives hr

end Faithful

/-- A wide word of a join is wide on both sides, and so both have its other half below it. -/
theorem paired_zipWith_join {a b : Stack} (ha : a.Paired) (hb : b.Paired) :
    (Stack.mk (a.words.zipWith Slot.join b.words)).Paired := by
  intro position word hw hwide
  obtain ⟨x, y, hx, hy, rfl, -⟩ := getElem?_zipWith_join hw
  obtain ⟨below, lower, rfl, hlower, htop⟩ :=
    ha position x hx (Value.isWide_of_isWide_join hwide)
  obtain ⟨below', lower', hbelow, hlower', -⟩ :=
    hb (below + 1) y hy (Value.isWide_right_of_isWide_join hwide)
  cases hbelow
  refine ⟨below, lower.join lower', rfl, ?_, ?_⟩
  · exact Array.getElem?_zipWith_eq_some.mpr ⟨lower, lower', hlower, hlower', rfl⟩
  · simp only [Slot.join, htop, Value.top_join]

/-- An instruction puts its words where the recorded stack ends that it does not take. -/
theorem Arises.places (hf : evaluation.Faithful options pool code entry)
    (h : evaluation.Arises options pool code.handlers entry offset frame)
    {instruction : Instruction} {step : Step} {effect : StackEffect} {position : Nat}
    (hi : evaluation.instruction? offset = some instruction)
    (he : (options.context pool).execute offset (evaluation.nextOffset offset) instruction frame
      = .ok step) (heffect : instruction.stackEffect pool = .ok effect)
    (hge : frame.stack.height - effect.pops ≤ position) (hlt : position < step.frame.stack.height) :
    evaluation.Places pool position (.instruction offset) := by
  obtain ⟨before, hbefore, hcovers⟩ := h.receives
  obtain ⟨effect', pushed, heffect', hlength, -, hmoves⟩ :=
    Context.execute_effect he (hf.fits _ _ hi)
  cases heffect.symm.trans heffect'
  have hheight := hmoves.length_eq
  have heq := hcovers.height_eq
  exact ⟨instruction, before, effect, hi, hbefore, heffect, by omega, by omega⟩

/-- Every two-word value of a frame lies on an unusable word. -/
theorem Arises.paired_stack (hf : evaluation.Faithful options pool code entry)
    (h : evaluation.Arises options pool code.handlers entry offset frame) : frame.stack.Paired := by
  induction h with
  | entry hr =>
    intro position word hw
    rw [hf.history.stack] at hw
    cases hw
  | @step offset successor frame instruction step h hi he hs hr ih =>
    exact Context.paired_execute he (hf.fits _ _ hi) ih
  | handler =>
    intro position word hw hw'
    rw [(get?_handlerFrame hw).2] at hw'
    cases hw'
  | join ha hb hj hr iha ihb =>
    obtain ⟨-, rfl⟩ := Frame.joinAt_eq_ok_iff.mp hj
    exact paired_zipWith_join iha ihb

/-- **The origins in every frame are right.** -/
theorem Arises.accounts (hf : evaluation.Faithful options pool code entry)
    (h : evaluation.Arises options pool code.handlers entry offset frame) :
    evaluation.Accounts pool frame := by
  have hattributed : Attributed (evaluation.Places pool) (evaluation.Writes pool) frame := by
    refine h.attributed hf.recounted trivial (fun position target hlt => hlt) ?_ ?_
    · intro offset frame instruction step effect harises hi he heffect _ position hge hlt
      exact harises.places hf hi he heffect hge hlt
    · intro offset instruction effect hi heffect hstores
      exact ⟨instruction, effect, hi, heffect, hstores.pushes_eq_zero heffect⟩
  exact ⟨hattributed.produced, hattributed.words, h.paired_stack hf, hattributed.slots⟩

/-! ## Producers along an edge -/

/-- What the stack before an offset and the stack before one of its successors have in common. -/
structure Passes (offset : Nat) (effect : StackEffect) (before next : Stack) : Prop where
  pops_le : effect.pops ≤ before.height
  height_eq : next.height = before.height - effect.pops + effect.pushes
  kept : ∀ position < before.height - effect.pops, ∃ word word' origin,
    before.get? position = some word ∧ next.get? position = some word' ∧
      origin ∈ word.producers.elements ∧ origin ∈ word'.producers.elements
  pushed : ∀ position, before.height - effect.pops ≤ position → position < next.height →
    ∃ word', next.get? position = some word' ∧ .instruction offset ∈ word'.producers.elements

namespace Faithful

variable (h : evaluation.Faithful options pool code entry)

include h

theorem accounts {before : Frame} (hb : evaluation.before? offset = some before) :
    evaluation.Accounts pool before :=
  (h.history.frames offset before hb).accounts h

/-- **Producers along an edge.** A word that stays has a producer that both stacks know, and a word
that is pushed has the instruction. -/
theorem passes {successor : Nat} (hl : evaluation.Leads offset successor) :
    ∃ instruction before next effect, evaluation.instruction? offset = some instruction ∧
      evaluation.before? offset = some before ∧ evaluation.before? successor = some next ∧
      instruction.stackEffect pool = .ok effect ∧
      Passes offset effect before.stack next.stack := by
  obtain ⟨frame, instruction, step, target, ha, hi, he, ht, hr, rfl⟩ :=
    h.history.edges offset successor hl
  rw [recordedOffset_of_lt (h.lt_of_receives hr)]
  have ha' := Arises.step ha hi he ht hr
  obtain ⟨before, hb, hcovers⟩ := ha.receives
  obtain ⟨next, hn, hcovers'⟩ := hr
  obtain ⟨effect, pushed, heffect, hlength, hproducers, hmoves⟩ :=
    Context.execute_effect he (h.fits _ _ hi)
  have hle := hmoves.le_height
  have hheight := hmoves.length_eq
  have heq := hcovers.height_eq
  have heq' := hcovers'.height_eq
  have hget (stack : Stack) (position : Nat) (hlt : position < stack.height) :
      ∃ word, stack.get? position = some word := ⟨_, Array.getElem?_eq_getElem hlt⟩
  refine ⟨instruction, before, next, effect, hi, hb, hn, heffect, by omega, by omega, ?_, ?_⟩
  · intro position hlt
    obtain ⟨old, new, hold, hnew, halike⟩ := hmoves.get?_kept (show position < _ by omega)
    obtain ⟨word, hw⟩ := hget before.stack position (by omega)
    obtain ⟨word', hw'⟩ := hget next.stack position (by omega)
    obtain ⟨origin, ho⟩ := List.exists_mem_of_ne_nil _ ((ha.accounts h).produced position old hold)
    refine ⟨word, word', origin, hw, hw', h.recounted.mem_producers ha hb hold hw ho, ?_⟩
    exact h.recounted.mem_producers ha' hn hnew hw' (halike.producers_eq ▸ ho)
  · intro position hge hlt
    obtain ⟨word', hw'⟩ := hget _ _ hlt
    have hnew := hmoves.get?_pushed (show _ ≤ position by omega) (by omega)
    obtain ⟨new, hw⟩ := hget step.frame.stack position (by omega)
    refine ⟨word', hw', h.recounted.mem_producers ha' hn hw hw' ?_⟩
    rw [hproducers new (List.mem_of_getElem? (hnew.symm.trans hw)), h.elements_ofInstruction hi]
    exact List.mem_singleton_self _

end Faithful

end Evaluation

/-- An evaluation of a body whose constant loads fit is faithful. -/
theorem faithful_of_evaluate {options : EvaluationOptions} {pool : ConstantPool} {owner : String}
    {method : Method} {code : Code} {evaluation : Evaluation}
    (h : evaluate options pool owner method code = .ok evaluation)
    (hfits : ∀ offset instruction, evaluation.instruction? offset = some instruction →
      instruction.loadFits pool = true) (hsize : code.bytes.length ≤ UInt32.size) :
    ∃ entry, evaluation.Faithful options pool code entry := by
  obtain ⟨entry, hclosed, hhistory, hlisting, -⟩ := recounted_of_evaluate h hsize
  exact ⟨entry, hclosed, hhistory, hlisting, hfits, hsize⟩

end JvmTrim
