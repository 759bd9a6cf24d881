import JvmTrim.Proofs.Balance

/-!
# Producers of words and variables

Even where the words that an instruction pushes are not the ones that its stack effect says, it
pushes some only if its effect says so. That much decides which instructions can be the producer of
a word or of a variable, and it decides where a word can be found that is popped as soon as it is
pushed.

## Main definitions

* `Evaluation.GivesWord`: origins that put words on the stack
* `Evaluation.Credits`: the origins of a frame are instructions that give words or write variables

## Main results

* `Evaluation.Arises.credits`: the origins of every frame are right
* `Evaluation.Arises.eq_nextOffset_of_top`: a word that is popped at once is found nowhere else
* `Evaluation.Recounted.eq_of_leads_pop`: only its producer leads to where a word is popped at once
-/

namespace JvmTrim

namespace Evaluation

/-- Whether an origin puts words on the stack. -/
def GivesWord (evaluation : Evaluation) (pool : ConstantPool) : Origin → Prop
  | .entry => False
  | .handler target => target < UInt32.size
  | .instruction offset => ∃ instruction effect,
    evaluation.instruction? offset = some instruction ∧
      instruction.stackEffect pool = .ok effect ∧ 0 < effect.pushes

/-- Whether the origins of a frame are right: all words have origins, which put words on the stack,
and the instructions among the origins of variables write variables. -/
structure Credits (evaluation : Evaluation) (pool : ConstantPool) (frame : Frame) : Prop where
  produced : ∀ position word, frame.stack.get? position = some word → word.producers.elements ≠ []
  gives : ∀ position word, frame.stack.get? position = some word →
    ∀ origin ∈ word.producers.elements, evaluation.GivesWord pool origin
  writes : ∀ (i : Nat) slot, frame.locals.slots[i]? = some slot →
    ∀ producer, .instruction producer ∈ slot.producers.elements →
      ∃ instruction, evaluation.instruction? producer = some instruction ∧ instruction.Stores

variable {evaluation : Evaluation} {options : EvaluationOptions} {pool : ConstantPool}
  {code : Code} {entry frame : Frame} {offset : Nat}

/-- **The origins of every frame are right.** -/
theorem Arises.credits (hf : evaluation.Recounted options pool code entry)
    (h : evaluation.Arises options pool code.handlers entry offset frame) :
    evaluation.Credits pool frame := by
  have hattributed : Attributed (fun _ => evaluation.GivesWord pool) (fun origin =>
      ∀ producer, origin = .instruction producer → ∃ instruction,
        evaluation.instruction? producer = some instruction ∧ instruction.Stores) frame := by
    refine h.attributed hf (fun producer heq => ?_) (fun _ target hlt => hlt) ?_ ?_
    · cases heq
    · intro offset frame instruction step effect _ hi _ heffect hpushes _ _ _
      exact ⟨instruction, effect, hi, heffect, hpushes⟩
    · intro offset instruction effect hi _ hstores producer heq
      cases heq
      exact ⟨instruction, hi, hstores⟩
  exact ⟨hattributed.produced, hattributed.words,
    fun i slot hs producer ho => hattributed.slots i slot hs _ ho producer rfl⟩

theorem Recounted.credits (hf : evaluation.Recounted options pool code entry) {before : Frame}
    (hb : evaluation.before? offset = some before) : evaluation.Credits pool before :=
  (hf.history.frames offset before hb).credits hf

/-! ## Words that are popped at once -/

/-- A word on top that is popped by the instruction right behind its producer is found nowhere
else. -/
theorem Arises.eq_nextOffset_of_top (hf : evaluation.Recounted options pool code entry)
    {producer : Nat} {instruction pop : Instruction} {next : Frame} {pops : Nat}
    (hi : evaluation.instruction? producer = some instruction)
    (hflow : instruction.flow = .sequential)
    (hpop : evaluation.instruction? (evaluation.nextOffset producer) = some pop)
    (hpops : pop.stackEffect pool = .ok ⟨pops, 0⟩) (hpos : 0 < pops)
    (hn : evaluation.before? (evaluation.nextOffset producer) = some next)
    (ha : evaluation.Arises options pool code.handlers entry offset frame) {word : Slot}
    (hw : frame.stack.get? (next.stack.height - 1) = some word)
    (ho : .instruction producer ∈ word.producers.elements) :
    offset = evaluation.nextOffset producer := by
  induction ha generalizing word with
  | entry =>
    rw [hf.history.stack] at hw
    cases hw
  | @step offset successor frame instruction' step ha hi' he hs hr ih =>
    obtain ⟨effect, heffect, ⟨old, hlt, hold, hp⟩ | ⟨hp, -⟩⟩ := hf.get?_step hi' he hw
    · rw [hp] at ho
      obtain rfl := ih hold ho
      cases hpop.symm.trans hi'
      cases hpops.symm.trans heffect
      obtain ⟨covering, hcovering, hcovers⟩ := ha.receives
      cases hn.symm.trans hcovering
      have hsame := hcovers.height_eq
      simp only at hlt
      omega
    · rw [hp] at ho
      cases List.mem_singleton.mp ho
      cases hi.symm.trans hi'
      rw [Context.successors_of_sequential he hflow] at hs
      exact List.mem_singleton.mp hs
  | handler =>
    rw [(get?_handlerFrame hw).1] at ho
    cases List.mem_singleton.mp ho
  | join ha hb hj hr iha ihb =>
    obtain ⟨-, rfl⟩ := Frame.joinAt_eq_ok_iff.mp hj
    obtain ⟨x, y, hx, hy, rfl, hmem⟩ := getElem?_zipWith_join hw
    exact (hmem _ ho).elim (iha hx) (ihb hy)

/-- An edge was taken with some frame. -/
theorem Recounted.took (hf : evaluation.Recounted options pool code entry) {successor : Nat}
    (hl : evaluation.Leads offset successor) : ∃ frame instruction step,
      evaluation.Arises options pool code.handlers entry offset frame ∧
      evaluation.instruction? offset = some instruction ∧
      (options.context pool).execute offset (evaluation.nextOffset offset) instruction frame
        = .ok step ∧
      successor ∈ step.successors ∧ evaluation.Receives successor step.frame := by
  obtain ⟨frame, instruction, step, target, ha, hi, he, ht, hr, rfl⟩ := hf.history.edges offset _ hl
  rw [recordedOffset_of_lt (hf.lt_of_receives hr)]
  exact ⟨frame, instruction, step, ha, hi, he, ht, hr⟩

/-- **Only its producer leads to an instruction that pops a word at once**, where the word on top has
no other producer. -/
theorem Recounted.eq_of_leads_pop (hf : evaluation.Recounted options pool code entry)
    {producer : Nat} {instruction pop : Instruction} {next : Frame} {top : Slot} {pops : Nat}
    (hi : evaluation.instruction? producer = some instruction)
    (hflow : instruction.flow = .sequential)
    (hpop : evaluation.instruction? (evaluation.nextOffset producer) = some pop)
    (hpops : pop.stackEffect pool = .ok ⟨pops, 0⟩) (hpos : 0 < pops)
    (hn : evaluation.before? (evaluation.nextOffset producer) = some next)
    (htop : next.stack.peek? 0 = some top)
    (honly : top.producers.elements = [.instruction producer])
    (hl : evaluation.Leads offset (evaluation.nextOffset producer)) : offset = producer := by
  obtain ⟨frame, instruction', step, ha, hi', he, ht, hr⟩ := hf.took hl
  obtain ⟨hheight, htop⟩ := Stack.peek?_zero htop
  obtain ⟨next', hn', hcovers⟩ := hr
  cases hn.symm.trans hn'
  obtain ⟨word, hw, -⟩ := hcovers.word _ top htop
  have harises := Arises.step ha hi' he ht ⟨next, hn, hcovers⟩
  have ho : .instruction producer ∈ word.producers.elements := by
    obtain ⟨origin, ho⟩ := List.exists_mem_of_ne_nil _
      ((harises.credits hf).produced _ word hw)
    have hknown := hf.mem_producers harises hn hw htop ho
    rw [honly] at hknown
    rwa [List.mem_singleton.mp hknown] at ho
  obtain ⟨effect, heffect, ⟨old, hlt, hold, hp⟩ | ⟨hp, -⟩⟩ := hf.get?_step hi' he hw
  · rw [hp] at ho
    obtain rfl := ha.eq_nextOffset_of_top hf hi hflow hpop hpops hpos hn hold ho
    cases hpop.symm.trans hi'
    cases hpops.symm.trans heffect
    obtain ⟨covering, hcovering, hcovers'⟩ := ha.receives
    cases hn.symm.trans hcovering
    have hsame := hcovers'.height_eq
    simp only at hlt
    omega
  · rw [hp] at ho
    cases List.mem_singleton.mp ho
    rfl

end Evaluation

end JvmTrim
