import JvmTrim.Proofs.Arising
import JvmTrim.Proofs.Semilattice
import JvmTrim.Proofs.StackShape

/-!
# What the origins of words and variables have in common

An instruction leaves the words that it does not take, and pushes words of its own on top of them; a
variable that it writes is its own too. A handler finds a single word, and a join unites the origins
of what is joined. So whatever is true of the origins that instructions and handlers give is true of
all origins that a recorded frame knows, as long as it depends on the position of the word at most.

Where a body loads a constant with an instruction for constants of another size, the words that the
instruction pushes are not the ones that its stack effect says. Still it pushes words of its own, and
only if its effect says that it pushes some.

## Main definitions

* `Evaluation.Recounted`: what is known of every evaluation of a body of less than 4 GiB
* `Evaluation.Attributed`: some property holds of all origins in a frame

## Main results

* `Context.exists_words`: every instruction pushes words of its own, as many on every frame
* `Evaluation.Arises.attributed`: what holds of the origins that are given holds in every frame
-/

namespace JvmTrim

theorem recordedOffset_of_lt {offset : Nat} (h : offset < UInt32.size) :
    recordedOffset offset = offset := Nat.mod_eq_of_lt h

/-! ## One instruction -/

theorem Opcode.operation_ldc : Opcode.ldc.operation = .loadConstant false := by decide +kernel

theorem Opcode.operation_ldc2W : Opcode.ldc2W.operation = .loadConstant true := by decide +kernel

theorem ConstantPool.loadedSize?_eq_some {pool : ConstantPool} {constant : Constant} {size : Nat}
    (h : pool.loadedSize? constant = some size) : size = 1 ∨ size = 2 := by
  cases constant
  case integer | float | string | «class» | methodType | methodHandle => exact .inl (by cases h; rfl)
  case long | double => exact .inr (by cases h; rfl)
  case dynamic bootstrap nameAndType =>
    unfold loadedSize? at h
    simp only at h
    split at h
    · obtain ⟨type, -, rfl⟩ := Option.map_eq_some_iff.mp h
      unfold FieldType.size Kind.size
      split <;> simp
    · cases h
  all_goals cases h

/-- Of the two sizes of constant loads one fits. -/
theorem Instruction.loadFits_or (pool : ConstantPool) (operand : Operand) :
    (Instruction.mk Opcode.ldc operand).loadFits pool = true ∨
      (Instruction.mk Opcode.ldc2W operand).loadFits pool = true := by
  have hnarrow : (Instruction.mk Opcode.ldc operand).operation = .loadConstant false :=
    Opcode.operation_ldc
  have hwide : (Instruction.mk Opcode.ldc2W operand).operation = .loadConstant true :=
    Opcode.operation_ldc2W
  have hindex : (Instruction.mk Opcode.ldc2W operand).constantIndex? =
      (Instruction.mk Opcode.ldc operand).constantIndex? := rfl
  unfold loadFits
  simp only [hnarrow, hwide, hindex]
  cases (Instruction.mk Opcode.ldc operand).constantIndex? with
  | none => exact .inl rfl
  | some index =>
    dsimp only
    cases pool.get index with
    | error failure => exact .inl rfl
    | ok constant =>
      dsimp only
      cases hsize : pool.loadedSize? constant with
      | none => exact .inl rfl
      | some size =>
        rcases ConstantPool.loadedSize?_eq_some hsize with rfl | rfl
        · exact .inl rfl
        · exact .inr rfl

namespace Context

open Transfer

variable {context : Context} {offset next : Nat} {instruction : Instruction} {frame : Frame}
  {step : Step}

/-- A load pushes the words of its constant, whatever its own size. -/
theorem exists_gives_loadConstant (context : Context) (stores : Prop) (offset : Nat)
    (instruction : Instruction) :
    ∃ pushes, Gives stores offset 0 pushes (context.loadConstant offset instruction) := by
  have hsame (opcode : Opcode) : context.loadConstant offset instruction =
      context.loadConstant offset ⟨opcode, instruction.operand⟩ := rfl
  rcases Instruction.loadFits_or context.pool instruction.operand with hfits | hfits
  · rw [hsame Opcode.ldc]
    exact ⟨_, gives_loadConstant Opcode.operation_ldc hfits⟩
  · rw [hsame Opcode.ldc2W]
    exact ⟨_, gives_loadConstant Opcode.operation_ldc2W hfits⟩

/-- An instruction that does not fit the constant that it loads still pushes a single value, which
does not depend on the frame in its size. -/
theorem execute_misfit (offset : Nat) (hfits : ¬ instruction.loadFits context.pool = true) :
    ∃ effect pushes, instruction.stackEffect context.pool = .ok effect ∧ effect.pops = 0 ∧
      0 < effect.pushes ∧ ∀ next frame step,
        context.execute offset next instruction frame = .ok step →
          ∃ pushed, PushedBy offset pushes pushed ∧
            Moves instruction.Stores offset 0 pushed frame step.frame := by
  obtain ⟨wide, hop⟩ : ∃ wide, instruction.operation = .loadConstant wide := by
    unfold Instruction.loadFits at hfits
    split at hfits
    · rename_i wide index hop hindex
      exact ⟨wide, hop⟩
    · exact absurd rfl hfits
  obtain ⟨pushes, hgives⟩ := exists_gives_loadConstant context instruction.Stores offset instruction
  refine ⟨if wide then ⟨0, 2⟩ else ⟨0, 1⟩, pushes, ?_, ?_, ?_, fun next frame step h => ?_⟩
  · unfold Instruction.stackEffect
    cases wide <;> simp only [hop] <;> rfl
  · cases wide <;> rfl
  · cases wide <;> decide
  · have hperform := perform_of_execute h (congrArg Operation.flow hop)
      fun mode hcall => by cases hop.symm.trans hcall
    unfold perform at hperform
    simp only [hop] at hperform
    exact hgives _ _ _ hperform

/-- **Every instruction pushes words of its own** on top of what it does not take, and none unless
its stack effect says so. How many there are does not depend on the frame. -/
theorem exists_words (context : Context) (offset : Nat) (instruction : Instruction) :
    ∃ pushes, ∀ next frame step, context.execute offset next instruction frame = .ok step →
      ∃ effect pushed, instruction.stackEffect context.pool = .ok effect ∧
        pushed.length = pushes ∧
        (∀ word ∈ pushed, word.producers = OriginSet.ofInstruction offset) ∧
        (pushed ≠ [] → 0 < effect.pushes) ∧
        Moves instruction.Stores offset effect.pops pushed frame step.frame := by
  by_cases hfits : instruction.loadFits context.pool = true
  · cases heffect : instruction.stackEffect context.pool with
    | error failure =>
      refine ⟨0, fun next frame step h => ?_⟩
      obtain ⟨effect, _, heffect', -⟩ := execute_effect h hfits
      cases heffect.symm.trans heffect'
    | ok effect =>
      refine ⟨effect.pushes, fun next frame step h => ?_⟩
      obtain ⟨effect', pushed, heffect', hlength, hproducers, hmoves⟩ := execute_effect h hfits
      cases heffect.symm.trans heffect'
      refine ⟨effect, pushed, rfl, hlength, hproducers, fun hne => ?_, hmoves⟩
      rw [← hlength]
      exact List.length_pos_iff.mpr hne
  · obtain ⟨effect, pushes, heffect, hpops, hpushes, hexecute⟩ := execute_misfit offset hfits
    refine ⟨pushes, fun next frame step h => ?_⟩
    obtain ⟨pushed, hpushed, hmoves⟩ := hexecute next frame step h
    exact ⟨effect, pushed, heffect, hpushed.length_eq, hpushed.producers, fun _ => hpushes,
      hpops ▸ hmoves⟩

theorem execute_words (h : context.execute offset next instruction frame = .ok step) :
    ∃ effect pushed, instruction.stackEffect context.pool = .ok effect ∧
      (∀ word ∈ pushed, word.producers = OriginSet.ofInstruction offset) ∧
      (pushed ≠ [] → 0 < effect.pushes) ∧
      Moves instruction.Stores offset effect.pops pushed frame step.frame := by
  obtain ⟨pushes, hexecute⟩ := exists_words context offset instruction
  obtain ⟨effect, pushed, heffect, -, hwords⟩ := hexecute next frame step h
  exact ⟨effect, pushed, heffect, hwords⟩

end Context

/-! ## All frames -/

namespace Evaluation

/-- What an evaluation of a body is like whose offsets can be recorded: it is closed, and it has a
history. -/
structure Recounted (evaluation : Evaluation) (options : EvaluationOptions) (pool : ConstantPool)
    (code : Code) (entry : Frame) : Prop where
  closed : evaluation.Closed options pool code.handlers
  history : evaluation.History options pool code.handlers entry
  listing : Listing.ofCode code.bytes = .ok evaluation.listing
  size : code.bytes.length ≤ UInt32.size

variable {evaluation : Evaluation} {options : EvaluationOptions} {pool : ConstantPool}
  {code : Code} {entry frame : Frame} {offset : Nat}

namespace Recounted

theorem lt_of_instruction? (h : evaluation.Recounted options pool code entry)
    {instruction : Instruction} (hi : evaluation.instruction? offset = some instruction) :
    offset < UInt32.size := by
  have hmem := (Listing.get?_eq_some_iff h.listing).mp hi
  have hlt := lt_of_decodeAll (Listing.ofCode_eq_ok h.listing).1 _ hmem
  exact Nat.lt_of_lt_of_le hlt h.size

theorem elements_ofInstruction (h : evaluation.Recounted options pool code entry)
    {instruction : Instruction} (hi : evaluation.instruction? offset = some instruction) :
    (OriginSet.ofInstruction offset).elements = [.instruction offset] := by
  show [Origin.instruction (recordedOffset offset)] = _
  rw [recordedOffset_of_lt (h.lt_of_instruction? hi)]

theorem lt_of_receives (h : evaluation.Recounted options pool code entry)
    (hr : evaluation.Receives offset frame) : offset < UInt32.size := by
  obtain ⟨before, hb, -⟩ := hr
  obtain ⟨instruction, step, hsettled⟩ := h.closed.settled offset before hb
  exact h.lt_of_instruction? hsettled.listed

end Recounted

/-- A word behind an instruction is one from before it that is not taken, or the instruction gave
it. -/
theorem Recounted.get?_step (hf : evaluation.Recounted options pool code entry)
    {instruction : Instruction} {step : Step}
    (hi : evaluation.instruction? offset = some instruction)
    (he : (options.context pool).execute offset (evaluation.nextOffset offset) instruction frame
      = .ok step) {position : Nat} {word : Slot} (hw : step.frame.stack.get? position = some word) :
    ∃ effect, instruction.stackEffect pool = .ok effect ∧
      ((∃ old, position < frame.stack.height - effect.pops ∧
          frame.stack.get? position = some old ∧ word.producers = old.producers) ∨
        word.producers.elements = [.instruction offset] ∧ 0 < effect.pushes ∧
          frame.stack.height - effect.pops ≤ position) := by
  obtain ⟨effect, pushed, heffect, hproducers, hpushes, hmoves⟩ := Context.execute_words he
  refine ⟨effect, heffect, ?_⟩
  have hlt : position < step.frame.stack.height := (Array.getElem?_eq_some_iff.mp hw).1
  by_cases hkept : position < frame.stack.height - effect.pops
  · obtain ⟨old, new, hold, hnew, halike⟩ := hmoves.get?_kept hkept
    cases hw.symm.trans hnew
    exact .inl ⟨old, hkept, hold, halike.producers_eq⟩
  · rw [hmoves.get?_pushed (Nat.le_of_not_lt hkept) hlt] at hw
    have hmem := List.mem_of_getElem? hw
    refine .inr ⟨?_, hpushes (List.ne_nil_of_mem hmem), Nat.le_of_not_lt hkept⟩
    rw [hproducers word hmem, hf.elements_ofInstruction hi]

/-- A handler finds a single word, which no instruction gave. -/
theorem get?_handlerFrame {detail : Detail} {target position : Nat} {locals : Locals} {word : Slot}
    (hw : (handlerFrame detail target locals).stack.get? position = some word) :
    word.producers = OrderedSet.singleton (.handler target) ∧ word.value.isWide = false := by
  have hwide : (detail.named .reference (.caught target) true).isWide = false :=
    Value.isWide_of_kind? (Detail.kind?_named detail .reference (.caught target) true)
  simp only [handlerFrame, Stack.get?, Stack.push, hwide, Bool.false_eq_true, if_false,
    Stack.pushWord, Stack.empty] at hw
  obtain rfl := List.mem_singleton.mp (by simpa using Array.mem_of_getElem? hw)
  exact ⟨rfl, hwide⟩

/-- A word of a join has the producers of the words that are joined. -/
theorem getElem?_zipWith_join {as bs : Array Slot} {i : Nat} {word : Slot}
    (hw : (as.zipWith Slot.join bs)[i]? = some word) : ∃ x y, as[i]? = some x ∧ bs[i]? = some y ∧
      word = x.join y ∧ ∀ origin ∈ word.producers.elements,
        origin ∈ x.producers.elements ∨ origin ∈ y.producers.elements := by
  obtain ⟨x, y, hx, hy, rfl⟩ := Array.getElem?_zipWith_eq_some.mp hw
  exact ⟨x, y, hx, hy, rfl, fun origin ho => OrderedSet.mem_or_mem_of_mem_union ho⟩

/-- Whether the words of a frame have origins and all of these have a property, and whether those of
the variables have another one. -/
structure Attributed (onStack : Nat → Origin → Prop) (inSlot : Origin → Prop) (frame : Frame) :
    Prop where
  produced : ∀ position word, frame.stack.get? position = some word → word.producers.elements ≠ []
  words : ∀ position word, frame.stack.get? position = some word →
    ∀ origin ∈ word.producers.elements, onStack position origin
  slots : ∀ (i : Nat) slot, frame.locals.slots[i]? = some slot →
    ∀ origin ∈ slot.producers.elements, inSlot origin

/-- **What holds of the origins that are given holds in every frame.** A property of the origins of
words has to hold of a handler and of an instruction where that pushes a word, one of the origins of
variables has to hold of the entry and of the instructions that store. -/
theorem Arises.attributed (hf : evaluation.Recounted options pool code entry)
    {onStack : Nat → Origin → Prop} {inSlot : Origin → Prop} (hentry : inSlot .entry)
    (hhandler : ∀ position target, target < UInt32.size → onStack position (.handler target))
    (hpush : ∀ {offset frame instruction step effect},
      evaluation.Arises options pool code.handlers entry offset frame →
      evaluation.instruction? offset = some instruction →
      (options.context pool).execute offset (evaluation.nextOffset offset) instruction frame
        = .ok step →
      instruction.stackEffect pool = .ok effect → 0 < effect.pushes →
      ∀ position, frame.stack.height - effect.pops ≤ position →
        position < step.frame.stack.height → onStack position (.instruction offset))
    (hstore : ∀ {offset instruction effect}, evaluation.instruction? offset = some instruction →
      instruction.stackEffect pool = .ok effect → instruction.Stores →
      inSlot (.instruction offset))
    (h : evaluation.Arises options pool code.handlers entry offset frame) :
    Attributed onStack inSlot frame := by
  induction h with
  | entry hr =>
    have hnone (position : Nat) : entry.stack.get? position = none := by
      rw [hf.history.stack]
      rfl
    refine ⟨fun position word hw => ?_, fun position word hw => ?_, fun i slot hs origin ho => ?_⟩
    · cases (hnone position).symm.trans hw
    · cases (hnone position).symm.trans hw
    · rw [hf.history.locals slot (Array.mem_of_getElem? hs)] at ho
      obtain rfl := List.mem_singleton.mp ho
      exact hentry
  | @step offset successor frame instruction step h hi he hs hr ih =>
    refine ⟨fun position word hw => ?_, fun position word hw origin ho => ?_,
      fun i slot hslot origin ho => ?_⟩
    · obtain ⟨effect, -, ⟨old, -, hold, hp⟩ | ⟨hp, -⟩⟩ := hf.get?_step hi he hw
      · rw [hp]
        exact ih.produced position old hold
      · simp [hp]
    · obtain ⟨effect, heffect, ⟨old, -, hold, hp⟩ | ⟨hp, hpushes, hge⟩⟩ := hf.get?_step hi he hw
      · rw [hp] at ho
        exact ih.words position old hold origin ho
      · rw [hp] at ho
        obtain rfl := List.mem_singleton.mp ho
        exact hpush h hi he heffect hpushes position hge (Array.getElem?_eq_some_iff.mp hw).1
    · obtain ⟨effect, _, heffect, -, -, hmoves⟩ := Context.execute_words he
      rcases hmoves.locals i slot hslot with ⟨old, hold, hp⟩ | ⟨hstores, hp⟩
      · rw [hp] at ho
        exact ih.slots i old hold origin ho
      · rw [hp, hf.elements_ofInstruction hi] at ho
        obtain rfl := List.mem_singleton.mp ho
        exact hstore hi heffect hstores
  | @handler offset frame handler h hm hc hr ih =>
    refine ⟨fun position word hw => ?_, fun position word hw origin ho => ?_,
      fun i slot hs origin ho => ?_⟩
    · rw [(get?_handlerFrame hw).1]
      simp
    · rw [(get?_handlerFrame hw).1] at ho
      obtain rfl := List.mem_singleton.mp ho
      exact hhandler position _ (hf.lt_of_receives hr)
    · simp only [handlerFrame, Locals.forget, Array.getElem?_map, Option.map_eq_some_iff] at hs
      obtain ⟨old, hold, rfl⟩ := hs
      exact ih.slots i old hold origin ho
  | @join offset a b joined ha hb hj hr iha ihb =>
    obtain ⟨-, rfl⟩ := Frame.joinAt_eq_ok_iff.mp hj
    refine ⟨fun position word hw => ?_, fun position word hw origin ho => ?_,
      fun i slot hs origin ho => ?_⟩
    · obtain ⟨x, y, hx, hy, rfl, -⟩ := getElem?_zipWith_join hw
      exact OrderedSet.elements_union_ne_nil (iha.produced position x hx)
    · obtain ⟨x, y, hx, hy, rfl, hmem⟩ := getElem?_zipWith_join hw
      exact (hmem origin ho).elim (iha.words position x hx origin) (ihb.words position y hy origin)
    · obtain ⟨x, y, hx, hy, rfl, hmem⟩ := getElem?_zipWith_join hs
      exact (hmem origin ho).elim (iha.slots i x hx origin) (ihb.slots i y hy origin)

theorem Arises.recorded (hf : evaluation.Recounted options pool code entry)
    (h : evaluation.Arises options pool code.handlers entry offset frame) :
    Attributed (fun _ => Origin.Recorded) Origin.Recorded frame :=
  h.attributed hf trivial (fun _ _ hlt => hlt)
    (fun _ hi _ _ _ _ _ _ => hf.lt_of_instruction? hi) fun hi _ _ => hf.lt_of_instruction? hi

/-- A recorded stack knows all producers of every frame that stood there. -/
theorem Recounted.mem_producers (hf : evaluation.Recounted options pool code entry)
    {before : Frame} {position : Nat} {word word' : Slot} {origin : Origin}
    (ha : evaluation.Arises options pool code.handlers entry offset frame)
    (hb : evaluation.before? offset = some before) (hw : frame.stack.get? position = some word)
    (hw' : before.stack.get? position = some word') (ho : origin ∈ word.producers.elements) :
    origin ∈ word'.producers.elements := by
  obtain ⟨before', hb', hcovers⟩ := ha.receives
  cases hb.symm.trans hb'
  obtain ⟨covered, hcovered, hc⟩ := hcovers.word position word' hw'
  cases hw.symm.trans hcovered
  obtain ⟨same, hsame, hrank⟩ := OrderedSet.contains_iff.mp
    ((Slot.covers_iff.mp hc).2 origin (OrderedSet.contains_of_mem ho))
  have hrecorded := ((hf.history.frames _ _ hb).recorded hf).words position word' hw' same hsame
  rw [← Origin.eq_of_rank_eq same origin hrecorded
    ((ha.recorded hf).words position word hw origin ho) hrank]
  exact hsame

end Evaluation

/-- An evaluation of a body whose offsets can be recorded is recounted. -/
theorem recounted_of_evaluate {options : EvaluationOptions} {pool : ConstantPool} {owner : String}
    {method : Method} {code : Code} {evaluation : Evaluation}
    (h : evaluate options pool owner method code = .ok evaluation)
    (hsize : code.bytes.length ≤ UInt32.size) :
    ∃ entry, evaluation.Recounted options pool code entry := by
  obtain ⟨hclosed, hlisting, -⟩ := closed_of_evaluate h
  obtain ⟨entry, hhistory⟩ := history_of_evaluate h
  exact ⟨entry, hclosed, hhistory, hlisting, hsize⟩

end JvmTrim
