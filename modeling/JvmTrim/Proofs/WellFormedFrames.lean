import JvmTrim.Proofs.Overapproximation
import JvmTrim.Proofs.Producers

/-!
# The frames that are recorded are well formed

Whatever a body does, the frames that its evaluation records hold every two-word value in two slots,
the unusable one where it belongs, and each slot names producers that exist: the method entry, a
handler of the body, or an instruction that was reached. A word of a stack is moreover at the very
position at which each of its instructions pushes one.

Nothing is asked of the body. A store may cut a two-word value in half, a constant load may push
more or fewer words than its stack effect says, and a return may take a single word of two: the
parts that are left are unusable, and how many words an instruction pushes is the same on every
frame.

## Main definitions

* `Locals.Paired`: every two-word value has an unusable variable behind it
* `Evaluation.Source`: the origins that a slot may name
* `Evaluation.PushesAt`: an instruction that pushes a word at a position
* `Evaluation.WellFormed`: what holds of every recorded frame

## Main results

* `Evaluation.Sourced.execute`: executing an instruction keeps producers right
* `wellFormed_of_evaluate`: the frames that are recorded are well formed
-/

namespace JvmTrim

/-! ## Two-word values -/

/-- Whether every two-word value in the variables has an unusable variable behind it. -/
def Locals.Paired (locals : Locals) : Prop :=
  ∀ (i : Nat) slot, locals.slots[i]? = some slot → slot.value.isWide = true →
    ∃ upper, locals.slots[i + 1]? = some upper ∧ upper.value = .top

theorem Locals.isWide_cut (slot : Slot) : (cut slot).value.isWide = false := by
  rw [cut]
  split
  · rfl
  · rename_i h
    simpa using h

theorem Locals.cut_of_top {slot : Slot} (h : slot.value = .top) : cut slot = slot := by
  rw [cut, h]
  rfl

theorem Locals.Paired.store {locals locals' : Locals} {index : UInt16} {value : Value}
    {producers : OriginSet} (hpaired : locals.Paired)
    (h : locals.store index value producers = .ok locals') : locals'.Paired := by
  obtain ⟨-, -, hslots⟩ := store_eq_ok h
  intro i slot hslot hwide
  rw [hslots] at hslot
  rw [hslots]
  by_cases hfirst : i = index.toNat
  · rw [if_pos hfirst] at hslot
    cases hslot
    rw [if_neg (by omega), if_pos ⟨hwide, by omega⟩]
    exact ⟨_, rfl, rfl⟩
  · rw [if_neg hfirst] at hslot
    split at hslot
    · cases hslot
      cases hwide
    · split at hslot
      · obtain ⟨old, -, rfl⟩ := Option.map_eq_some_iff.mp hslot
        rw [isWide_cut] at hwide
        cases hwide
      · rename_i hbehind hbefore
        obtain ⟨upper, hupper, htop⟩ := hpaired i slot hslot hwide
        rw [if_neg (by omega), if_neg fun hsecond => hfirst (by omega)]
        split
        · rw [hupper, Option.map_some, cut_of_top htop]
          exact ⟨upper, rfl, htop⟩
        · exact ⟨upper, hupper, htop⟩

theorem Locals.Paired.forget {locals : Locals} (hpaired : locals.Paired) (symbol : Symbol) :
    (locals.forget symbol).Paired := by
  intro i slot hslot hwide
  simp only [Locals.forget, Array.getElem?_map, Option.map_eq_some_iff] at hslot ⊢
  obtain ⟨old, hold, rfl⟩ := hslot
  obtain ⟨upper, hupper, htop⟩ :=
    hpaired i old hold ((Slot.Alike.forget symbol old).isWide_eq ▸ hwide)
  exact ⟨_, ⟨upper, hupper, rfl⟩, (Slot.Alike.forget symbol upper).top_iff.mpr htop⟩

theorem Locals.Paired.join {a b : Locals} (ha : a.Paired) (hb : b.Paired) : (a.join b).Paired := by
  intro i slot hslot hwide
  obtain ⟨x, y, hx, hy, rfl, -⟩ := Evaluation.getElem?_zipWith_join hslot
  obtain ⟨upper, hupper, htop⟩ := ha i x hx (Value.isWide_of_isWide_join hwide)
  obtain ⟨upper', hupper', -⟩ := hb i y hy (Value.isWide_right_of_isWide_join hwide)
  refine ⟨_, Array.getElem?_zipWith_eq_some.mpr ⟨upper, upper', hupper, hupper', rfl⟩, ?_⟩
  simp only [Slot.join, htop, Value.top_join]

theorem Locals.paired_ofSize (size : Nat) : (ofSize size).Paired := by
  intro i slot hslot hwide
  rw [(Array.mem_replicate.mp (Array.mem_of_getElem? hslot)).2] at hwide
  cases hwide

/-- No instruction leaves half of a two-word value in the variables. -/
theorem frameInvariant_paired :
    FrameInvariant Locals.Paired (fun _ => True) (fun _ => True) where
  top := trivial
  ofKind _ := trivial
  returnAddress _ := trivial
  join _ _ := trivial
  entry := trivial
  own _ := trivial
  union _ _ := trivial
  load _ _ := trivial
  store hl _ _ hs := hl.store hs
  forget symbol hl := hl.forget symbol
  joinLocals ha hb := ha.join hb

/-- Executing an instruction leaves every two-word value on an unusable word, also if the
instruction does not fit the constant that it loads. -/
theorem Context.paired_stack_execute {context : Context} {offset next : Nat}
    {instruction : Instruction} {frame : Frame} {step : Step}
    (h : context.execute offset next instruction frame = .ok step)
    (hpaired : frame.stack.Paired) : step.frame.stack.Paired := by
  by_cases hfits : instruction.loadFits context.pool = true
  · exact paired_execute h hfits hpaired
  · obtain ⟨effect, pushes, -, -, -, hexecute⟩ := execute_misfit offset hfits
    obtain ⟨pushed, hpushed, hmoves⟩ := hexecute next frame step h
    intro position word hword hwide
    by_cases hkept : position < frame.stack.height - 0
    · exact hmoves.paired_kept hpaired hkept hword hwide
    · obtain ⟨below, lower, hbelow, -, hlower⟩ :=
        hmoves.paired_pushed hpushed (Nat.le_of_not_lt hkept) hword hwide
      exact ⟨below, lower, hbelow, hlower⟩

/-! ## Producers -/

namespace Evaluation

/-- Whether an origin is one that a slot may name: the entry, a handler, or an instruction that is
reached. -/
def Source (evaluation : Evaluation) (handlers : List Handler) (origin : Origin) : Prop :=
  origin = .entry ∨ (∃ handler ∈ handlers, origin = .handler handler.target) ∨
    ∃ offset, evaluation.isTraced offset = true ∧ origin = .ofInstruction offset

/-- Whether a slot names producers, in order and each once, that it may name. -/
structure Names (evaluation : Evaluation) (handlers : List Handler) (producers : OriginSet) :
    Prop where
  nonempty : producers.elements ≠ []
  sorted : producers.elements.Pairwise (fun a b => a.rank < b.rank)
  sources : ∀ origin ∈ producers.elements, evaluation.Source handlers origin

/-- Whether the instruction at `offset`, executed on the frame recorded before it, pushes a word at
a position of the stack. -/
def PushesAt (evaluation : Evaluation) (options : EvaluationOptions) (pool : ConstantPool)
    (offset position : Nat) : Prop :=
  ∃ instruction before effect step word,
    evaluation.instruction? offset = some instruction ∧
      evaluation.before? offset = some before ∧
      (options.context pool).execute offset (evaluation.nextOffset offset) instruction before
        = .ok step ∧
      instruction.stackEffect pool = .ok effect ∧ effect.pops ≤ before.stack.height ∧
      before.stack.height - effect.pops ≤ position ∧
      step.frame.stack.get? position = some word ∧
      word.producers = OriginSet.ofInstruction offset

/-- Whether the producers in a frame are right. -/
structure Sourced (evaluation : Evaluation) (options : EvaluationOptions) (pool : ConstantPool)
    (handlers : List Handler) (frame : Frame) : Prop where
  locals : ∀ slot ∈ frame.locals.slots, evaluation.Names handlers slot.producers
  words : ∀ word ∈ frame.stack.words, evaluation.Names handlers word.producers
  pushed : ∀ position word, frame.stack.get? position = some word →
    ∀ recorded, .instruction recorded ∈ word.producers.elements →
      ∃ offset, recordedOffset offset = recorded ∧
        evaluation.PushesAt options pool offset position

/-- Whether a frame is well formed. -/
structure WellFormed (evaluation : Evaluation) (options : EvaluationOptions) (pool : ConstantPool)
    (code : Code) (frame : Frame) : Prop extends
    Sourced evaluation options pool code.handlers frame where
  size : frame.locals.size = code.maxLocals.toNat
  pairedLocals : frame.locals.Paired
  pairedStack : frame.stack.Paired

variable {evaluation : Evaluation} {options : EvaluationOptions} {pool : ConstantPool}
  {handlers : List Handler} {entry frame : Frame} {offset : Nat}

theorem names_singleton {origin : Origin} (h : evaluation.Source handlers origin) :
    evaluation.Names handlers (OrderedSet.singleton origin) :=
  ⟨List.cons_ne_nil _ _, OrderedSet.ascending _, fun _ ho => by rwa [List.mem_singleton.mp ho]⟩

theorem Names.union {a b : OriginSet} (ha : evaluation.Names handlers a)
    (hb : evaluation.Names handlers b) : evaluation.Names handlers (OrderedSet.union a b) :=
  ⟨OrderedSet.elements_union_ne_nil ha.nonempty, OrderedSet.ascending _, fun origin ho =>
    (OrderedSet.mem_or_mem_of_mem_union ho).elim (ha.sources origin) (hb.sources origin)⟩

/-- **Executing an instruction keeps producers right.** What it pushes lies where it pushes the same
number of words on the recorded frame, whose stack has the same height. -/
theorem Sourced.execute {instruction : Instruction} {step : Step}
    (h : evaluation.Sourced options pool handlers frame)
    (hclosed : evaluation.Closed options pool handlers) (hr : evaluation.Receives offset frame)
    (hi : evaluation.instruction? offset = some instruction)
    (he : (options.context pool).execute offset (evaluation.nextOffset offset) instruction frame
      = .ok step) : evaluation.Sourced options pool handlers step.frame := by
  obtain ⟨before, hbefore, hcovers⟩ := hr
  obtain ⟨instruction', recorded, hsettled⟩ := hclosed.settled offset before hbefore
  cases hi.symm.trans hsettled.listed
  obtain ⟨pushes, hwords⟩ := Context.exists_words (options.context pool) offset instruction
  obtain ⟨effect, pushed, heffect, hlength, hproducers, -, hmoves⟩ := hwords _ _ _ he
  obtain ⟨effect', pushed', heffect', hlength', hproducers', -, hmoves'⟩ :=
    hwords _ _ _ hsettled.execute
  cases heffect.symm.trans heffect'
  have hown : evaluation.Names handlers (OriginSet.ofInstruction offset) :=
    names_singleton (.inr (.inr ⟨offset, hsettled.traced, rfl⟩))
  have hsame := hcovers.height_eq
  have hheight := hmoves.length_eq
  have hheight' := hmoves'.length_eq
  have hcases (position : Nat) (word : Slot) (hw : step.frame.stack.get? position = some word) :
      (∃ old, frame.stack.get? position = some old ∧ word.producers = old.producers) ∨
        frame.stack.height - effect.pops ≤ position ∧
          word.producers = OriginSet.ofInstruction offset := by
    have hlt : position < step.frame.stack.height := (Array.getElem?_eq_some_iff.mp hw).1
    by_cases hkept : position < frame.stack.height - effect.pops
    · obtain ⟨old, new, hold, hnew, halike⟩ := hmoves.get?_kept hkept
      cases hw.symm.trans hnew
      exact .inl ⟨old, hold, halike.producers_eq⟩
    · rw [hmoves.get?_pushed (Nat.le_of_not_lt hkept) hlt] at hw
      exact .inr ⟨Nat.le_of_not_lt hkept, hproducers word (List.mem_of_getElem? hw)⟩
  refine ⟨fun slot hs => ?_, fun word hw => ?_, fun position word hw origin ho => ?_⟩
  · obtain ⟨i, hslot⟩ := Array.mem_iff_getElem?.mp hs
    rcases hmoves.locals i slot hslot with ⟨old, hold, hp⟩ | ⟨-, hp⟩
    · exact hp ▸ h.locals old (Array.mem_of_getElem? hold)
    · exact hp ▸ hown
  · obtain ⟨position, hword⟩ := Array.mem_iff_getElem?.mp hw
    rcases hcases position word hword with ⟨old, hold, hp⟩ | ⟨-, hp⟩
    · exact hp ▸ h.words old (Array.mem_of_getElem? hold)
    · exact hp ▸ hown
  · rcases hcases position word hw with ⟨old, hold, hp⟩ | ⟨hge, hp⟩
    · exact h.pushed position old hold origin (hp ▸ ho)
    · rw [hp] at ho
      cases List.mem_singleton.mp ho
      have hlt : position < step.frame.stack.height := (Array.getElem?_eq_some_iff.mp hw).1
      have hlt' : position < recorded.frame.stack.height := by omega
      obtain ⟨placed, hplaced⟩ : ∃ placed, recorded.frame.stack.get? position = some placed :=
        ⟨_, Array.getElem?_eq_getElem hlt'⟩
      refine ⟨offset, rfl, instruction, before, effect, recorded, placed, hi, hbefore,
        hsettled.execute, heffect, hmoves'.le_height, by omega, hplaced, ?_⟩
      rw [hmoves'.get?_pushed (by omega) hlt'] at hplaced
      exact hproducers' placed (List.mem_of_getElem? hplaced)

/-- **The producers in every frame that arises are right.** -/
theorem Arises.sourced (hclosed : evaluation.Closed options pool handlers)
    (hhistory : evaluation.History options pool handlers entry)
    (h : evaluation.Arises options pool handlers entry offset frame) :
    evaluation.Sourced options pool handlers frame := by
  induction h with
  | entry hr =>
    have hempty : entry.stack.words = #[] := congrArg Stack.words hhistory.stack
    refine ⟨fun slot hs => ?_, fun word hw => ?_, fun position word hw => ?_⟩
    · rw [hhistory.locals slot hs]
      exact names_singleton (.inl rfl)
    · simp [hempty] at hw
    · simp [Stack.get?, hempty] at hw
  | step ha hi he hs hr ih => exact ih.execute hclosed ha.receives hi he
  | @handler offset frame handler ha hm hc hr ih =>
    refine ⟨fun slot hs => ?_, fun word hw => ?_, fun position word hw origin ho => ?_⟩
    · simp only [handlerFrame, Locals.forget, Array.mem_map] at hs
      obtain ⟨old, hold, rfl⟩ := hs
      exact ih.locals old hold
    · obtain ⟨position, hword⟩ := Array.mem_iff_getElem?.mp hw
      rw [(get?_handlerFrame hword).1]
      exact names_singleton (.inr (.inl ⟨handler, hm, rfl⟩))
    · rw [(get?_handlerFrame hw).1] at ho
      cases List.mem_singleton.mp ho
  | join ha hb hj hr iha ihb =>
    obtain ⟨-, rfl⟩ := Frame.joinAt_eq_ok_iff.mp hj
    have hunion {as bs : Array Slot} {slot : Slot}
        (has : ∀ x ∈ as, evaluation.Names handlers x.producers)
        (hbs : ∀ y ∈ bs, evaluation.Names handlers y.producers)
        (hs : slot ∈ as.zipWith Slot.join bs) : evaluation.Names handlers slot.producers := by
      obtain ⟨i, hslot⟩ := Array.mem_iff_getElem?.mp hs
      obtain ⟨x, y, hx, hy, rfl⟩ := Array.getElem?_zipWith_eq_some.mp hslot
      exact (has x (Array.mem_of_getElem? hx)).union (hbs y (Array.mem_of_getElem? hy))
    refine ⟨fun slot hs => hunion iha.locals ihb.locals hs,
      fun word hw => hunion iha.words ihb.words hw, fun position word hw recorded ho => ?_⟩
    obtain ⟨x, y, hx, hy, -, hmem⟩ := getElem?_zipWith_join hw
    rcases hmem _ ho with ho | ho
    · exact iha.pushed position x hx recorded ho
    · exact ihb.pushed position y hy recorded ho

theorem Arises.paired (hhistory : evaluation.History options pool handlers entry)
    (h : evaluation.Arises options pool handlers entry offset frame) : frame.stack.Paired := by
  induction h with
  | entry hr =>
    intro position word hw
    rw [hhistory.stack] at hw
    cases hw
  | step ha hi he hs hr ih => exact Context.paired_stack_execute he ih
  | handler ha hm hc hr ih =>
    intro position word hw hwide
    rw [(get?_handlerFrame hw).2] at hwide
    cases hwide
  | join ha hb hj hr iha ihb =>
    obtain ⟨-, rfl⟩ := Frame.joinAt_eq_ok_iff.mp hj
    exact paired_zipWith_join iha ihb

end Evaluation

/-! ## The whole evaluation -/

variable {options : EvaluationOptions} {pool : ConstantPool} {owner : String} {method : Method}
  {code : Code} {evaluation : Evaluation}

/-- A frame is recorded behind an instruction only if one is recorded before it. -/
theorem before?_isSome_of_after? (h : evaluate options pool owner method code = .ok evaluation) :
    ∀ offset frame, evaluation.after? offset = some frame →
      (evaluation.before? offset).isSome = true := by
  refine evaluate_along (motive := fun evaluation => ∀ offset frame,
    evaluation.after? offset = some frame → (evaluation.before? offset).isSome = true)
    (fun old new offset before instruction step made _ _ hv hold o frame ha => ?_)
    (fun listing _ offset frame ha => ?_)
    (fun listing locals entered _ _ _ he offset frame ha => ?_) h
  · obtain ⟨earlier, hearlier⟩ : ∃ earlier, old.evaluation.before? o = some earlier := by
      by_cases heq : o = offset
      · exact ⟨before, heq ▸ hv.recorded⟩
      · exact Option.isSome_iff_exists.mp (hold o frame (hv.after o heq ▸ ha))
    obtain ⟨later, hlater, -⟩ := hv.receives o earlier ⟨earlier, hearlier, earlier.covers_refl⟩
    exact Option.isSome_iff_exists.mpr ⟨later, hlater⟩
  · rw [Evaluation.after?_blank] at ha
    cases ha
  · rw [he.after] at ha
    cases ha

/-- The frames before instructions are well formed. -/
theorem wellFormed_before (h : evaluate options pool owner method code = .ok evaluation)
    {offset : Nat} {frame : Frame} (hframe : evaluation.before? offset = some frame) :
    evaluation.WellFormed options pool code frame := by
  obtain ⟨hclosed, -, -⟩ := closed_of_evaluate h
  obtain ⟨entry, hhistory⟩ := history_of_evaluate h
  have harises := hhistory.frames offset frame hframe
  exact ⟨harises.sourced hclosed hhistory, size_locals_of_evaluate h hframe,
    (meets_of_evaluate frameInvariant_paired (fun _ _ => trivial) (Locals.paired_ofSize _) h offset
      frame hframe).locals,
    harises.paired hhistory⟩

/-- **The frames that are recorded are well formed**, before and behind every instruction. -/
theorem wellFormed_of_evaluate (h : evaluate options pool owner method code = .ok evaluation)
    {offset : Nat} {frame : Frame}
    (hframe : evaluation.before? offset = some frame ∨ evaluation.after? offset = some frame) :
    evaluation.WellFormed options pool code frame := by
  rcases hframe with hbefore | hafter
  · exact wellFormed_before h hbefore
  · obtain ⟨before, hbefore⟩ :=
      Option.isSome_iff_exists.mp (before?_isSome_of_after? h offset frame hafter)
    obtain ⟨hclosed, -, -⟩ := closed_of_evaluate h
    obtain ⟨instruction, step, hsettled⟩ := hclosed.settled offset before hbefore
    cases hafter.symm.trans hsettled.after
    obtain ⟨hsourced, hsize, hlocals, hstack⟩ := wellFormed_before h hbefore
    have hmeets : before.Meets Locals.Paired (fun _ => True) (fun _ => True) :=
      ⟨hlocals, fun _ _ => ⟨trivial, trivial⟩⟩
    exact ⟨hsourced.execute hclosed ⟨before, hbefore, before.covers_refl⟩ hsettled.listed
        hsettled.execute,
      (Context.size_locals_execute _ offset hsettled.execute).trans hsize,
      (hmeets.execute frameInvariant_paired hsettled.execute).locals,
      Context.paired_stack_execute hsettled.execute hstack⟩

/-- A long value of which a later store overwrites the second half. -/
def halvedLong : Code where
  maxStack := 2
  maxLocals := 2
  bytes := [0x0A, 0x3F, 0x03, 0x3C, 0xB1]
  handlers := []
  lines := []
  localRanges := []

/-- Behind the second store the long value is gone. -/
theorem wellFormed_of_evaluate_halvedLong : ∃ evaluation before frame,
    evaluate (.precise .none) .empty "Halves" ⟨AccessFlags.static, "halve", "()V", none⟩ halvedLong
        = .ok evaluation ∧
      evaluation.before? 3 = some before ∧
      before.locals.slots.toList.map (·.value) = [.ofLong 1, .top] ∧
      evaluation.after? 3 = some frame ∧
      frame.locals.slots.toList.map (·.value) = [.top, .ofInt 0] ∧
      evaluation.WellFormed (.precise .none) .empty halvedLong before ∧
      evaluation.WellFormed (.precise .none) .empty halvedLong frame := by
  have hchecks : ((evaluate (.precise .none) .empty "Halves"
      ⟨AccessFlags.static, "halve", "()V", none⟩ halvedLong).toOption.any fun evaluation =>
        (evaluation.before? 3).any (fun before =>
          before.locals.slots.toList.map (·.value) == [.ofLong 1, .top]) &&
        (evaluation.after? 3).any (fun frame =>
          frame.locals.slots.toList.map (·.value) == [.top, .ofInt 0])) = true := by
    decide +kernel
  cases h : evaluate (.precise .none) .empty "Halves"
      ⟨AccessFlags.static, "halve", "()V", none⟩ halvedLong with
  | error failure =>
    rw [h] at hchecks
    cases hchecks
  | ok evaluation =>
    simp only [h, Except.toOption, Option.any_some, Bool.and_eq_true, Option.any_eq_true,
      beq_iff_eq] at hchecks
    obtain ⟨⟨before, hbefore, hlong⟩, frame, hframe, hint⟩ := hchecks
    exact ⟨evaluation, before, frame, rfl, hbefore, hlong, hframe, hint,
      wellFormed_of_evaluate h (.inl hbefore), wellFormed_of_evaluate h (.inr hframe)⟩

end JvmTrim
