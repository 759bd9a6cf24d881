import JvmTrim.Proofs.Selection

/-!
# Stores that agree

Two runs, one of a body and one of what it is simplified to, stand at the same place with stores that
agree as far as the marks ask for it. Of the stack of the first one the present words are left, and a
word holds the same number if every instruction that may have produced it was told that the word is
needed. A variable holds the same number if every instruction that may have written it is necessary.
Both conditions only get harder to meet along an edge of the control flow, because the producers
recorded before an offset include those recorded on every way to it. So it is enough to look at one
instruction at a time: what the two runs make of the words it takes and gives, and of the variables it
writes.

## Main definitions

* `Marks.wordNeeded`, `Marks.slotKept`: when a word and a variable hold the same number
* `Marks.Agree`: stores that agree before an instruction
* `Marks.AgreeAfter`: stores that agree after an instruction

## Main results

* `Subject.Presence.agree_of_after`: agreement passes along every edge
* `Context.producers_execute`: the variables that an instruction is recorded to write
-/

namespace JvmTrim

namespace Marks

variable (marks : Marks)

/-- Whether every producer of the word at a position was told that the word is needed. -/
def wordNeeded (stack : Stack) (position : Nat) : Prop :=
  ∀ word, stack.get? position = some word → ∀ origin ∈ word.producers.elements,
    marks.has (.needed ⟨origin, position⟩) = true

/-- Whether every instruction that may have written a variable is necessary. -/
def slotKept (slot : Slot) : Prop :=
  ∀ producer, .instruction producer ∈ slot.producers.elements →
    marks.reachable.contains producer = true → marks.necessary.contains producer = true

/-- Whether two lists of variables agree on those whose writers are necessary. -/
structure AgreeOn (locals : Locals) (words words' : List Cell) : Prop where
  length : words'.length = words.length
  slot : ∀ (i : Nat) slot, locals.slots[i]? = some slot → marks.slotKept slot →
    words'[i]? = words[i]?

/-- Whether two stores agree before an instruction. -/
structure Agree (frame : Frame) (store store' : Store) : Prop where
  stack : Selects (marks.wordPresent frame.stack · = true) (marks.wordNeeded frame.stack) 0
    store.stack store'.stack
  locals : marks.AgreeOn frame.locals store.locals store'.locals

/-- Whether two stores agree after the instruction at `offset`, which left the `base` lowest words of
a stack as they were and pushed all others. -/
structure AgreeAfter (offset base : Nat) (before : Stack) (locals : Locals) (store store' : Store) :
    Prop where
  stack : ∃ pushed rest pushed' rest', store.stack = pushed ++ rest ∧
    store'.stack = pushed' ++ rest' ∧ rest.length = base ∧
    Selects (marks.wordPresent before · = true) (marks.wordNeeded before) 0 rest rest' ∧
    Selects (marks.isPresent (.instruction offset) · = true)
      (fun position => marks.has (.needed ⟨.instruction offset, position⟩) = true) base pushed
      pushed'
  locals : marks.AgreeOn locals store.locals store'.locals

end Marks

/-! ## Variables that are written -/

theorem Instruction.writes_of_not_stores {instruction : Instruction} (h : ¬ instruction.Stores) :
    instruction.writes = [] := by
  unfold writes
  split
  · rename_i kind slot hop
    exact absurd (.inl ⟨kind, slot, hop⟩) h
  · rename_i hop
    exact absurd (.inr hop) h
  · rfl

namespace Context

variable {context : Context} {names : Naming} {frame frame' : Frame} {store store' : Store}
  {offset : Nat} {instruction : Instruction} {i : Nat} {slot : Slot}

/-- The variables that an instruction of the machine is recorded to write, if it writes any. -/
theorem producers_perform (hstores : instruction.Stores)
    (h : context.perform offset instruction frame = .ok ((), frame'))
    (hm : Machine.perform context.pool instruction store = .ok ((), store'))
    (hf : frame.Holds names store) (hs : frame'.locals.slots[i]? = some slot) :
    i ∈ instruction.writes ∧ slot.producers = OriginSet.ofInstruction offset ∨
      i ∉ instruction.writes ∧
        ∃ old, frame.locals.slots[i]? = some old ∧ slot.producers = old.producers := by
  unfold perform at h
  unfold Machine.perform at hm
  unfold Instruction.writes
  rcases hstores with ⟨kind, index, hop⟩ | hop
  · rw [hop] at hm
    simp only [hop] at h ⊢
    obtain ⟨value, middle, hpop, hstore⟩ := StateT.bind_eq_ok.mp h
    obtain ⟨-, -, hlocals, -⟩ := Transfer.pop_eq_ok hpop
    obtain ⟨-, hstore⟩ := Transfer.store_eq_ok hstore
    rw [hlocals] at hstore
    have hwide : (storedValue kind value).isWide = decide (kind.size = 2) := by
      cases kind with
      | int =>
        obtain ⟨number, store₁, hpop', -⟩ := StateT.bind_eq_ok.mp hm
        cases Machine.popInt_eq_ok hpop'
        obtain ⟨hholds, -⟩ := hf.pop hpop rfl
        cases value <;> first | rfl | exact hholds.elim
      | long =>
        unfold storedValue
        cases hvalue : value.isWide <;> simp [Kind.size, hvalue]
        rfl
      | _ => cases hm
    have hwrites : (i ∈ if kind.size = 2 then [(index.getD instruction.operandSlot).toNat,
        (index.getD instruction.operandSlot).toNat + 1] else
        [(index.getD instruction.operandSlot).toNat]) ↔
        i = (index.getD instruction.operandSlot).toNat ∨ (storedValue kind value).isWide = true ∧
          i = (index.getD instruction.operandSlot).toNat + 1 := by
      rw [hwide, decide_eq_true_eq]
      split <;> simp [*]
    rw [hwrites]
    exact Locals.producers_store hstore hs
  · simp only [hop] at h hm ⊢
    unfold increment at h
    cases hoperand : instruction.operand with
    | increment index delta =>
      simp only [hoperand] at h ⊢
      obtain ⟨current, loaded, hload, hrest⟩ := StateT.bind_eq_ok.mp h
      obtain ⟨value, middle, hcomputed, hlast⟩ := StateT.bind_eq_ok.mp hrest
      obtain ⟨rfl, -⟩ := Transfer.load_eq_ok hload
      obtain ⟨-, hstore⟩ := Transfer.store_eq_ok hlast
      have htakes : Transfer.Takes False offset 0 (fun result => result.kind? = some .int)
          (context.computed offset .int
            (current.int?.map fun v => Value.ofInt (v + delta.toInt32))) := by
        refine takes_computed fun known hk => ?_
        obtain ⟨number, -, rfl⟩ := Option.map_eq_some_iff.mp hk
        rfl
      obtain ⟨hmoves, hkind⟩ := htakes _ _ _ hcomputed
      have hwide : value.isWide = false := Value.isWide_of_kind? hkind
      rw [List.mem_singleton]
      rcases Locals.producers_store hstore hs with ⟨hi, hp⟩ | ⟨hi, old, hold, hp⟩
      · exact .inl ⟨by simpa [hwide] using hi, hp⟩
      · refine .inr ⟨by simpa [hwide] using hi, ?_⟩
        obtain ⟨older, holder, hp'⟩ := (hmoves.locals i old hold).resolve_right (·.1)
        exact ⟨older, holder, hp.trans hp'⟩
    | _ =>
      simp only [hoperand] at h
      cases h

/-- The variable that an instruction reads is there. -/
theorem load_of_reads? {next : Nat} {step : Step} {index : UInt16}
    (h : context.execute offset next instruction frame = .ok step)
    (hread : instruction.reads? = some index) : ∃ found, frame.locals.load index = .ok found := by
  unfold Instruction.reads? at hread
  have hload {value : Value} {loaded : Frame}
      (hl : Transfer.load index frame = .ok (value, loaded)) :
      ∃ found, frame.locals.load index = .ok found := by
    obtain ⟨-, found, hfound, -⟩ := Transfer.load_eq_ok hl
    exact ⟨found, Locals.load_eq_ok.mpr hfound⟩
  cases hop : instruction.operation with
  | load kind slot =>
    have hperform := perform_of_execute h (congrArg Operation.flow hop)
      fun mode hcall => by cases hop.symm.trans hcall
    unfold perform at hperform
    simp only [hop] at hperform hread
    cases hread
    obtain ⟨value, loaded, hl, -⟩ := StateT.bind_eq_ok.mp hperform
    exact hload hl
  | increment =>
    have hperform := perform_of_execute h (congrArg Operation.flow hop)
      fun mode hcall => by cases hop.symm.trans hcall
    unfold perform at hperform
    simp only [hop] at hperform hread
    unfold increment at hperform
    cases hoperand : instruction.operand with
    | increment slot delta =>
      simp only [hoperand] at hperform hread
      cases hread
      obtain ⟨value, loaded, hl, -⟩ := StateT.bind_eq_ok.mp hperform
      exact hload hl
    | _ =>
      simp only [hoperand] at hread
      cases hread
  | _ =>
    simp only [hop] at hread
    cases hread

/-- **The variables that an instruction of the machine is recorded to write** are those that it
writes. -/
theorem producers_execute {next : Nat} {step : Step} {exit : Option Nat}
    (h : context.execute offset next instruction frame = .ok step)
    (hfits : instruction.loadFits context.pool = true)
    (hm : Machine.execute context.pool instruction store = .ok (exit, store'))
    (hf : frame.Holds names store) (hs : step.frame.locals.slots[i]? = some slot) :
    i ∈ instruction.writes ∧ slot.producers = OriginSet.ofInstruction offset ∨
      i ∉ instruction.writes ∧
        ∃ old, frame.locals.slots[i]? = some old ∧ slot.producers = old.producers := by
  by_cases hstores : instruction.Stores
  · have hperforms : context.perform offset instruction frame = .ok ((), step.frame) ∧
        Machine.perform context.pool instruction store = .ok ((), store') := by
      unfold Machine.execute at hm
      rcases hstores with ⟨kind, index, hop⟩ | hop
      all_goals
        simp only [hop] at hm
        obtain ⟨_, store₁, hperform', hm₁⟩ := StateT.bind_eq_ok.mp hm
        obtain ⟨rfl, rfl⟩ := StateT.pure_eq_ok.mp hm₁
        exact ⟨perform_of_execute h (congrArg Operation.flow hop)
          (fun mode hcall => by cases hop.symm.trans hcall), hperform'⟩
    exact producers_perform hstores hperforms.1 hperforms.2 hf hs
  · obtain ⟨effect, pushed, -, -, -, hmoves⟩ := execute_effect h hfits
    rw [Instruction.writes_of_not_stores hstores]
    exact .inr ⟨List.not_mem_nil, (hmoves.locals i slot hs).resolve_right fun h => hstores h.1⟩

end Context

/-! ## Along an edge -/

namespace Evaluation.Faithful

variable {evaluation : Evaluation} {options : EvaluationOptions} {pool : ConstantPool}
  {code : Code} {entry frame before : Frame} {offset : Nat}
  (h : evaluation.Faithful options pool code entry)

include h

/-- The recorded variables know all instructions that wrote them in a frame that stood there. -/
theorem mem_slot_producers {i producer : Nat} {slot slot' : Slot}
    (ha : evaluation.Arises options pool code.handlers entry offset frame)
    (hb : evaluation.before? offset = some before) (hs : frame.locals.slots[i]? = some slot)
    (hs' : before.locals.slots[i]? = some slot')
    (ho : .instruction producer ∈ slot.producers.elements) :
    .instruction producer ∈ slot'.producers.elements := by
  obtain ⟨before', hb', hcovers⟩ := ha.receives
  cases hb.symm.trans hb'
  obtain ⟨covered, hcovered, hc⟩ := hcovers.slot i slot' hs'
  cases hs.symm.trans hcovered
  obtain ⟨same, hsame, hrank⟩ := OrderedSet.contains_iff.mp
    ((Slot.covers_iff.mp hc).2 _ (OrderedSet.contains_of_mem ho))
  have hwrites := (h.accounts hb).written i slot' hs' same hsame
  cases same with
  | entry =>
    simp only [Origin.rank] at hrank
    omega
  | handler target => exact hwrites.elim
  | instruction other =>
    simp only [Origin.rank] at hrank
    obtain rfl : other = producer := by omega
    exact hsame

end Evaluation.Faithful

namespace Subject.Presence

variable {subject : Subject} {options : EvaluationOptions} {entry before next : Frame}
  {original reductions : Reductions} {simple : Evaluation} {marks : Marks}
  {offset successor : Nat} {instruction : Instruction} {step : Step} {effect : StackEffect}
  {store store' : Store}
  (h : subject.Presence options entry original simple marks reductions)

include h

/-- **Agreement passes along every edge.** -/
theorem agree_of_after (hr : marks.reachable.contains offset = true)
    (hr' : marks.reachable.contains successor = true)
    (hb : subject.evaluation.before? offset = some before)
    (hn : subject.evaluation.before? successor = some next)
    (hs : subject.evaluation.Settled options subject.pool subject.code.handlers offset before
      instruction step)
    (he : instruction.stackEffect subject.pool = .ok effect)
    (hsuccessor : successor ∈ step.successors)
    (hreceives : subject.evaluation.Receives successor step.frame)
    (ha : marks.AgreeAfter offset (before.stack.height - effect.pops) before.stack
      step.frame.locals store store')
    (hheight : store.stack.length = step.frame.stack.height) : marks.Agree next store store' := by
  have harises := Evaluation.Arises.step (h.faithful.history.frames _ _ hb) hs.listed hs.execute
    hsuccessor hreceives
  obtain ⟨effect', pushed, heffect, hlength, hproducers, hmoves⟩ :=
    Context.execute_effect hs.execute (h.faithful.fits _ _ hs.listed)
  cases he.symm.trans heffect
  obtain ⟨next', hn', hcovers⟩ := hreceives
  cases hn.symm.trans hn'
  have hstep := hmoves.length_eq
  have hcovered := hcovers.height_eq
  have hget (stack : Stack) (position : Nat) (hlt : position < stack.height) :
      ∃ word, stack.get? position = some word := ⟨_, Array.getElem?_eq_getElem hlt⟩
  refine ⟨?_, ha.locals.length, ?_⟩
  · -- the stack
    obtain ⟨given, rest, given', rest', hstack, hstack', hrest, hbelow, habove⟩ := ha.stack
    rw [hstack, List.length_append] at hheight
    rw [hstack, hstack']
    refine Selects.append_iff.mpr ⟨given', rest', rfl, ?_, ?_⟩
    · -- words just given
      rw [Nat.zero_add, hrest]
      have hproduced (position : Nat) (hge : before.stack.height - effect.pops ≤ position)
          (hlt : position < before.stack.height - effect.pops + given.length) :
          ∃ word', next.stack.get? position = some word' ∧
            .instruction offset ∈ word'.producers.elements := by
        obtain ⟨word', hword'⟩ := hget next.stack position (by omega)
        obtain ⟨word, hword⟩ := hget step.frame.stack position (by omega)
        refine ⟨word', hword', h.faithful.recounted.mem_producers harises hn hword hword' ?_⟩
        rw [hmoves.get?_pushed hge (by omega)] at hword
        rw [hproducers word (List.mem_of_getElem? hword), h.faithful.elements_ofInstruction hs.listed]
        exact List.mem_singleton_self _
      refine habove.mono (fun position hge hlt => ?_) fun position hge hlt hneeded => ?_
      · obtain ⟨word', hword', ho⟩ := hproduced position hge hlt
        exact (h.wordPresent_iff hr' hn hword' ho).symm
      · obtain ⟨word', hword', ho⟩ := hproduced position hge hlt
        exact hneeded word' hword' _ ho
    · -- words below them
      have hkept (position : Nat) (hlt : position < 0 + rest.length) :
          ∃ word word', before.stack.get? position = some word ∧
            next.stack.get? position = some word' ∧ word.producers.elements ≠ [] ∧
            ∀ origin ∈ word.producers.elements, origin ∈ word'.producers.elements := by
        obtain ⟨word, moved, hword, hmoved, halike⟩ := hmoves.get?_kept (show position < _ by omega)
        obtain ⟨word', hword'⟩ := hget next.stack position (by omega)
        refine ⟨word, word', hword, hword',
          (h.faithful.accounts hb).produced position word hword, fun origin ho => ?_⟩
        exact h.faithful.recounted.mem_producers harises hn hmoved hword' (halike.producers_eq ▸ ho)
      refine hbelow.mono (fun position _ hlt => ?_) fun position _ hlt hneeded => ?_
      · obtain ⟨word, word', hword, hword', hne, hsub⟩ := hkept position hlt
        obtain ⟨origin, ho⟩ := List.exists_mem_of_ne_nil _ hne
        exact (h.wordPresent_iff hr hb hword ho).trans
          (h.wordPresent_iff hr' hn hword' (hsub origin ho)).symm
      · obtain ⟨word, word', hword, hword', -, hsub⟩ := hkept position hlt
        intro found hfound origin ho
        cases hword.symm.trans hfound
        exact hneeded word' hword' origin (hsub origin ho)
  · -- the variables
    intro i slot hslot hkept
    obtain ⟨written, hwritten, -⟩ := hcovers.slot i slot hslot
    refine ha.locals.slot i written hwritten fun producer ho hreach => ?_
    exact hkept producer (h.faithful.mem_slot_producers harises hn hwritten hslot ho) hreach

end Subject.Presence

/-! ## One step -/

/-- An instruction leaves alone the words below those that it takes and the variables that it does
not write. -/
theorem Machine.execute_splits {pool : ConstantPool} {instruction : Instruction}
    {effect : StackEffect} {exit : Option Nat} {top rest locals : List Cell} {store' : Store}
    (he : instruction.stackEffect pool = .ok effect) (hlength : top.length = effect.pops)
    (h : execute pool instruction ⟨top ++ rest, locals⟩ = .ok (exit, store')) :
    ∃ given, store'.stack = given ++ rest ∧ store'.locals.length = locals.length ∧
      ∀ i ∉ instruction.writes, store'.locals[i]? = locals[i]? := by
  obtain ⟨given, changed, -, hstack, -, hrewrites⟩ :=
    (local_execute he top rest rest locals locals (Nat.le_of_eq hlength.symm) rfl
      fun _ _ => rfl).2 _ _ h
  exact ⟨given, hstack, hrewrites.length, fun i hi => (hrewrites.kept i hi).1⟩

namespace Evaluation.Advances

variable {evaluation : Evaluation} {options : EvaluationOptions} {pool : ConstantPool}
  {handlers : List Handler} {state next : Machine.State} {before : Frame}
  {instruction : Instruction} {step : Step} {exit : Option Nat} {names names' : Naming}
  {effect : StackEffect}
  (ha : evaluation.Advances options pool handlers state next before instruction step exit names
    names')

include ha

/-- A step takes as many words as the evaluation recorded and gives as many. -/
theorem splits (hfits : instruction.loadFits pool = true)
    (he : instruction.stackEffect pool = .ok effect) : ∃ top rest given,
      state.stack = top ++ rest ∧ next.stack = given ++ rest ∧ top.length = effect.pops ∧
      rest.length = before.stack.height - effect.pops ∧ given.length = effect.pushes := by
  obtain ⟨effect', pushed, heffect, hlength, -, hmoves⟩ :=
    Context.execute_effect ha.settled.execute hfits
  cases he.symm.trans heffect
  have hle := hmoves.le_height
  have hbefore := ha.holds.height_eq
  have hafter := ha.holds_after.height_eq
  have hmoved := hmoves.length_eq
  have htop : (state.stack.take effect.pops).length = effect.pops :=
    List.length_take_of_le (by omega)
  have hexecute : Machine.execute pool instruction ⟨state.stack.take effect.pops ++
      state.stack.drop effect.pops, state.locals⟩ = .ok (exit, next.toStore) := by
    rw [List.take_append_drop]
    exact ha.execute
  obtain ⟨given, hgiven, -, -⟩ := Machine.execute_splits he htop hexecute
  refine ⟨_, _, given, (List.take_append_drop effect.pops _).symm, hgiven, htop, ?_, ?_⟩
  · rw [List.length_drop, hbefore]
  · rw [hgiven, List.length_append, List.length_drop] at hafter
    omega

end Evaluation.Advances

namespace Subject.Presence

variable {subject : Subject} {options : EvaluationOptions} {entry before : Frame}
  {original reductions : Reductions} {simple : Evaluation} {marks : Marks}
  {instruction : Instruction} {step : Step} {exit : Option Nat} {names names' : Naming}
  {state next : Machine.State} {locals' changed : List Cell}
  (h : subject.Presence options entry original simple marks reductions)
  (ha : subject.evaluation.Advances options subject.pool subject.code.handlers state next before
    instruction step exit names names')

include h ha

/-- Variables agree after an instruction that both runs execute. -/
theorem agreeOn_of_rewrites (hagree : marks.AgreeOn before.locals state.locals locals')
    (hrewrites : Machine.Rewrites instruction.writes state.locals locals' next.locals changed) :
    marks.AgreeOn step.frame.locals next.locals changed := by
  refine ⟨by rw [hrewrites.length', hrewrites.length, hagree.length], fun i slot hslot hkept => ?_⟩
  rcases Context.producers_execute ha.settled.execute (h.faithful.fits _ _ ha.settled.listed)
    ha.execute ha.holds hslot with ⟨hi, -⟩ | ⟨hi, old, hold, hproducers⟩
  · exact hrewrites.written i hi
  · obtain ⟨hnext, hchanged⟩ := hrewrites.kept i hi
    rw [hnext, hchanged]
    refine hagree.slot i old hold fun producer ho => hkept producer ?_
    rw [hproducers]
    exact ho

/-- Variables agree after an instruction that only one run executes, unless it writes a variable and
is necessary. -/
theorem agreeOn_of_unwritten (hr : marks.reachable.contains state.offset = true)
    (hunwritten : instruction.Stores → marks.necessary.contains state.offset = false)
    (hagree : marks.AgreeOn before.locals state.locals locals') :
    marks.AgreeOn step.frame.locals next.locals locals' := by
  obtain ⟨effect, pushed, he, -⟩ :=
    Context.execute_effect ha.settled.execute (h.faithful.fits _ _ ha.settled.listed)
  obtain ⟨top, rest, given, hstack, -, htop, -⟩ :=
    ha.splits (h.faithful.fits _ _ ha.settled.listed) he
  have hexecute := ha.execute
  rw [show state.toStore = ⟨top ++ rest, state.locals⟩ by rw [← hstack]] at hexecute
  obtain ⟨-, -, hlength, hsame⟩ := Machine.execute_splits he htop hexecute
  refine ⟨hagree.length.trans hlength.symm, fun i slot hslot hkept => ?_⟩
  rcases Context.producers_execute ha.settled.execute (h.faithful.fits _ _ ha.settled.listed)
    ha.execute ha.holds hslot with ⟨hi, hproducers⟩ | ⟨hi, old, hold, hproducers⟩
  · -- a variable that it writes
    have hnecessary := hkept state.offset (by
      rw [hproducers, h.faithful.elements_ofInstruction ha.settled.listed]
      exact List.mem_singleton_self _) hr
    have hstores : instruction.Stores := by
      by_contra hnot
      rw [Instruction.writes_of_not_stores hnot] at hi
      cases hi
    rw [hunwritten hstores] at hnecessary
    cases hnecessary
  · -- any other variable
    rw [hsame i hi]
    refine hagree.slot i old hold fun producer ho => hkept producer ?_
    rw [hproducers]
    exact ho

end Subject.Presence

end JvmTrim
