import JvmTrim.Proofs.Coarsening
import JvmTrim.Proofs.VariableCount

/-!
# The simple evaluation covers the precise one

A precise and a simple evaluation of one body follow the control flow in different orders and for
different numbers of rounds, so they are not compared round by round. The simple evaluation enters
only with its result, of which nothing is used but that it is closed: whatever execution makes of its
frames is covered by its frames. The precise evaluation is then followed visit by visit, and all that
it ever records stays within that result.

The one condition is about visits and not about what is recorded in the end. A one-word store that
finds a two-word value writes two variables. When the value has been merged with one of another kind
before the store is visited again, the record no longer shows a two-word value, but the producers of
the second variable stay. In `mergedStore` this happens, and its simple evaluation does not have these
producers.

## Main definitions

* `Progress.trail`, `visits`: the visits of an evaluation, with the frames that they execute on
* `Frame.BoundedBy`, `Evaluation.Within`: a precise record within a simple one

## Main results

* `Progress.Iterates.along`: what every visit keeps, an iteration keeps
* `Progress.Visited.within`: one visit
* `evaluate_simple_bounds`: the simple evaluation covers the precise one
* `not_boundedBy_mergedStore`: a condition on the recorded frames would not be enough
-/

namespace JvmTrim

/-! ## Visits -/

namespace Progress

/-- The visits of an iteration in their order, each with the frame that it executes its instruction
on. -/
def trail (options : EvaluationOptions) (pool : ConstantPool) (method : Method)
    (handlers : List Handler) : Nat → Progress → List (Nat × Frame)
  | 0, _ => []
  | bound + 1, progress =>
    match progress.pending.popFirst? with
    | none => []
    | some (offset, rest) =>
      (progress.evaluation.before? offset).toList.map (Prod.mk offset) ++
        match visit options pool method handlers offset { progress with pending := rest } with
        | .ok next => trail options pool method handlers bound next
        | .error _ => []

variable {options : EvaluationOptions} {pool : ConstantPool} {method : Method}
  {handlers : List Handler}

theorem trail_succ {bound offset : Nat} {rest : OffsetSet} {before : Frame}
    {progress visited : Progress} (hpop : progress.pending.popFirst? = some (offset, rest))
    (hv : visit options pool method handlers offset { progress with pending := rest } = .ok visited)
    (hbefore : progress.evaluation.before? offset = some before) :
    progress.trail options pool method handlers (bound + 1) =
      (offset, before) :: visited.trail options pool method handlers bound := by
  simp only [trail, hpop, hv, hbefore]
  rfl

/-- **What every visit keeps, an iteration keeps.** -/
theorem Iterates.along {motive : Evaluation → Prop} {bound : Nat} {progress last : Progress}
    (h : progress.Iterates options pool method handlers bound last)
    (hvisit : ∀ (old new : Progress) offset before instruction step,
      (offset, before) ∈ progress.trail options pool method handlers bound →
      Visited options pool handlers offset before instruction step old new →
      motive old.evaluation → motive new.evaluation)
    (hstart : motive progress.evaluation) : motive last.evaluation := by
  induction h with
  | done => exact hstart
  | @visit _ offset _ _ visited _ hpop hone _ ih =>
    obtain ⟨before, instruction, step, hspec⟩ := visit_spec hone
    rw [trail_succ hpop hone hspec.recorded] at hvisit
    refine ih (fun old new o f i s hmem => hvisit old new o f i s (List.mem_cons_of_mem _ hmem)) ?_
    exact hvisit _ visited offset before instruction step List.mem_cons_self hspec hstart

end Progress

/-- The visits of the evaluation of a body in their order, each with the frame that it executes its
instruction on. -/
def visits (options : EvaluationOptions) (pool : ConstantPool) (owner : String) (method : Method)
    (code : Code) : Except Failure (List (Nat × Frame)) := do
  let listing ← Listing.ofCode code.bytes
  if listing.size = 0 || !options.allows 0 then return []
  let start : Progress := ⟨.blank listing, OrderedSet.empty, Array.replicate listing.size 0⟩
  let locals ← entryLocals options owner method code.maxLocals
  let start ← start.merge 0 ⟨locals, Stack.empty⟩
  return start.trail options pool method code.handlers (listing.size * options.maxVisits + 1)

theorem visits_eq_ok {options : EvaluationOptions} {pool : ConstantPool} {owner : String}
    {method : Method} {code : Code} {listing : Listing} {locals : Locals} {start : Progress}
    (hlisting : Listing.ofCode code.bytes = .ok listing)
    (hsome : ¬ (decide (listing.size = 0) || !options.allows 0) = true)
    (hlocals : entryLocals options owner method code.maxLocals = .ok locals)
    (hstart : Progress.merge ⟨.blank listing, OrderedSet.empty, Array.replicate listing.size 0⟩ 0
      ⟨locals, Stack.empty⟩ = .ok start) :
    visits options pool owner method code = .ok (start.trail options pool method code.handlers
      (listing.size * options.maxVisits + 1)) := by
  rw [visits, hlisting]
  simp only [bind, Except.bind]
  rw [if_neg hsome, hlocals]
  simp only [hstart]
  rfl

/-- What is recorded of a body that is entered with a frame, before the first visit. -/
structure Evaluation.Entered (evaluation : Evaluation) (listing : Listing) (entry : Frame) :
    Prop where
  listing : evaluation.listing = listing
  before : ∀ offset frame, evaluation.before? offset = some frame → offset = 0 ∧ frame = entry
  after : ∀ offset, evaluation.after? offset = none
  traced : ∀ offset, evaluation.isTraced offset = false
  edges : ∀ offset successor, ¬ evaluation.Leads offset successor

theorem Progress.entered_of_merge {listing : Listing} {counts : Array Nat} {entry : Frame}
    {start : Progress} (h : merge ⟨.blank listing, OrderedSet.empty, counts⟩ 0 entry = .ok start) :
    start.evaluation.Entered listing entry := by
  obtain ⟨hgrows, -⟩ := merge_spec (fun _ _ => False) (fun _ _ => True) trivial h
  refine ⟨hgrows.listing, fun offset frame hf => ?_, fun offset => ?_, fun offset => ?_,
    fun offset successor hl => ?_⟩
  · rw [merge, Evaluation.before?_blank] at h
    obtain ⟨evaluation, hmodify, hstart⟩ := Except.bind_eq_ok.mp h
    cases hstart
    obtain ⟨-, rfl⟩ := Evaluation.modifySite_eq_ok hmodify
    simp only [Evaluation.before?, Evaluation.blank, Array.getElem?_modify,
      Array.getElem?_replicate] at hf
    by_cases hzero : 0 = offset
    · rw [if_pos hzero] at hf
      split at hf
      · cases hf
        exact ⟨hzero.symm, rfl⟩
      · cases hf
    · rw [if_neg hzero] at hf
      split at hf <;> cases hf
  · rw [hgrows.after, Evaluation.after?_blank]
  · rw [Evaluation.isTraced, hgrows.traced]
    simp [Evaluation.blank]
  · exact absurd ((hgrows.edges offset successor hl).resolve_right id)
      (Evaluation.not_leads_blank listing offset successor)

/-- **What holds at the entry and is kept by every visit** holds of an evaluation. -/
theorem evaluate_along {options : EvaluationOptions} {pool : ConstantPool} {owner : String}
    {method : Method} {code : Code} {evaluation : Evaluation} {motive : Evaluation → Prop}
    (hvisit : ∀ (old new : Progress) offset before instruction step made,
      visits options pool owner method code = .ok made → (offset, before) ∈ made →
      Progress.Visited options pool code.handlers offset before instruction step old new →
      motive old.evaluation → motive new.evaluation)
    (hblank : ∀ listing, Listing.ofCode code.bytes = .ok listing → motive (.blank listing))
    (hentry : ∀ listing locals entered, Listing.ofCode code.bytes = .ok listing →
      listing.size ≠ 0 → entryLocals options owner method code.maxLocals = .ok locals →
      Evaluation.Entered entered listing ⟨locals, Stack.empty⟩ → motive entered)
    (h : evaluate options pool owner method code = .ok evaluation) : motive evaluation := by
  cases evaluates_of_evaluate h with
  | blank hlisting => exact hblank _ hlisting
  | @visits listing locals _ _ hlisting hsome hlocals hstart hiterates =>
    refine hiterates.along (fun old new offset before instruction step hmem => ?_) ?_
    · exact hvisit old new offset before instruction step _
        (visits_eq_ok hlisting hsome hlocals hstart) hmem
    · refine hentry listing locals _ hlisting (fun hzero => ?_) hlocals
        (Progress.entered_of_merge hstart)
      simp [hzero] at hsome

/-! ## What all frames meet -/

/-- Conditions that no instruction breaks hold of every frame of an evaluation. -/
theorem meets_of_evaluate {options : EvaluationOptions} {pool : ConstantPool} {owner : String}
    {method : Method} {code : Code} {evaluation : Evaluation} {L : Locals → Prop} {V : Value → Prop}
    {O : OriginSet → Prop} (hinv : FrameInvariant L V O)
    (hhandlers : ∀ handler ∈ code.handlers, O (OrderedSet.singleton (.handler handler.target)))
    (hblank : L (Locals.ofSize code.maxLocals.toNat))
    (h : evaluate options pool owner method code = .ok evaluation) :
    ∀ offset frame, evaluation.before? offset = some frame → frame.Meets L V O := by
  refine evaluate_along (motive := fun evaluation => ∀ offset frame,
    evaluation.before? offset = some frame → frame.Meets L V O)
    (fun old new offset before instruction step made _ _ hv hold => hv.meets hinv hhandlers hold)
    (fun listing _ offset frame hf => ?_)
    (fun listing locals entered _ _ hlocals he offset frame hf => ?_) h
  · rw [Evaluation.before?_blank] at hf
    cases hf
  · obtain ⟨-, rfl⟩ := he.before offset frame hf
    exact ⟨hinv.entryLocals hblank hlocals, by simp [Stack.view_empty]⟩

/-- Every frame of an evaluation has as many variables as the method declares. -/
theorem size_locals_of_evaluate {options : EvaluationOptions} {pool : ConstantPool}
    {owner : String} {method : Method} {code : Code} {evaluation : Evaluation}
    (h : evaluate options pool owner method code = .ok evaluation) {offset : Nat} {frame : Frame}
    (hframe : evaluation.before? offset = some frame) :
    frame.locals.size = code.maxLocals.toNat :=
  (meets_of_evaluate (frameInvariant_size _) (fun _ _ => trivial) (size_ofSize _) h offset frame
    hframe).locals

/-! ## One visit -/

/-- Whether what a precise evaluation records is within what a simple one does. -/
structure Evaluation.Within (fine coarse : Evaluation) : Prop where
  frames : ∀ offset frame, fine.before? offset = some frame →
    ∃ above, coarse.before? offset = some above ∧ frame.Within above
  traced : ∀ offset, fine.isTraced offset = true → coarse.isTraced offset = true
  edges : ∀ offset successor, fine.Leads offset successor → coarse.Leads offset successor

variable {assumptions : Assumptions} {limit limit' : Nat} {pool : ConstantPool} {owner : String}
  {method : Method} {code : Code} {precise simple : Evaluation}

/-- The frames with which a handler is entered. -/
theorem Locals.Within.handlerFrame {fine coarse : Locals} (h : fine.Within coarse) (target : Nat) :
    (JvmTrim.handlerFrame .precise target fine).Within
      (JvmTrim.handlerFrame .simple target coarse) := by
  refine ⟨⟨?_, fun i a b ha hb => ?_⟩, ?_⟩
  · simpa [JvmTrim.handlerFrame, Locals.size, Locals.forget] using h.size_eq
  · obtain ⟨old, hold, rfl⟩ := Option.map_eq_some_iff.mp (Array.getElem?_map.symm.trans hb)
    have hbounded := (h.forget (.caught target)).slot i a old ha hold
    have hkept : old.value.withoutSymbol (.caught target) = old.value := by
      simp [Value.withoutSymbol, hbounded.value.plain.symbol?_eq_none]
    rwa [Slot.forget, hkept]
  · have hexception := @Context.withinOf_named .reference (.caught target) true true id
    simp only [JvmTrim.handlerFrame, Stack.view_push, Stack.view_empty, List.append_nil,
      pushedWords, hexception.isWide_eq]
    rw [Value.isWide_of_kind? hexception.2]
    exact .cons (.same hexception.1 _) .nil

/-! ## The entry -/

/-- The value of a parameter, in a precise and in a simple evaluation. -/
theorem withinOf_parameter (assumptions : Assumptions) (limit limit' : Nat) (owner : String)
    (method : Method) (slot : UInt16) (kind : Kind) (notNull : Bool) :
    Value.WithinOf kind
      (EvaluationOptions.parameter ⟨assumptions, .precise, none, limit⟩ owner method slot kind
        notNull)
      (EvaluationOptions.parameter ⟨assumptions, .simple, none, limit'⟩ owner method slot kind
        notNull) := by
  unfold EvaluationOptions.parameter
  rcases Context.supplied?_within kind (assumptions.parameter owner method slot) with
    ⟨ha, hb⟩ | ⟨a, b, ha, hb, hab⟩
  · simp only [ha, hb]
    exact Context.withinOf_named kind _ id
  · simp only [ha, hb]
    exact hab

theorem storeParameters_within {types : List FieldType} {slot : UInt16}
    {fine coarse fine' coarse' : Locals} (h : fine.Within coarse)
    (hfine : storeParameters ⟨assumptions, .precise, none, limit⟩ owner method types slot fine
      = .ok fine')
    (hcoarse : storeParameters ⟨assumptions, .simple, none, limit'⟩ owner method types slot coarse
      = .ok coarse') : fine'.Within coarse' := by
  induction types generalizing slot fine coarse with
  | nil =>
    cases hfine
    cases hcoarse
    exact h
  | cons type rest ih =>
    obtain ⟨stored, hs, hfine⟩ := Except.bind_eq_ok.mp hfine
    obtain ⟨stored', hs', hcoarse⟩ := Except.bind_eq_ok.mp hcoarse
    have hvalue := withinOf_parameter assumptions limit limit' owner method slot type.kind false
    exact ih (h.store hvalue.1.toWithin hvalue.isWide_eq hs hs') hfine hcoarse

theorem entryLocals_within {fine coarse : Locals}
    (hfine : entryLocals ⟨assumptions, .precise, none, limit⟩ owner method code.maxLocals
      = .ok fine)
    (hcoarse : entryLocals ⟨assumptions, .simple, none, limit'⟩ owner method code.maxLocals
      = .ok coarse) : fine.Within coarse := by
  obtain ⟨descriptor, hd, hfine⟩ := Except.bind_eq_ok.mp hfine
  obtain ⟨descriptor', hd', hcoarse⟩ := Except.bind_eq_ok.mp hcoarse
  cases hd.symm.trans hd'
  have hblank : (Locals.ofSize code.maxLocals.toNat).Within (.ofSize code.maxLocals.toNat) := by
    refine ⟨rfl, fun i a b ha hb => ?_⟩
    cases ha.symm.trans hb
    obtain ⟨-, rfl⟩ := Array.mem_replicate.mp (Array.mem_of_getElem? ha)
    exact .same Value.withinKind_top.toWithin _
  simp only at hfine hcoarse
  split at hfine
  · rename_i hstatic
    rw [if_pos hstatic] at hcoarse
    exact storeParameters_within hblank hfine hcoarse
  · rename_i hstatic
    rw [if_neg hstatic] at hcoarse
    obtain ⟨received, hr, hfine⟩ := Except.bind_eq_ok.mp hfine
    obtain ⟨received', hr', hcoarse⟩ := Except.bind_eq_ok.mp hcoarse
    have hvalue := withinOf_parameter assumptions limit limit' owner method 0 .reference true
    exact storeParameters_within (hblank.store hvalue.1.toWithin hvalue.isWide_eq hr hr') hfine
      hcoarse

/-- **A visit stays within a simple evaluation.** -/
theorem Progress.Visited.within {old new : Progress} {offset : Nat} {before : Frame}
    {instruction : Instruction} {step : Step}
    (h : Visited ⟨assumptions, .precise, none, limit⟩ pool code.handlers offset before instruction
      step old new)
    (hsimple : evaluate ⟨assumptions, .simple, none, limit'⟩ pool owner method code = .ok simple)
    (hlisting : old.evaluation.listing = simple.listing)
    (hroutine : instruction.usesSubroutine = false) (hsplits : instruction.splits before = false)
    (hwithin : old.evaluation.Within simple) : new.evaluation.Within simple := by
  obtain ⟨hclosed, -, -⟩ := closed_of_evaluate hsimple
  obtain ⟨above, habove, hbefore⟩ := hwithin.frames offset before h.recorded
  obtain ⟨instruction', step', hsettled⟩ := hclosed.settled offset above habove
  have hlisted : new.evaluation.listing = simple.listing := h.listing.trans hlisting
  have hsame : instruction = instruction' := by
    have hi := h.settled.listed
    rw [Evaluation.instruction?, hlisted, ← Evaluation.instruction?] at hi
    exact Option.some.inj (hi.symm.trans hsettled.listed)
  subst hsame
  have hexecute := h.settled.execute
  rw [Evaluation.nextOffset, hlisted, ← Evaluation.nextOffset] at hexecute
  obtain ⟨hstep, hsuccessors⟩ := Context.execute_within pool assumptions offset instruction hbefore
    hsplits hroutine hexecute hsettled.execute
  have hreceived {target : Nat} {fine coarse : Frame} (hfine : fine.Within coarse)
      (hreceives : simple.Receives target coarse)
      (hsize : coarse.locals.size = code.maxLocals.toNat) :
      ∃ above, simple.before? target = some above ∧ fine.Within above := by
    obtain ⟨received, hr, hc⟩ := hreceives
    exact ⟨received, hr, hfine.covers hc (by rw [hsize, size_locals_of_evaluate hsimple hr])⟩
  have hsize := size_locals_of_evaluate hsimple habove
  refine ⟨h.frames _ ?_ ?_ ?_ hwithin.frames, fun o ho => ?_, fun o s hl => ?_⟩
  · -- a join
    rintro o a b joined ⟨aboveA, ha, hwa⟩ ⟨aboveB, hb, hwb⟩ hj -
    cases ha.symm.trans hb
    exact ⟨aboveA, ha, hwa.join hwb hj⟩
  · -- a step
    intro successor hs _
    refine hreceived hstep (hsettled.successors successor (hsuccessors successor hs) rfl).2 ?_
    rw [Context.size_locals_execute _ offset hsettled.execute, hsize]
  · -- a handler
    intro handler hm hc _
    refine hreceived (hbefore.locals.handlerFrame handler.target)
      (hsettled.handlers handler hm hc rfl).2 ?_
    simpa [handlerFrame, Locals.size, Locals.forget] using hsize
  · rw [h.traced] at ho
    rcases Bool.or_eq_true_iff.mp ho with ho | ho
    · rw [of_decide_eq_true ho]
      exact hsettled.traced
    · exact hwithin.traced o ho
  · rcases h.edges o s hl with hold | ⟨rfl, successor, hs, -, rfl⟩
    · exact hwithin.edges o s hold
    · exact (hsettled.successors successor (hsuccessors successor hs) rfl).1

/-! ## The whole evaluation -/

/-- Whether a frame says less than another one, slot by slot: it has all producers that the other one
has, and what it calls not null is not null there. -/
structure Frame.BoundedBy (fine coarse : Frame) : Prop where
  height_eq : fine.stack.height = coarse.stack.height
  size_eq : fine.locals.size = coarse.locals.size
  slot : ∀ (i : Nat) (a b : Slot), fine.locals.slots[i]? = some a →
    coarse.locals.slots[i]? = some b →
      (∀ origin, a.producers.contains origin = true → b.producers.contains origin = true) ∧
        (b.value.isNotNull = true → a.value.isNotNull = true)
  word : ∀ (i : Nat) (a b : Slot), fine.stack.words[i]? = some a →
    coarse.stack.words[i]? = some b →
      (∀ origin, a.producers.contains origin = true → b.producers.contains origin = true) ∧
        (b.value.isNotNull = true → a.value.isNotNull = true)

theorem Frame.Within.boundedBy {fine coarse : Frame} (h : fine.Within coarse) :
    fine.BoundedBy coarse where
  height_eq := h.height_eq
  size_eq := h.locals.size_eq
  slot i a b ha hb := by
    have hbounded := h.locals.slot i a b ha hb
    exact ⟨hbounded.producers, hbounded.value.notNull⟩
  word i a b ha hb := by
    have hi : i < fine.stack.height := (Array.getElem?_eq_some_iff.mp ha).1
    rw [Stack.getElem?_words _ hi] at ha
    rw [Stack.getElem?_words _ (h.height_eq ▸ hi), ← h.height_eq] at hb
    have hbounded := rel_of_forall₂ h.stack ha hb
    exact ⟨hbounded.producers, hbounded.value.notNull⟩

/-- All that a precise evaluation records is within what the simple one does. -/
theorem within_of_evaluate
    (hprecise : evaluate ⟨assumptions, .precise, none, limit⟩ pool owner method code = .ok precise)
    (hsimple : evaluate ⟨assumptions, .simple, none, limit'⟩ pool owner method code = .ok simple)
    (havoids : precise.listing.avoidsSubroutines = true)
    (hwhole : ∀ made, visits ⟨assumptions, .precise, none, limit⟩ pool owner method code = .ok made →
      ∀ visit ∈ made, ∀ instruction, precise.instruction? visit.1 = some instruction →
        instruction.splits visit.2 = false) : precise.Within simple := by
  obtain ⟨-, hlisting, -⟩ := closed_of_evaluate hprecise
  obtain ⟨-, hlisting', hentered⟩ := closed_of_evaluate hsimple
  have hsame : precise.listing = simple.listing := Except.ok.inj (hlisting.symm.trans hlisting')
  have hread {listing : Listing} (h : Listing.ofCode code.bytes = .ok listing) :
      listing = simple.listing := Except.ok.inj (h.symm.trans hlisting')
  suffices hboth : precise.listing = simple.listing ∧ precise.Within simple from hboth.2
  refine evaluate_along (motive := fun evaluation => evaluation.listing = simple.listing ∧
    evaluation.Within simple) (fun old new offset before instruction step made hmade hmem hv hold =>
      ?_) (fun listing h => ?_) (fun listing locals entered h hsize hlocals he => ?_) hprecise
  · -- a visit
    have hlisted : new.evaluation.listing = simple.listing := hv.listing.trans hold.1
    have hi : precise.instruction? offset = some instruction := by
      rw [Evaluation.instruction?, hsame, ← hlisted, ← Evaluation.instruction?, hv.settled.listed]
    exact ⟨hlisted, hv.within hsimple hold.1
      (Listing.usesSubroutine_eq_false hlisting havoids hi)
      (hwhole made hmade (offset, before) hmem instruction hi) hold.2⟩
  · -- before the entry
    refine ⟨hread h, fun offset frame hf => ?_, fun offset ht => ?_, fun offset successor hl => ?_⟩
    · rw [Evaluation.before?_blank] at hf
      cases hf
    · simp [Evaluation.isTraced, Evaluation.blank] at ht
    · exact absurd hl (Evaluation.not_leads_blank listing offset successor)
  · -- the entry
    refine ⟨he.listing.trans (hread h), fun offset frame hf => ?_, fun offset ht => ?_,
      fun offset successor hl => absurd hl (he.edges offset successor)⟩
    · obtain ⟨rfl, rfl⟩ := he.before offset frame hf
      have hne : code.bytes ≠ [] := by
        intro hnil
        rw [Listing.size_of_ofCode h, hnil] at hsize
        exact hsize rfl
      obtain ⟨locals', hlocals', above, habove, hcovers⟩ := hentered hne rfl
      refine ⟨above, habove, Frame.Within.covers ⟨entryLocals_within hlocals hlocals', .nil⟩
        hcovers ?_⟩
      rw [size_locals_of_evaluate hsimple habove, size_entryLocals hlocals']
    · rw [he.traced] at ht
      cases ht

/-- **The simple evaluation covers the precise one.** Of a body without subroutines, let both
evaluations succeed, and let no one-word store find a two-word value at a visit of the precise one.
Every offset that the precise evaluation traces is then traced by the simple one, which leads at
least to the same targets and whose frame there says less. -/
theorem evaluate_simple_bounds
    (hprecise : evaluate ⟨assumptions, .precise, none, limit⟩ pool owner method code = .ok precise)
    (hsimple : evaluate ⟨assumptions, .simple, none, limit'⟩ pool owner method code = .ok simple)
    (havoids : precise.listing.avoidsSubroutines = true)
    (hwhole : ∀ made, visits ⟨assumptions, .precise, none, limit⟩ pool owner method code = .ok made →
      ∀ visit ∈ made, ∀ instruction, precise.instruction? visit.1 = some instruction →
        instruction.splits visit.2 = false)
    {offset : Nat} (htraced : precise.isTraced offset = true) :
    simple.isTraced offset = true ∧
      (∃ targets targets', precise.targets offset = .ok targets ∧
        simple.targets offset = .ok targets' ∧
        ∀ target ∈ targets.elements, target ∈ targets'.elements) ∧
      ∃ fine coarse, precise.before? offset = some fine ∧ simple.before? offset = some coarse ∧
        fine.BoundedBy coarse := by
  have hwithin := within_of_evaluate hprecise hsimple havoids hwhole
  obtain ⟨hclosed, -, -⟩ := closed_of_evaluate hprecise
  obtain ⟨fine, hfine⟩ := Option.isSome_iff_exists.mp (hclosed.traced offset htraced)
  obtain ⟨coarse, hcoarse, hframe⟩ := hwithin.frames offset fine hfine
  have hsite {evaluation : Evaluation} {frame : Frame}
      (hf : evaluation.before? offset = some frame) :
      ∃ targets, evaluation.targets offset = .ok targets := by
    obtain ⟨site, hs, -⟩ := Option.bind_eq_some_iff.mp hf
    exact ⟨site.targets, orFail_eq_ok.mpr (by rw [hs]; rfl)⟩
  obtain ⟨targets, ht⟩ := hsite hfine
  obtain ⟨targets', ht'⟩ := hsite hcoarse
  refine ⟨hwithin.traced offset htraced, ⟨targets, targets', ht, ht', fun target hm => ?_⟩,
    fine, coarse, hfine, hcoarse, hframe.boundedBy⟩
  have hleads := hwithin.edges offset target (Evaluation.leads_iff.mpr ⟨targets, ht, hm⟩)
  obtain ⟨found, hfound, hmem⟩ := Evaluation.leads_iff.mp hleads
  cases ht'.symm.trans hfound
  exact hmem

/-- A store behind a branch that is always taken, and an object that is tested for null. -/
def skippedStore : Code where
  maxStack := 1
  maxLocals := 2
  bytes := [0x03, 0x99, 0x00, 0x05, 0x1A, 0x3C, 0xBB, 0x00, 0x02, 0x4C, 0x2B, 0xC7, 0x00, 0x05,
    0x1A, 0x3B, 0xB1]
  handlers := []
  lines := []
  localRanges := []

/-- Only the simple evaluation sees the store before the object is created; neither sees the branch
on null taken. -/
theorem evaluate_simple_bounds_skippedStore : ∃ precise simple,
    evaluate (.precise .none) .empty "Stores" ⟨AccessFlags.static, "skip", "(I)V", none⟩
        skippedStore = .ok precise ∧
      evaluate (.simple .none none) .empty "Stores" ⟨AccessFlags.static, "skip", "(I)V", none⟩
        skippedStore = .ok simple ∧
      precise.isTraced 5 = false ∧ simple.isTraced 5 = true ∧ simple.isTraced 14 = false ∧
      simple.isTraced 6 = true ∧
      (∃ targets targets', precise.targets 6 = .ok targets ∧ simple.targets 6 = .ok targets' ∧
        ∀ target ∈ targets.elements, target ∈ targets'.elements) ∧
      ∃ fine coarse, precise.before? 6 = some fine ∧ simple.before? 6 = some coarse ∧
        fine.BoundedBy coarse := by
  have hchecks : ((evaluate (.precise .none) .empty "Stores"
      ⟨AccessFlags.static, "skip", "(I)V", none⟩ skippedStore).toOption.any fun precise =>
        (evaluate (.simple .none none) .empty "Stores"
          ⟨AccessFlags.static, "skip", "(I)V", none⟩ skippedStore).toOption.any fun simple =>
        precise.listing.avoidsSubroutines && precise.isTraced 6 && !precise.isTraced 5 &&
          simple.isTraced 5 && !simple.isTraced 14 &&
          (visits (.precise .none) .empty "Stores"
            ⟨AccessFlags.static, "skip", "(I)V", none⟩ skippedStore).toOption.all fun made =>
            made.all fun visit => (precise.instruction? visit.1).all fun instruction =>
              !instruction.splits visit.2) = true := by
    decide +kernel
  cases hprecise : evaluate (.precise .none) .empty "Stores"
      ⟨AccessFlags.static, "skip", "(I)V", none⟩ skippedStore with
  | error failure =>
    rw [hprecise] at hchecks
    cases hchecks
  | ok precise =>
    cases hsimple : evaluate (.simple .none none) .empty "Stores"
        ⟨AccessFlags.static, "skip", "(I)V", none⟩ skippedStore with
    | error failure =>
      rw [hprecise, hsimple] at hchecks
      cases hchecks
    | ok simple =>
      simp only [hprecise, hsimple, Except.toOption, Option.any_some, Bool.and_eq_true,
        Bool.not_eq_true'] at hchecks
      obtain ⟨⟨⟨⟨⟨havoids, htraced⟩, hskipped⟩, hseen⟩, hnull⟩, hwhole⟩ := hchecks
      refine ⟨precise, simple, rfl, rfl, hskipped, hseen, hnull,
        evaluate_simple_bounds hprecise hsimple havoids ?_ htraced⟩
      intro made hmade visit hmem instruction hi
      have hmade' : visits (.precise .none) .empty "Stores"
        ⟨AccessFlags.static, "skip", "(I)V", none⟩ skippedStore = .ok made := hmade
      rw [hmade'] at hwhole
      have hvisit := List.all_eq_true.mp hwhole visit hmem
      rw [hi] at hvisit
      simpa using hvisit

/-- A loop around a store that finds the words of a long at first, and of two ints when the loop has
come around. -/
def mergedStore : Code where
  maxStack := 2
  maxLocals := 4
  bytes := [0x03, 0x3C, 0x1B, 0x9A, 0x00, 0x07, 0x09, 0xA7, 0x00, 0x05, 0x03, 0x03, 0x3D, 0x57,
    0x84, 0x01, 0x01, 0xA7, 0xFF, 0xF1]
  handlers := []
  lines := []
  localRanges := []

/-- **The frames recorded in the end do not tell what a store has found.** None of them shows a
two-word value in front of a one-word store, yet the precise evaluation has the store among the
producers of the second variable. The simple one comes to the store only when the long has been
merged with the ints. -/
theorem not_boundedBy_mergedStore : ∃ precise simple fine coarse,
    evaluate (.precise .none) .empty "Stores" ⟨AccessFlags.static, "merge", "(I)V", none⟩
        mergedStore = .ok precise ∧
      evaluate (.simple .none none) .empty "Stores" ⟨AccessFlags.static, "merge", "(I)V", none⟩
        mergedStore = .ok simple ∧
      precise.listing.avoidsSubroutines = true ∧
      (∀ entry ∈ precise.instructions, ∀ before, precise.before? entry.1 = some before →
        entry.2.splits before = false) ∧
      precise.before? 13 = some fine ∧ simple.before? 13 = some coarse ∧
      ¬ fine.BoundedBy coarse := by
  obtain ⟨precise, hprecise, hchecks⟩ := Except.exists_ok_of_any (by decide +kernel :
    (evaluate (.precise .none) .empty "Stores" ⟨AccessFlags.static, "merge", "(I)V", none⟩
        mergedStore).toOption.any (fun precise =>
      precise.listing.avoidsSubroutines &&
        (precise.instructions.all fun entry => (precise.before? entry.1).all fun before =>
          !entry.2.splits before) &&
        (precise.before? 13).any fun fine => fine.locals.slots[3]?.any
          (·.producers.contains (.instruction 12))) = true)
  obtain ⟨simple, hsimple, hchecks'⟩ := Except.exists_ok_of_any (by decide +kernel :
    (evaluate (.simple .none none) .empty "Stores" ⟨AccessFlags.static, "merge", "(I)V", none⟩
        mergedStore).toOption.any (fun simple =>
      (simple.before? 13).any fun coarse => coarse.locals.slots[3]?.any
        (!·.producers.contains (.instruction 12))) = true)
  simp only [Bool.and_eq_true, List.all_eq_true, Option.any_eq_true] at hchecks hchecks'
  obtain ⟨⟨havoids, hwhole⟩, fine, hfine, a, ha, hrecorded⟩ := hchecks
  obtain ⟨coarse, hcoarse, b, hb, habsent⟩ := hchecks'
  refine ⟨precise, simple, fine, coarse, hprecise, hsimple, havoids, fun entry hmem before hb => ?_,
    hfine, hcoarse, fun hbounded => ?_⟩
  · have hentry := hwhole entry hmem
    rw [hb] at hentry
    simpa using hentry
  · rw [(hbounded.slot 3 a b ha hb).1 _ hrecorded] at habsent
    cases habsent

end JvmTrim
