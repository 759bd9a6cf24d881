import JvmTrim.Proofs.Overapproximation
import JvmTrim.Proofs.Reduced

/-!
# The calls that initialize objects

An object is initialized by calls of initializers, one on each path that it takes. The evaluation
records one call for each object creation: whenever a call is visited that is made on the object, it
replaces the call that was recorded before. A creation that is necessary keeps the recorded call, and
a call with side effects stays in any case. So nothing is missing where an object has a single call;
of several calls without side effects only the last one that is visited is sure to stay, and on the
other paths the object is left uninitialized.

## Main definitions

* `Instruction.constructed?`: the creation whose object a call initializes
* `Listing.constructs`: visits of calls that initialize the object of a creation

## Main results

* `initialization?_of_evaluate`: the recorded call is the one visited last
* `Subject.keepsInitializer_of_mark`: which calls stay for a necessary creation
* `keepsInitializer_forkedCalls`: a call that does not stay
-/

namespace JvmTrim

/-! ## The receiver of a call -/

/-- The offset of the creation whose object an instruction initializes: it calls an initializer, and
the receiver among the words that it takes is named after the creation. -/
def Instruction.constructed? (instruction : Instruction) (pool : ConstantPool) (stack : Stack) :
    Option Nat :=
  match instruction.member pool, instruction.stackEffect pool with
  | .ok member, .ok effect =>
    if instruction.operation = .invoke .special ∧ member.isInitializer ∧
        effect.pops ≤ stack.height then
      match (stack.get? (stack.height - effect.pops)).bind (·.value.symbol?) with
      | some (.instruction created) => some created
      | _ => none
    else none
  | _, _ => none

theorem Instruction.constructed?_eq_some {instruction : Instruction} {pool : ConstantPool}
    {stack : Stack} {created : Nat} :
    instruction.constructed? pool stack = some created ↔
      instruction.operation = .invoke .special ∧ ∃ member effect receiver,
        instruction.member pool = .ok member ∧ member.isInitializer = true ∧
        instruction.stackEffect pool = .ok effect ∧ effect.pops ≤ stack.height ∧
        stack.get? (stack.height - effect.pops) = some receiver ∧
        receiver.value.symbol? = some (.instruction created) := by
  constructor
  · intro h
    unfold constructed? at h
    split at h
    · rename_i member effect hmember heffect
      split at h
      · rename_i hcond
        obtain ⟨hop, hinit, hle⟩ := hcond
        split at h
        · rename_i symbol hsymbol
          cases h
          obtain ⟨receiver, hreceiver, hsymbol⟩ := Option.bind_eq_some_iff.mp hsymbol
          exact ⟨hop, member, effect, receiver, hmember, hinit, heffect, hle, hreceiver, hsymbol⟩
        · cases h
      · cases h
    · cases h
  · rintro ⟨hop, member, effect, receiver, hmember, hinit, heffect, hle, hreceiver, hsymbol⟩
    simp only [constructed?, hop, hmember, hinit, heffect, hle, hreceiver, hsymbol, and_self,
      if_true, Option.bind_some]

namespace Transfer

/-- Popping the parameters of a call leaves what lies below them. -/
theorem view_of_parameters {types : List FieldType} {frame frame' : Frame} {u : PUnit}
    (h : (types.forM fun type => do let _ ← pop type.size : Transfer PUnit) frame =
      .ok (u, frame')) :
    (types.map FieldType.size).sum ≤ frame.stack.height ∧
      frame'.stack.view = frame.stack.view.drop (types.map FieldType.size).sum := by
  induction types generalizing frame with
  | nil =>
    obtain ⟨rfl, rfl⟩ := StateT.pure_eq_ok.mp h
    exact ⟨Nat.zero_le _, rfl⟩
  | cons type rest ih =>
    have hbind : ((do let _ ← pop type.size : Transfer PUnit) >>= fun _ =>
        rest.forM fun type => do let _ ← pop type.size) frame = .ok (u, frame') := h
    obtain ⟨done, middle, hfirst, hrest⟩ := StateT.bind_eq_ok.mp hbind
    obtain ⟨value, popped, hpop, hend⟩ := StateT.bind_eq_ok.mp hfirst
    obtain ⟨rfl, rfl⟩ := StateT.pure_eq_ok.mp hend
    obtain ⟨hle, hview, -, -⟩ := pop_eq_ok hpop
    have hpos : 0 < type.size := type.kind.size_pos
    rw [Nat.max_eq_left hpos] at hview
    obtain ⟨hle', hview'⟩ := ih hrest
    have hheight : middle.stack.height = frame.stack.height - type.size := by
      rw [← Stack.length_view, hview, List.length_drop, Stack.length_view]
    rw [List.map_cons, List.sum_cons]
    exact ⟨by omega, by rw [hview', hview, List.drop_drop]⟩

end Transfer

namespace Context

variable {context : Context} {offset next created : Nat} {instruction : Instruction}
  {frame : Frame} {step : Step}

/-- **The receiver of an initializer** is the lowest word that its call takes, and what the call
tells. -/
theorem receiver_of_invoke {frame' : Frame} {event : Option Event} {member : MemberRef}
    {effect : StackEffect} (hop : instruction.operation = .invoke .special)
    (hmember : instruction.member context.pool = .ok member) (hinit : member.isInitializer = true)
    (heffect : instruction.stackEffect context.pool = .ok effect)
    (h : context.invoke offset .special instruction frame = .ok (event, frame')) :
    ∃ receiver, effect.pops ≤ frame.stack.height ∧
      frame.stack.get? (frame.stack.height - effect.pops) = some receiver ∧
      event = some (.initialization receiver.value.symbol?) := by
  obtain ⟨descriptor, found, popped, taken, hdescriptor, hfound, hparameters, htaken, -⟩ :=
    invoke_eq_ok h
  obtain ⟨hle, hview⟩ := Transfer.view_of_parameters hparameters
  obtain ⟨member', hmember', rfl⟩ := hfound (by decide)
  cases hmember.symm.trans hmember'
  obtain ⟨value, hreceiver, hevent⟩ :=
    (takeReceiver_eq_ok htaken).resolve_right fun hnone => by cases hnone.1
  rw [if_pos ⟨rfl, hinit⟩] at hevent
  obtain ⟨-, -, -, top, rest, htop, rfl⟩ := Transfer.pop_eq_ok hreceiver
  have hpops : effect.pops = descriptor.parameterSlots + 1 := by
    unfold Instruction.stackEffect at heffect
    simp only [hop, hdescriptor] at heffect
    cases heffect
    rfl
  rw [descriptor.sum_parameters] at hview hle
  have hheight : frame.stack.height = descriptor.parameterSlots + (rest.length + 1) := by
    have hlength := congrArg List.length hview
    rw [htop, List.length_cons, List.length_drop, Stack.length_view] at hlength
    omega
  refine ⟨top, by omega, ?_, hevent⟩
  rw [Stack.get?, Stack.getElem?_words _ (by omega)]
  have hindex : frame.stack.height - 1 - (frame.stack.height - effect.pops) =
      descriptor.parameterSlots + 0 := by omega
  rw [hindex, ← List.getElem?_drop, ← hview, htop, List.getElem?_cons_zero]

/-- **What is told of the creation of an object** is that the object is initialized. -/
theorem event_eq_initialization (h : context.execute offset next instruction frame = .ok step) :
    step.event = some (.initialization (some (.instruction created))) ↔
      instruction.constructed? context.pool frame.stack = some created := by
  rw [Instruction.constructed?_eq_some]
  constructor
  · intro hevent
    obtain ⟨member, hop, hmember, hinit⟩ := initializer_of_event h hevent
    have hinvoke := invoke_of_execute h hop
    obtain ⟨descriptor, _, _, _, hdescriptor, -⟩ := invoke_eq_ok hinvoke
    obtain ⟨effect, heffect⟩ : ∃ effect, instruction.stackEffect context.pool = .ok effect := by
      unfold Instruction.stackEffect
      simp only [hop, hdescriptor]
      exact ⟨_, rfl⟩
    obtain ⟨receiver, hle, hreceiver, htold⟩ :=
      receiver_of_invoke hop hmember hinit heffect hinvoke
    rw [hevent, Option.some.injEq, Event.initialization.injEq] at htold
    exact ⟨hop, member, effect, receiver, hmember, hinit, heffect, hle, hreceiver, htold.symm⟩
  · rintro ⟨hop, member, effect, receiver, hmember, hinit, heffect, hle, hreceiver, hsymbol⟩
    have hinvoke := invoke_of_execute h hop
    obtain ⟨found, -, hfound, htold⟩ := receiver_of_invoke hop hmember hinit heffect hinvoke
    cases hreceiver.symm.trans hfound
    rw [htold, hsymbol]

end Context

/-! ## Frames that cover less -/

/-- What a call initializes on a frame, it initializes on every frame that this one covers. -/
theorem Instruction.constructed?_of_covers {instruction : Instruction} {pool : ConstantPool}
    {above below : Frame} {created : Nat} (hcovers : above.Covers below)
    (h : instruction.constructed? pool above.stack = some created) :
    instruction.constructed? pool below.stack = some created := by
  rw [constructed?_eq_some] at h ⊢
  obtain ⟨hop, member, effect, receiver, hmember, hinit, heffect, hle, hreceiver, hsymbol⟩ := h
  rw [hcovers.height_eq] at hle hreceiver
  obtain ⟨word, hword, hslot⟩ := hcovers.word _ _ hreceiver
  exact ⟨hop, member, effect, word, hmember, hinit, heffect, hle, hword,
    ((Slot.covers_iff.mp hslot).1.symbol? hsymbol).1⟩

/-- The offset of the creation whose object the instruction at an offset initializes. -/
def Evaluation.constructed? (evaluation : Evaluation) (pool : ConstantPool) (offset : Nat) :
    Option Nat := do
  (← evaluation.instruction? offset).constructed? pool (← evaluation.stackBefore? offset)

/-! ## The recorded call -/

/-- Whether a visit is one of a call that initializes the object of a creation. -/
def Listing.constructs (listing : Listing) (pool : ConstantPool) (created : Nat)
    (visit : Nat × Frame) : Bool :=
  (listing.get? visit.1).any fun instruction =>
    instruction.constructed? pool visit.2.stack = some created

/-- The latest visit of a call that initializes the object of a creation. -/
def Listing.lastCall? (listing : Listing) (pool : ConstantPool) (created : Nat)
    (visits : List (Nat × Frame)) : Option Nat :=
  (visits.reverse.find? (listing.constructs pool created)).map (·.1)

/-- The first visit counts only if no later visit does. -/
theorem Listing.lastCall?_cons (listing : Listing) (pool : ConstantPool) (created : Nat)
    (visit : Nat × Frame) (visits : List (Nat × Frame)) :
    listing.lastCall? pool created (visit :: visits) =
      (listing.lastCall? pool created visits).or (listing.lastCall? pool created [visit]) := by
  rw [lastCall?, List.reverse_cons, List.find?_append, Option.map_or]
  rfl

namespace Progress

variable {options : EvaluationOptions} {pool : ConstantPool} {method : Method}
  {handlers : List Handler} {offset created : Nat} {progress progress' : Progress}

/-- A visit records its call if it is one on the object. -/
theorem Visited.initialization?_eq {before : Frame} {instruction : Instruction} {step : Step}
    (h : Visited options pool handlers offset before instruction step progress progress')
    (hnew : (progress.evaluation.instruction? created).map (·.operation) = some .newObject) :
    progress'.evaluation.initialization? created =
      (progress.evaluation.listing.lastCall? pool created [(offset, before)]).or
        (progress.evaluation.initialization? created) := by
  have hlisted : progress.evaluation.listing.get? offset = some instruction := by
    rw [← h.listing]
    exact h.settled.listed
  have hevent : step.event = some (.initialization (some (.instruction created))) ↔
      instruction.constructed? pool before.stack = some created :=
    Context.event_eq_initialization h.settled.execute
  rw [h.initializations, Listing.lastCall?, List.reverse_singleton]
  by_cases hcall : instruction.constructed? pool before.stack = some created
  · rw [if_pos ⟨hevent.mpr hcall, hnew⟩]
    simp [Listing.constructs, hlisted, hcall]
  · rw [if_neg fun hnot => hcall (hevent.mp hnot.1)]
    simp [Listing.constructs, hlisted, hcall]

/-- **An iteration records the latest call.** -/
theorem Iterates.initialization?_eq {bound : Nat} {last : Progress}
    (h : progress.Iterates options pool method handlers bound last)
    (hnew : (progress.evaluation.instruction? created).map (·.operation) = some .newObject) :
    last.evaluation.initialization? created = (progress.evaluation.listing.lastCall? pool created
      (progress.trail options pool method handlers bound)).or
        (progress.evaluation.initialization? created) := by
  induction h with
  | @done bound progress hpop => cases bound <;> simp [trail, hpop, Listing.lastCall?]
  | @visit _ _ _ progress visited _ hpop hvisit _ ih =>
    obtain ⟨before, instruction, step, hvisited⟩ := visit_spec hvisit
    have hlisting : visited.evaluation.listing = progress.evaluation.listing := hvisited.listing
    have hnew' : (visited.evaluation.instruction? created).map (·.operation) =
        some .newObject := by
      rwa [Evaluation.instruction?, hlisting]
    rw [trail_succ hpop hvisit hvisited.recorded, Listing.lastCall?_cons, ih hnew',
      hvisited.initialization?_eq hnew, hlisting, Option.or_assoc]

end Progress

section Evaluate

variable {options : EvaluationOptions} {pool : ConstantPool} {owner : String} {method : Method}
  {code : Code} {evaluation : Evaluation} {made : List (Nat × Frame)}

/-- **The call that an evaluation records** for a creation is the one that it visits last. -/
theorem initialization?_of_evaluate (h : evaluate options pool owner method code = .ok evaluation) :
    ∃ made, visits options pool owner method code = .ok made ∧ ∀ created,
      (evaluation.instruction? created).map (·.operation) = some .newObject →
        evaluation.initialization? created = evaluation.listing.lastCall? pool created made := by
  cases evaluates_of_evaluate h with
  | @blank listing hlisting hnone =>
    exact ⟨[], Except.bind_eq_ok.mpr ⟨listing, hlisting, if_pos hnone⟩, fun _ _ => rfl⟩
  | @visits _ _ start _ hlisting hsome hlocals hstart hiterates =>
    obtain ⟨hgrows, -⟩ := Progress.merge_spec (fun _ _ => False) (fun _ _ => True) trivial hstart
    obtain ⟨-, -, hlist, -⟩ :=
      hiterates.spec (Progress.invariant_start options pool code.handlers hstart)
    refine ⟨_, visits_eq_ok hlisting hsome hlocals hstart, fun created hnew => ?_⟩
    rw [Evaluation.instruction?, hlist] at hnew
    have hblank : start.evaluation.initialization? created = none := by
      rw [Evaluation.initialization?, hgrows.initializations]
      rfl
    rw [hiterates.initialization?_eq hnew, hblank, Option.or_none, hlist]

/-- Every offset with a frame is visited with a frame that this one covers. -/
theorem exists_visit_of_before? (h : evaluate options pool owner method code = .ok evaluation)
    (hmade : visits options pool owner method code = .ok made) {offset : Nat} {before : Frame}
    (hb : evaluation.before? offset = some before) :
    ∃ frame, (offset, frame) ∈ made ∧ before.Covers frame := by
  have halong : ∀ o, evaluation.isTraced o = true →
      ∃ frame, (o, frame) ∈ made ∧ evaluation.Receives o frame := by
    refine evaluate_along (motive := fun e => ∀ o, e.isTraced o = true →
      ∃ frame, (o, frame) ∈ made ∧ e.Receives o frame) ?_ ?_ ?_ h
    · intro old new o frame instruction step made' hmade' hmem hvisited hold o' ht
      cases hmade.symm.trans hmade'
      rw [hvisited.traced, Bool.or_eq_true, decide_eq_true_eq] at ht
      rcases ht with rfl | ht
      · exact ⟨frame, hmem, hvisited.receives _ _ ⟨frame, hvisited.recorded, frame.covers_refl⟩⟩
      · obtain ⟨frame', hmem', hr⟩ := hold o' ht
        exact ⟨frame', hmem', hvisited.receives _ _ hr⟩
    · intro listing _ o ht
      simp [Evaluation.isTraced, Evaluation.blank] at ht
    · intro listing locals entered _ _ _ hentered o ht
      rw [hentered.traced] at ht
      cases ht
  obtain ⟨instruction, step, hsettled⟩ := (closed_of_evaluate h).1.settled offset before hb
  obtain ⟨frame, hmem, before', hb', hcovers⟩ := halong offset hsettled.traced
  cases hb.symm.trans hb'
  exact ⟨frame, hmem, hcovers⟩

end Evaluate

/-! ## The calls that stay -/

theorem size_of_reductions {options : SimplifyOptions} {evaluation : Evaluation}
    {sideEffects : IndexSet} {found : Reductions}
    (h : reductions options evaluation sideEffects = .ok found) : found.size = evaluation.size := by
  refine foldlM_invariant (fun found : Reductions => found.size = evaluation.size) ?_ (by simp) h
  rintro found ⟨offset, instruction⟩ found' - hsize hstep
  dsimp only at hstep
  split at hstep
  · obtain ⟨reduced, -, hstep⟩ := Except.bind_eq_ok.mp hstep
    obtain ⟨-, -, hstep⟩ := Except.bind_eq_ok.mp hstep
    cases hstep
    simpa using hsize
  · cases hstep
    exact hsize

namespace Subject

variable {subject : Subject} {original final : Reductions} {marks : Marks}
  {options : EvaluationOptions} {simplify : SimplifyOptions}

/-- Calls with side effects stay wherever they are reachable. -/
theorem Marked.necessary_of_sideEffects {simple : Evaluation} {offset : Nat}
    {instruction : Instruction} {mode : Invocation}
    (h : subject.Marked original simple marks final) (hreduced : subject.ReducedBy simplify original)
    (hsize : original.size = subject.evaluation.size)
    (hlt : offset < subject.evaluation.size)
    (hi : subject.evaluation.instruction? offset = some instruction)
    (hop : instruction.operation = .invoke mode)
    (hr : marks.reachable.contains offset = true)
    (heffects : subject.sideEffects.contains offset = true) :
    marks.necessary.contains offset = true := by
  have hnone : original.at offset = .ok none := by
    rw [Reductions.at, orFail_eq_ok]
    obtain ⟨_ | reduction, hat⟩ : ∃ reduction, original[offset]? = some reduction :=
      ⟨_, Array.getElem?_eq_getElem (hsize ▸ hlt)⟩
    · exact hat
    · obtain ⟨_, hreduces⟩ := hreduced offset reduction hat
      exact absurd (hreduces.quiet.symm.trans heffects) Bool.false_ne_true
  refine h.roots offset hr ?_
  simp [isRoot, Subject.instruction, hi, gotoTarget?, hop, heffects, hnone, bind,
    Except.bind, pure, Except.pure, orDefect]

variable (subject) in
/-- **Which calls stay for a necessary creation.** Of the calls that initialize its object, those
with side effects stay and the one that the evaluation visits last; so a call stays if there is no
other. -/
theorem keepsInitializer_of_mark
    (hevaluate : evaluate options subject.pool subject.owner subject.method subject.code =
      .ok subject.evaluation)
    (hreductions : reductions simplify subject.evaluation subject.sideEffects = .ok original)
    (hmark : subject.mark original = .ok (marks, final)) {created call : Nat}
    (hnecessary : marks.necessary.contains created = true)
    (hnew : (subject.evaluation.instruction? created).map (·.operation) = some .newObject)
    (hunreduced : final[created]? = some none)
    (hreachable : marks.reachable.contains call = true)
    (hcall : subject.evaluation.constructed? subject.pool call = some created) :
    (subject.sideEffects.contains call = true → marks.necessary.contains call = true) ∧
      ∃ made last, visits options subject.pool subject.owner subject.method subject.code = .ok made ∧
        subject.evaluation.listing.lastCall? subject.pool created made = some last ∧
        (marks.reachable.contains last = true → marks.necessary.contains last = true) ∧
        ((∀ visit ∈ made, subject.evaluation.listing.constructs subject.pool created visit = true →
          visit.1 = call) → marks.necessary.contains call = true) := by
  obtain ⟨simple, hmarked⟩ := marked_of_mark hmark
  obtain ⟨made, hmade, hrecorded⟩ := initialization?_of_evaluate hevaluate
  have hlisting := (closed_of_evaluate hevaluate).2.1
  have hreduced : subject.ReducedBy simplify original := fun offset reduction hr =>
    reduced_of_reductions hlisting hreductions hr
  obtain ⟨creation, hcreation, hop⟩ := Option.map_eq_some_iff.mp hnew
  obtain ⟨calling, hcalling, hcall⟩ := Option.bind_eq_some_iff.mp hcall
  obtain ⟨stack, hstack, hcall⟩ := Option.bind_eq_some_iff.mp hcall
  obtain ⟨before, hbefore, rfl⟩ := Option.map_eq_some_iff.mp hstack
  obtain ⟨frame, hmem, hcovers⟩ := exists_visit_of_before? hevaluate hmade hbefore
  have hconstructs : subject.evaluation.listing.constructs subject.pool created (call, frame) =
      true := by
    have hget : subject.evaluation.listing.get? call = some calling := hcalling
    simp [Listing.constructs, hget, Instruction.constructed?_of_covers hcovers hcall]
  obtain ⟨⟨last, frame'⟩, hfind⟩ := Option.isSome_iff_exists.mp
    (List.find?_isSome.mpr ⟨_, List.mem_reverse.mpr hmem, hconstructs⟩)
  have hlast : subject.evaluation.listing.lastCall? subject.pool created made = some last := by
    rw [Listing.lastCall?, hfind, Option.map_some]
  have hstays (hr : marks.reachable.contains last = true) :
      marks.necessary.contains last = true := by
    have hshuffle : creation.isShuffle = false :=
      Instruction.isShuffle_eq_false fun move hmove => by simp [hop] at hmove
    refine hmarked.closed (.necessary created) (.necessary last) hnecessary
      (.initializer ⟨hcreation, hunreduced, hshuffle⟩ hop ?_ hr)
    rw [hrecorded created hnew, hlast]
  refine ⟨fun heffects => ?_, made, last, hmade, hlast, hstays, fun honly => ?_⟩
  · -- with an effect
    obtain ⟨hspecial, -⟩ := Instruction.constructed?_eq_some.mp hcall
    have hlt : call < subject.evaluation.size := by
      rw [Evaluation.size, Listing.size_of_ofCode hlisting]
      exact lt_of_decodeAll (Listing.ofCode_eq_ok hlisting).1 _
        ((Listing.get?_eq_some_iff hlisting).mp hcalling)
    exact hmarked.necessary_of_sideEffects hreduced (size_of_reductions hreductions) hlt hcalling
      hspecial hreachable heffects
  · -- the only call
    have heq : last = call := honly _ (List.mem_reverse.mp (List.mem_of_find?_eq_some hfind))
      (List.find?_some hfind)
    exact heq ▸ hstays (heq ▸ hreachable)

end Subject

/-- A method that creates an object, in a program that assumes of the constructor that it has no side
effects. -/
def constructing (descriptor : String) (bytes : List UInt8) : MethodContext where
  around := ⟨.empty, Settings.standard.assumePure "a/A" "<init>" descriptor, .empty⟩
  assumptions := Seeds.empty.assumptions
  owner := "a/B"
  method := ⟨AccessFlags.static, "m", "(I)La/A;", none⟩
  code := ⟨3, 1, bytes, [], [], []⟩

/-- The constants of its class. -/
def constructingPool (descriptor : String) : ConstantPool :=
  ⟨#[none, some (.utf8 "a/A"), some (.class 1), some (.utf8 "<init>"), some (.utf8 descriptor),
    some (.nameAndType 3 4), some (.methodref 2 5)]⟩

/-- The constructor is called with an argument. -/
def singleCall : MethodContext :=
  constructing "(I)V" [0xBB, 0, 2, 0x59, 0x1A, 0xB7, 0, 6, 0xB0]

/-- The constructor is called on either side of a branch. -/
def forkedCalls : MethodContext :=
  constructing "()V" [0xBB, 0, 2, 0x59, 0x1A, 0x99, 0, 9, 0xB7, 0, 6, 0xA7, 0, 6, 0xB7, 0, 6, 0xB0]

/-- The only call on an object stays, also where the receiver lies below an argument. -/
theorem keepsInitializer_singleCall : ∃ decision,
    singleCall.decide (constructingPool "(I)V") = .ok decision ∧
      decision.marks.necessary.contains 0 = true ∧
      decision.evaluation.constructed? (constructingPool "(I)V") 5 = some 0 ∧
      decision.marks.necessary.contains 5 = true := by
  obtain ⟨decision, hdecide, hchecks⟩ := Except.exists_ok_of_any
    (by decide +kernel : (singleCall.decide (constructingPool "(I)V")).toOption.any
      (fun decision => decision.marks.necessary.contains 0 &&
        decide ((decision.evaluation.instruction? 0).map (·.operation) = some .newObject) &&
        decide (decision.reductions[0]? = some none) && decision.marks.reachable.contains 5 &&
        decide (decision.evaluation.constructed? (constructingPool "(I)V") 5 = some 0) &&
        (visits singleCall.preciseOptions (constructingPool "(I)V") singleCall.owner
          singleCall.method singleCall.code).toOption.all fun made => made.all fun visit =>
            !decision.evaluation.listing.constructs (constructingPool "(I)V") 0 visit ||
              visit.1 == 5) = true)
  simp only [Bool.and_eq_true, decide_eq_true_eq] at hchecks
  obtain ⟨⟨⟨⟨⟨hnecessary, hnew⟩, hunreduced⟩, hreachable⟩, hcall⟩, honly⟩ := hchecks
  obtain ⟨sideEffects, original, hevaluate, -, hreductions, hmark⟩ :=
    MethodContext.exists_of_decide hdecide
  obtain ⟨-, made, last, hmade, -, -, hkeeps⟩ := Subject.keepsInitializer_of_mark
    (singleCall.subject (constructingPool "(I)V") decision.evaluation sideEffects)
    hevaluate hreductions hmark hnecessary hnew hunreduced hreachable hcall
  have hmade : visits singleCall.preciseOptions (constructingPool "(I)V") singleCall.owner
    singleCall.method singleCall.code = .ok made := hmade
  rw [hmade] at honly
  refine ⟨decision, hdecide, hnecessary, hcall, hkeeps fun visit hmem hconstructs => ?_⟩
  simpa [show decision.evaluation.listing.constructs (constructingPool "(I)V") 0 visit = true from
    hconstructs] using List.all_eq_true.mp honly visit hmem

/-- **Of two calls on an object,** one on either path, the one that is visited first does not
stay. -/
theorem keepsInitializer_forkedCalls : ∃ decision,
    forkedCalls.decide (constructingPool "()V") = .ok decision ∧
      decision.marks.necessary.contains 0 = true ∧
      (decision.evaluation.instruction? 0).map (·.operation) = some .newObject ∧
      decision.reductions[0]? = some none ∧ decision.marks.reachable.contains 8 = true ∧
      decision.evaluation.constructed? (constructingPool "()V") 8 = some 0 ∧
      decision.marks.necessary.contains 8 = false := by
  obtain ⟨decision, hdecide, hchecks⟩ := Except.exists_ok_of_any
    (by decide +kernel : (forkedCalls.decide (constructingPool "()V")).toOption.any
      (fun decision => decision.marks.necessary.contains 0 &&
        decide ((decision.evaluation.instruction? 0).map (·.operation) = some .newObject) &&
        decide (decision.reductions[0]? = some none) && decision.marks.reachable.contains 8 &&
        decide (decision.evaluation.constructed? (constructingPool "()V") 8 = some 0) &&
        !decision.marks.necessary.contains 8) = true)
  simp only [Bool.and_eq_true, decide_eq_true_eq, Bool.not_eq_true'] at hchecks
  obtain ⟨⟨⟨⟨⟨hnecessary, hnew⟩, hunreduced⟩, hreachable⟩, hcall⟩, hnot⟩ := hchecks
  exact ⟨decision, hdecide, hnecessary, hnew, hunreduced, hreachable, hcall, hnot⟩

end JvmTrim
