import JvmTrim.Proofs.Deletion

/-!
# Runs that never end

An instruction that is not necessary is deleted even if it is a branch. Control then continues behind
it and not where it jumps to. If it jumps forward, there is nothing left in between. If it jumps back,
and pops are left of it, the two paths differ; but then a run on which it jumps never ends. Neither
does one that enters a loop of which nothing is left and which has no way out.

Both are invariants of the run: it stays inside some stretch of code of which nothing is left. An
instruction that ends a run is never among what is deleted, since it has side effects.

## Main definitions

* `Machine.Quiet`, `Operation.ends`: what can end a run, and what cannot
* `Decision.Reached`: the states in which the run of a body may be

## Main results

* `MethodContext.Repairs.necessary_of_finished`: an instruction that ends a run stays as it is
* `MethodContext.Repairs.not_finishes_of_rewind`, `MethodContext.Repairs.not_finishes_of_loop`
-/

namespace JvmTrim

namespace Machine

variable {α β : Type} {pool : ConstantPool} {body : List (Nat × Instruction)} {state next : State}
  {outcome : Outcome} {instruction : Instruction} {store store' : Store}

/-- A run does not end if some invariant of its states excludes the end. -/
theorem not_finishes_of_invariant (invariant : State → Prop)
    (hstep : ∀ state next, invariant state → step pool body state = .ok next → invariant next)
    (hend : ∀ state outcome, invariant state → step pool body state ≠ .error (.finished outcome))
    (h : invariant state) : ¬ Finishes pool body state outcome := by
  rintro ⟨count, hrun⟩
  induction count generalizing state with
  | zero => cases hrun
  | succ count ih =>
    unfold run at hrun
    cases hs : step pool body state with
    | ok next =>
      rw [hs] at hrun
      exact ih (hstep state next h hs) hrun
    | error halt =>
      rw [hs] at hrun
      cases hrun
      exact hend state outcome h hs

/-- Whether a computation never ends a run. -/
def Quiet (x : Machine α) : Prop := ∀ store outcome, x store ≠ .error (.finished outcome)

theorem quiet_reject : Quiet (reject : Machine α) := fun _ _ h => by cases h

theorem quiet_pure (a : α) : Quiet (pure a : Machine α) := fun _ _ h => by cases h

theorem quiet_push (words : List Cell) : Quiet (push words) := fun _ _ h => by cases h

theorem quiet_popInt : Quiet popInt := by
  intro store outcome h
  unfold popInt at h
  split at h <;> cases h

theorem quiet_popLong : Quiet popLong := by
  intro store outcome h
  unfold popLong at h
  split at h <;> cases h

theorem quiet_readInt (slot : UInt16) : Quiet (readInt slot) := by
  intro store outcome h
  unfold readInt at h
  split at h <;> cases h

theorem quiet_readLong (slot : UInt16) : Quiet (readLong slot) := by
  intro store outcome h
  unfold readLong at h
  split at h <;> cases h

theorem quiet_write (slot : Nat) (word : Cell) : Quiet (write slot word) := by
  intro store outcome h
  unfold write at h
  split at h <;> cases h

theorem quiet_shuffle (move : Shuffle) : Quiet (shuffle move) := by
  intro store outcome h
  unfold shuffle at h
  split at h <;> cases h

theorem bind_eq_finished {x : Machine α} {f : α → Machine β}
    (h : (x >>= f) store = .error (.finished outcome)) :
    x store = .error (.finished outcome) ∨
      ∃ a store', x store = .ok (a, store') ∧ f a store' = .error (.finished outcome) := by
  change (x store >>= fun result => f result.1 result.2) = _ at h
  cases hx : x store with
  | ok result =>
    rw [hx] at h
    exact .inr ⟨result.1, result.2, rfl, h⟩
  | error halt =>
    rw [hx] at h
    cases h
    exact .inl rfl

theorem Quiet.bind {x : Machine α} {f : α → Machine β} (hx : Quiet x) (hf : ∀ a, Quiet (f a)) :
    Quiet (x >>= f) := by
  intro store outcome h
  rcases bind_eq_finished h with h | ⟨a, store', -, h⟩
  · exact hx store outcome h
  · exact hf a store' outcome h

theorem quiet_popInts {f : Int32 → Int32 → Machine α} (hf : ∀ b a, Quiet (f b a)) :
    Quiet (do
      let b ← popInt
      let a ← popInt
      f b a) :=
  quiet_popInt.bind fun b => quiet_popInt.bind fun a => hf b a

theorem quiet_popLongs {f : Int64 → Int64 → Machine α} (hf : ∀ b a, Quiet (f b a)) :
    Quiet (do
      let b ← popLong
      let a ← popLong
      f b a) :=
  quiet_popLong.bind fun b => quiet_popLong.bind fun a => hf b a

theorem arithmeticInt_eq_finished {operator : Arithmetic}
    (h : arithmeticInt operator store = .error (.finished outcome)) :
    (operator = .div ∨ operator = .rem) ∧ ∃ rest, store.stack = .int 0 :: rest := by
  rcases bind_eq_finished h with h | ⟨b, middle, hb, h⟩
  · exact absurd h (quiet_popInt store outcome)
  rcases bind_eq_finished h with h | ⟨a, last, -, h⟩
  · exact absurd h (quiet_popInt middle outcome)
  rw [popInt_eq_ok hb]
  cases operator with
  | div =>
    by_cases hzero : b = 0
    · exact ⟨.inl rfl, middle.stack, by rw [hzero]; rfl⟩
    · simp only [hzero, if_false] at h
      exact absurd h (quiet_push _ last outcome)
  | rem =>
    by_cases hzero : b = 0
    · exact ⟨.inr rfl, middle.stack, by rw [hzero]; rfl⟩
    · simp only [hzero, if_false] at h
      exact absurd h (quiet_push _ last outcome)
  | _ => exact absurd h (quiet_push _ last outcome)

end Machine

/-- Whether an operation may end a run: a return, or a division of ints. -/
def Operation.ends : Operation → Bool
  | .returnValue _ | .returnVoid | .arithmetic .div .int | .arithmetic .rem .int => true
  | _ => false

namespace Machine

variable {α β : Type} {pool : ConstantPool} {body : List (Nat × Instruction)} {state next : State}
  {outcome : Outcome} {instruction : Instruction} {store store' : Store}

theorem quiet_perform (h : instruction.operation.ends = false) :
    Quiet (perform pool instruction) := by
  unfold perform
  cases hop : instruction.operation with
  | nop => exact quiet_pure ()
  | load kind slot =>
    cases kind with
    | int => exact (quiet_readInt _).bind fun _ => quiet_push _
    | long => exact (quiet_readLong _).bind fun _ => quiet_push _
    | _ => exact quiet_reject
  | store kind slot =>
    cases kind with
    | int => exact quiet_popInt.bind fun _ => quiet_write _ _
    | long =>
      exact quiet_popLong.bind fun _ => (quiet_write _ _).bind fun _ => quiet_write _ _
    | _ => exact quiet_reject
  | shuffle move => exact quiet_shuffle move
  | pushInt value => exact quiet_push _
  | pushLong value => exact quiet_push _
  | pushImmediate =>
    cases instruction.operand with
    | byte value => exact quiet_push _
    | short value => exact quiet_push _
    | _ => exact quiet_reject
  | loadConstant wide =>
    simp only [loadConstant]
    split
    · split
      · exact quiet_push _
      · exact quiet_push _
      · exact quiet_reject
    · exact quiet_reject
  | increment =>
    cases instruction.operand with
    | increment slot delta => exact (quiet_readInt slot).bind fun _ => quiet_write _ _
    | _ => exact quiet_reject
  | arithmetic operator kind =>
    rw [hop] at h
    cases kind with
    | int =>
      intro store outcome hs
      rcases (arithmeticInt_eq_finished hs).1 with rfl | rfl <;> cases h
    | long =>
      refine quiet_popLongs fun _ _ => ?_
      cases operator <;> first | exact quiet_push _ | exact quiet_reject
    | _ => exact quiet_reject
  | shift operator kind =>
    cases kind with
    | int => exact quiet_popInts fun _ _ => quiet_push _
    | _ => exact quiet_reject
  | bitwise operator kind =>
    cases kind with
    | int => exact quiet_popInts fun _ _ => quiet_push _
    | long => exact quiet_popLongs fun _ _ => quiet_push _
  | negate kind =>
    cases kind with
    | int => exact quiet_popInt.bind fun _ => quiet_push _
    | _ => exact quiet_reject
  | convert source target =>
    cases source <;> cases target
    case int.long => exact quiet_popInt.bind fun _ => quiet_push _
    case long.int => exact quiet_popLong.bind fun _ => quiet_push _
    all_goals exact quiet_reject
  | compareLong => exact quiet_popLongs fun _ _ => quiet_push _
  | returnValue kind =>
    rw [hop] at h
    cases h
  | returnVoid =>
    rw [hop] at h
    cases h
  | _ => exact quiet_reject

theorem quiet_execute (h : instruction.operation.ends = false) :
    Quiet (execute pool instruction) := by
  unfold execute
  split
  · exact quiet_popInt.bind fun _ => quiet_pure _
  · exact quiet_popInts fun _ _ => quiet_pure _
  · exact quiet_pure _
  · exact quiet_popInt.bind fun _ => quiet_pure _
  · exact (quiet_perform h).bind fun _ => quiet_pure _

theorem ends_of_finished (h : execute pool instruction store = .error (.finished outcome)) :
    instruction.operation.ends = true := by
  by_contra hends
  exact quiet_execute (Bool.eq_false_iff.mpr hends) store outcome h

/-- A division that ends a run divides by zero. -/
theorem divides_of_finished {operator : Arithmetic}
    (hop : instruction.operation = .arithmetic operator .int)
    (h : execute pool instruction store = .error (.finished outcome)) :
    ∃ rest, store.stack = .int 0 :: rest := by
  unfold execute perform at h
  simp only [hop] at h
  rcases bind_eq_finished h with h | ⟨_, _, -, h⟩
  · exact (arithmeticInt_eq_finished h).2
  · cases h

theorem resolve_ne_finished {offset : Nat} {exit : Option Nat} :
    resolve instruction offset exit ≠ .error (.finished outcome) := by
  intro h
  cases exit with
  | none => cases h
  | some place =>
    simp only [resolve] at h
    split at h
    · split at h <;> cases h
    · cases h

theorem step_eq_finished (h : step pool body state = .error (.finished outcome)) :
    ∃ instruction, body.lookup state.offset = some instruction ∧
      execute pool instruction state.toStore = .error (.finished outcome) := by
  unfold step at h
  cases hlookup : body.lookup state.offset with
  | none =>
    rw [hlookup] at h
    cases h
  | some instruction =>
    rw [hlookup] at h
    refine ⟨instruction, rfl, ?_⟩
    cases hexecute : execute pool instruction state.toStore with
    | error halt =>
      simp only [hexecute] at h
      cases h
      rfl
    | ok result =>
      simp only [hexecute] at h
      change (resolve instruction state.offset result.1 >>= _) = _ at h
      cases hresolve : resolve instruction state.offset result.1 with
      | ok offset =>
        rw [hresolve] at h
        cases h
      | error halt =>
        rw [hresolve] at h
        cases h
        exact absurd hresolve resolve_ne_finished

end Machine

/-! ## Where a run ends -/

theorem Operation.cases_of_ends {operation : Operation} (h : operation.ends = true) :
    operation = .returnVoid ∨ (∃ kind, operation = .returnValue kind) ∨
      ∃ operator, (operator = .div ∨ operator = .rem) ∧ operation = .arithmetic operator .int := by
  unfold Operation.ends at h
  split at h
  · exact .inr (.inl ⟨_, rfl⟩)
  · exact .inl rfl
  · exact .inr (.inr ⟨_, .inl rfl, rfl⟩)
  · exact .inr (.inr ⟨_, .inr rfl, rfl⟩)
  · cases h

/-- Where a zero is on top of the stack, no other number is known to be there. -/
theorem Frame.Holds.int?_top {frame : Frame} {names : Naming} {store : Store} {number : Int32}
    {rest : List Cell} (h : frame.Holds names store) (hstack : store.stack = .int number :: rest)
    {known : Int32}
    (hknown : ((frame.stack.peek? 0).map (·.value)).bind (·.int?) = some known) :
    known = number := by
  obtain ⟨value, hvalue, hint⟩ := Option.bind_eq_some_iff.mp hknown
  obtain ⟨slot, hslot, rfl⟩ := Option.map_eq_some_iff.mp hvalue
  obtain ⟨hpos, htop⟩ := Stack.peek?_zero hslot
  have hvalue' : frame.value? (.word (frame.stack.height - 1)) = some slot.value :=
    congrArg (Option.map Slot.value) htop
  obtain ⟨word, hword, hholds⟩ := h.word? hvalue'
  have hheight := h.height_eq
  rw [hstack, List.length_cons] at hheight
  have hindex : store.word? (.word (frame.stack.height - 1)) = some (.int number) := by
    simp [Store.word?, hstack, ← hheight]
  cases hword.symm.trans hindex
  cases hv : slot.value with
  | int a =>
    rw [hv] at hint hholds
    cases a with
    | particular value =>
      cases hint
      exact hholds.symm
    | _ => cases hint
  | _ =>
    rw [hv] at hint
    cases hint

/-- **An instruction that ends a run has side effects.** -/
theorem Surroundings.hasSideEffects_of_finished {around : Surroundings} {owner : String}
    {pool : ConstantPool} {evaluation : Evaluation} {offset : Nat} {instruction : Instruction}
    {before : Frame} {names : Naming} {store : Store} {outcome : Outcome}
    (hconservative : around.settings.conservative = true)
    (hb : evaluation.before? offset = some before) (hholds : before.Holds names store)
    (h : Machine.execute pool instruction store = .error (.finished outcome)) :
    around.hasSideEffects owner pool evaluation offset instruction = .ok true := by
  unfold hasSideEffects
  rcases Operation.cases_of_ends (Machine.ends_of_finished h) with
    hop | ⟨kind, hop⟩ | ⟨operator, hdivides, hop⟩
  · simp only [hop]
    rfl
  · simp only [hop]
    rfl
  · obtain ⟨rest, hstack⟩ := Machine.divides_of_finished hop h
    have hthrows : mayThrow (.arithmetic operator .int)
        (((evaluation.stackBefore? offset).bind (·.peek? 0)).map (·.value)) = true := by
      have hbefore : evaluation.stackBefore? offset = some before.stack :=
        congrArg (Option.map Frame.stack) hb
      have hzero : ((((before.stack.peek? 0).map (·.value)).bind (·.int?)).any (· != 0)) = false := by
        rw [Bool.eq_false_iff, Ne, Option.any_eq_true]
        rintro ⟨known, hknown, hne⟩
        rw [hholds.int?_top hstack hknown] at hne
        exact absurd rfl (bne_iff_ne.mp hne)
      rw [hbefore, Option.bind_some]
      rcases hdivides with rfl | rfl <;> simp only [mayThrow, hzero, Bool.not_false]
    simp only [hop, hconservative, hthrows]
    rfl

theorem MethodContext.contains_sideEffects {context : MethodContext} {pool : ConstantPool}
    {evaluation : Evaluation} {sideEffects : IndexSet} {code : List UInt8} {offset : Nat}
    {instruction : Instruction} (hlisting : Listing.ofCode code = .ok evaluation.listing)
    (h : context.sideEffects pool evaluation = .ok sideEffects)
    (hi : evaluation.instruction? offset = some instruction)
    (ht : evaluation.isTraced offset = true)
    (heffect : context.around.hasSideEffects context.owner pool evaluation offset instruction =
      .ok true) : sideEffects.contains offset = true := by
  unfold MethodContext.sideEffects at h
  obtain ⟨first, last, hsplit⟩ := List.append_of_mem ((Listing.get?_eq_some_iff hlisting).mp hi)
  change evaluation.listing.instructions.foldlM _ _ = _ at h
  rw [hsplit, List.foldlM_append] at h
  obtain ⟨found, -, h⟩ := Except.bind_eq_ok.mp h
  rw [List.foldlM_cons] at h
  obtain ⟨found', hadd, h⟩ := Except.bind_eq_ok.mp h
  refine foldlM_invariant (fun found : IndexSet => found.contains offset = true) ?_ ?_ h
  · rintro found ⟨o, instruction⟩ found' - hcontains hstep
    dsimp only at hstep
    split at hstep
    · obtain ⟨effect, -, hstep⟩ := Except.bind_eq_ok.mp hstep
      split at hstep
      · rw [(IndexSet.add_eq_ok hstep).2.2, hcontains, Bool.or_true]
      · cases hstep
        exact hcontains
    · cases hstep
      exact hcontains
  · simp only [ht, if_true, heffect] at hadd
    rw [(IndexSet.add_eq_ok hadd).2.2, decide_eq_true rfl, Bool.true_or]

namespace MethodContext.Repairs

variable {context : MethodContext} {pool pool' : ConstantPool} {decision : Decision}
  {sideEffects : IndexSet} {entry before : Frame} {original : Reductions} {simple : Evaluation}
  {repair : RepairState} {live : IndexSet} {instruction : Instruction} {offset successor : Nat}
  {step : Step} {names : Naming} {store : Store} {outcome : Outcome}
  (h : context.Repairs pool pool' decision sideEffects entry original simple repair live)

include h

/-- Every reachable instruction that is no stack manipulation is looked up among the reductions. -/
theorem exists_reduction (hr : decision.marks.reachable.contains offset = true)
    (hi : decision.evaluation.instruction? offset = some instruction)
    (hnot : instruction.isShuffle = false) :
    ∃ reduction, decision.reductions[offset]? = some reduction := by
  obtain ⟨old, new, keeps, -, -, -, hemits, -⟩ := h.repaired offset instruction hi
  generalize (repair.edit.site offset).emitted instruction = code at hemits
  cases hemits with
  | unreachable hr' => exact absurd (hr'.symm.trans hr) Bool.false_ne_true
  | keptPop _ hs => exact absurd (hnot.symm.trans hs) Bool.false_ne_true
  | shuffle _ hs => exact absurd (hnot.symm.trans hs) Bool.false_ne_true
  | stays hhandles => exact ⟨_, hhandles.reduction⟩
  | call hhandles => exact ⟨_, hhandles.reduction⟩
  | discards hhandles => exact ⟨_, hhandles.reduction⟩
  | keeps hhandles => exact ⟨_, hhandles.reduction⟩
  | constant hhandles => exact ⟨_, hhandles.reduction⟩
  | «alias» hhandles => exact ⟨_, hhandles.reduction⟩
  | goto hhandles => exact ⟨_, hhandles.reduction⟩
  | loop hhandles => exact ⟨_, hhandles.reduction⟩
  | drop hhandles => exact ⟨_, hhandles.reduction⟩
  | unnecessary hhandles => exact ⟨_, hhandles.reduction⟩

/-- **An instruction that ends a run stays as it is.** -/
theorem necessary_of_finished (hconservative : context.around.settings.conservative = true)
    (hr : decision.marks.reachable.contains offset = true)
    (hi : decision.evaluation.instruction? offset = some instruction)
    (hb : decision.evaluation.before? offset = some before) (hholds : before.Holds names store)
    (hfinished : Machine.execute pool instruction store = .error (.finished outcome)) :
    decision.marks.necessary.contains offset = true ∧
      decision.reductions[offset]? = some none ∧ instruction.isShuffle = false := by
  have heffect : context.around.hasSideEffects context.owner pool decision.evaluation offset
      instruction = .ok true :=
    Surroundings.hasSideEffects_of_finished hconservative hb hholds hfinished
  have hcontains := contains_sideEffects h.faithful.listing h.effects hi
    (h.presence.marked.reaches.traced offset hr) heffect
  have hcases := Operation.cases_of_ends (Machine.ends_of_finished hfinished)
  have hnot : instruction.isShuffle = false := by
    unfold Instruction.isShuffle Instruction.shuffle?
    rcases hcases with hop | ⟨kind, hop⟩ | ⟨operator, -, hop⟩ <;> simp only [hop] <;> rfl
  have hjump : instruction.operation ≠ .jump := by
    rcases hcases with hop | ⟨kind, hop⟩ | ⟨operator, -, hop⟩ <;> rw [hop] <;> nofun
  obtain ⟨reduction, hreduction⟩ := h.exists_reduction hr hi hnot
  have hbackward {head : Nat} : (context.subject pool decision.evaluation sideEffects).backwardGoto?
      none offset ≠ .ok (some head) :=
    fun hgoto => hjump (Subject.quiet_of_jump hi hgoto).1
  have horiginal : original[offset]? = some none := by
    have hsome : ∃ reduction, original[offset]? = some reduction := by
      rcases h.presence.marked.loops offset with heq | ⟨-, reduction, -, horiginal, -⟩
      · exact ⟨reduction, heq.symm.trans hreduction⟩
      · exact ⟨reduction, horiginal⟩
    obtain ⟨_ | reduction, horiginal⟩ := hsome
    · exact horiginal
    · obtain ⟨_, hreduces⟩ := h.reduced offset reduction horiginal
      exact absurd (hreduces.quiet.symm.trans hcontains) Bool.false_ne_true
  refine ⟨h.presence.marked.roots offset hr ?_, ?_, hnot⟩
  · have hinstruction : (context.subject pool decision.evaluation sideEffects).instruction offset =
        .ok instruction := (orDefect_eq_ok ..).mpr hi
    have hat : original.at offset = .ok none := (orFail_eq_ok ..).mpr horiginal
    have heffects : (context.subject pool decision.evaluation sideEffects).sideEffects.contains
        offset = true := hcontains
    simp only [Subject.isRoot, Subject.gotoTarget?, hinstruction, hjump, heffects, hat, bind,
      Except.bind, pure, Except.pure, if_false, if_true, reduceCtorEq, Option.isNone_none]
  · rcases h.presence.marked.loops offset with heq | ⟨-, reduction, head, heq, hgoto, -⟩
    · exact heq.trans horiginal
    · cases horiginal.symm.trans heq
      exact absurd hgoto hbackward

end MethodContext.Repairs

/-! ## Where control goes -/

theorem Machine.branches_of_exit {pool : ConstantPool} {instruction : Instruction} {place : Nat}
    {store store' : Store} (h : execute pool instruction store = .ok (some place, store')) :
    instruction.flow = .conditional ∨ instruction.flow = .unconditional ∨
      instruction.flow = .switch := by
  unfold execute at h
  unfold Instruction.flow
  cases hop : instruction.operation
  case branchZero | branchInt => exact .inl rfl
  case jump => exact .inr (.inl rfl)
  case switch => exact .inr (.inr rfl)
  all_goals
    simp only [hop] at h
    obtain ⟨_, middle, -, hend⟩ := StateT.bind_eq_ok.mp h
    cases (StateT.pure_eq_ok.mp hend).1

/-- Whether a state is one in which the run of a body may be. -/
def Decision.Reached (decision : Decision) (state : Machine.State) : Prop :=
  decision.marks.reachable.contains state.offset = true ∧
    ∃ before names, decision.evaluation.before? state.offset = some before ∧
      before.Holds names state.toStore

/-- Without an exit, control continues with the next instruction. -/
theorem Evaluation.Advances.nextOffset_eq {evaluation : Evaluation} {options : EvaluationOptions}
    {pool : ConstantPool} {handlers : List Handler} {state next : Machine.State} {before : Frame}
    {instruction : Instruction} {step : Step} {names names' : Naming}
    (ha : evaluation.Advances options pool handlers state next before instruction step none names
      names') : next.offset = evaluation.nextOffset state.offset := by
  have hnext : evaluation.nextOffset state.offset =
      state.offset + instruction.length state.offset := Listing.nextOffset_of_get? ha.settled.listed
  rw [hnext]
  exact (Except.ok.inj ha.resolve).symm

theorem Evaluation.Advances.branches {evaluation : Evaluation} {options : EvaluationOptions}
    {pool : ConstantPool} {handlers : List Handler} {state next : Machine.State} {before : Frame}
    {instruction : Instruction} {step : Step} {exit : Option Nat} {names names' : Naming}
    (ha : evaluation.Advances options pool handlers state next before instruction step exit names
      names') :
    next.offset = evaluation.nextOffset state.offset ∨ instruction.flow = .conditional ∨
      instruction.flow = .unconditional ∨ instruction.flow = .switch := by
  cases exit with
  | none => exact .inl ha.nextOffset_eq
  | some place => exact .inr (Machine.branches_of_exit ha.execute)

namespace MethodContext.Decided

variable {context : MethodContext} {pool : ConstantPool} {decision : Decision}
  {sideEffects : IndexSet} {entry before : Frame} {original : Reductions} {simple : Evaluation}
  {instruction : Instruction} {step : Step} {exit : Option Nat} {names names' : Naming}
  {state next : Machine.State}
  (h : context.Decided pool decision sideEffects entry original simple)

include h

/-- A step leads from one reached state to another. -/
theorem advances_of_step (hreached : decision.Reached state)
    (hstep : Machine.step pool decision.evaluation.instructions state = .ok next) :
    decision.Reached next ∧ ∃ before instruction step exit names names',
      decision.evaluation.Advances context.preciseOptions pool context.code.handlers state next
        before instruction step exit names names' := by
  obtain ⟨hr, before, names, hb, hholds⟩ := hreached
  obtain ⟨instruction, step, exit, names', ha⟩ := Evaluation.exists_advances hb hholds
    h.faithful.closed rfl rfl h.faithful.listing hstep
  obtain ⟨after, hafter, hcovers⟩ := ha.receives
  refine ⟨⟨?_, after, names', hafter, hcovers.holds ha.holds_after⟩, before, instruction, step,
    exit, names, names', ha⟩
  have hleads := ha.leads
  rw [recordedOffset_of_lt (h.faithful.lt_of_receives ha.receives)] at hleads
  obtain ⟨_, _, hsettled⟩ := h.faithful.closed.settled _ _ hafter
  exact (h.presence.marked.reaches.leads state.offset next.offset hr hleads
    hsettled.traced).resolve_right (List.not_mem_nil)

theorem leads (ha : decision.evaluation.Advances context.preciseOptions pool context.code.handlers
    state next before instruction step exit names names') :
    decision.evaluation.Leads state.offset next.offset := by
  have hleads := ha.leads
  rwa [recordedOffset_of_lt (h.faithful.lt_of_receives ha.receives)] at hleads

/-- Control continues at one of the targets of the reduced instruction. -/
theorem mem_reducedTargets {reduction : Option Reduction} {targets : List Nat}
    (ha : decision.evaluation.Advances context.preciseOptions pool context.code.handlers state next
      before instruction step exit names names')
    (horiginal : original[state.offset]? = some reduction)
    (ht : (context.subject pool decision.evaluation sideEffects).reducedTargets reduction
      state.offset = .ok targets) : next.offset ∈ targets := by
  have hany {targets : List Nat} (ht : (decision.evaluation.targets state.offset >>= fun set =>
      (pure set.elements : Except Failure (List Nat))) = .ok targets) : next.offset ∈ targets := by
    obtain ⟨set, hset, hmem⟩ := Evaluation.leads_iff.mp (h.leads ha)
    obtain ⟨set', hset', ht⟩ := Except.bind_eq_ok.mp ht
    cases hset.symm.trans hset'
    cases ht
    exact hmem
  cases reduction with
  | none => exact hany ht
  | some reduction =>
    have hoffset := h.ruled.eq_of_reduced (h.leads ha) horiginal
    cases reduction with
    | constant => exact hany ht
    | «alias» => exact hany ht
    | goto target =>
      cases ht
      rcases hoffset with hgoto | ⟨-, hne⟩
      · cases hgoto
        exact List.mem_singleton_self _
      · exact absurd rfl (hne target)
    | drop =>
      cases ht
      rcases hoffset with hgoto | ⟨hnext, -⟩
      · cases hgoto
      · exact List.mem_singleton.mpr hnext
    | loop => exact absurd horiginal (h.ruled.ne_loop state.offset)

end MethodContext.Decided

namespace MethodContext.Repairs

variable {context : MethodContext} {pool pool' : ConstantPool} {decision : Decision}
  {sideEffects : IndexSet} {entry before : Frame} {original : Reductions} {simple : Evaluation}
  {repair : RepairState} {live : IndexSet} {instruction : Instruction} {offset successor : Nat}
  {step : Step} {exit : Option Nat} {names names' : Naming} {state next : Machine.State}
  {outcome : Outcome}
  (h : context.Repairs pool pool' decision sideEffects entry original simple repair live)

include h

/-- **A branch back that leaves only pops in its place closes a loop that never ends.** Nothing is
left of the code that it jumps over, and the words that it takes are present where it stands but not
where it jumps to. So no path through that code comes back to the branch. -/
theorem not_finishes_of_rewind (hconservative : context.around.settings.conservative = true)
    {last : Nat} {closing : Instruction}
    (hlast : decision.evaluation.instruction? last = some closing)
    (hlive : live.contains last = true) (hreached : decision.Reached state)
    (hlt : state.offset < last)
    (hdead : ∀ o, state.offset ≤ o → o < last → live.contains o = false)
    (hcount : decision.presentBefore? state.offset ≠ decision.presentBefore? last) :
    ¬ Machine.Finishes pool decision.evaluation.instructions state outcome := by
  refine Machine.not_finishes_of_invariant (fun state => decision.Reached state ∧
    state.offset < last ∧ (∀ o, state.offset ≤ o → o < last → live.contains o = false) ∧
    decision.presentBefore? state.offset ≠ decision.presentBefore? last) ?_ ?_
    ⟨hreached, hlt, hdead, hcount⟩
  · rintro state next ⟨hreached, hlt, hdead, hcount⟩ hstep
    obtain ⟨hreached', before, instruction, step, exit, names, names', ha⟩ :=
      h.advances_of_step hreached hstep
    have hhere := hdead state.offset (Nat.le_refl _) hlt
    have hsame := h.presentBefore?_eq hhere hreached.1 hreached'.1 (h.leads ha)
    rw [hsame] at hcount
    have hne : next.offset ≠ last := fun heq => hcount (by rw [heq])
    have hbehind : state.offset < decision.evaluation.nextOffset state.offset :=
      Listing.lt_nextOffset ha.settled.listed
    have hle : decision.evaluation.nextOffset state.offset ≤ last :=
      Listing.nextOffset_le h.faithful.listing (Option.isSome_of_eq_some ha.settled.listed)
        (Option.isSome_of_eq_some hlast) hlt
    rcases h.carried.dead_of_unnecessary hreached.1 (h.carried.not_necessary_of_dead hhere)
      ha.settled.listed ha.branches (h.leads ha) with ⟨hge, hover⟩ | ⟨hle, hback⟩
    · have hin : next.offset < last := by
        by_contra hnot
        rw [hover last (by omega) (by omega)] at hlive
        cases hlive
      exact ⟨hreached', hin, fun o hge ho => hdead o (by omega) ho, hcount⟩
    · refine ⟨hreached', by omega, fun o hge ho => ?_, hcount⟩
      by_cases hbefore : o < state.offset
      · exact hback o hge hbefore
      · exact hdead o (by omega) ho
  · rintro state outcome ⟨⟨hr, before, names, hb, hholds⟩, hlt, hdead, -⟩ hstep
    obtain ⟨instruction, hlookup, hfinished⟩ := Machine.step_eq_finished hstep
    have hi := Evaluation.instruction?_of_lookup h.faithful.listing hlookup
    obtain ⟨hn, -⟩ := h.necessary_of_finished hconservative hr hi hb hholds hfinished
    have hunnecessary := h.carried.not_necessary_of_dead (hdead state.offset (Nat.le_refl _) hlt)
    exact absurd (hunnecessary.symm.trans hn) Bool.false_ne_true

/-- **A loop without a way out of which nothing is left never ends.** -/
theorem not_finishes_of_loop (hconservative : context.around.settings.conservative = true)
    {head last : Nat} {reduction : Option Reduction}
    (hloop : decision.reductions[last]? = some (some .loop))
    (horiginal : original[last]? = some reduction)
    (hgoto : (context.subject pool decision.evaluation sideEffects).backwardGoto? reduction last =
      .ok (some head))
    (htraps : (context.subject pool decision.evaluation sideEffects).Traps original
      decision.marks.reachable head last)
    (hdead : ∀ o, head ≤ o → o < last → live.contains o = false)
    (hreached : decision.Reached state) (hge : head ≤ state.offset) (hle : state.offset ≤ last) :
    ¬ Machine.Finishes pool decision.evaluation.instructions state outcome := by
  refine Machine.not_finishes_of_invariant (fun state => decision.Reached state ∧
    head ≤ state.offset ∧ state.offset ≤ last) ?_ ?_ ⟨hreached, hge, hle⟩
  · rintro state next ⟨hreached, hge, hle⟩ hstep
    obtain ⟨hreached', before, instruction, step, exit, names, names', ha⟩ :=
      h.advances_of_step hreached hstep
    refine ⟨hreached', ?_⟩
    rcases Nat.lt_or_eq_of_le hle with hlt | heq
    · obtain ⟨_, reduction', targets, -, -, -, hreduction, htargets, hinside⟩ :=
        htraps state.offset hreached.1 hge hlt
      exact hinside next.offset (h.mem_reducedTargets ha hreduction htargets)
    · subst heq
      rw [h.ruled.eq_of_backwardGoto? (h.leads ha) horiginal hgoto]
      exact ⟨Nat.le_refl _, (Subject.backwardGoto?_eq_some hgoto).1⟩
  · rintro state outcome ⟨⟨hr, before, names, hb, hholds⟩, hge, hle⟩ hstep
    obtain ⟨instruction, hlookup, hfinished⟩ := Machine.step_eq_finished hstep
    have hi := Evaluation.instruction?_of_lookup h.faithful.listing hlookup
    obtain ⟨hn, hnone, -⟩ := h.necessary_of_finished hconservative hr hi hb hholds hfinished
    rcases Nat.lt_or_eq_of_le hle with hlt | heq
    · have hunnecessary := h.carried.not_necessary_of_dead (hdead state.offset hge hlt)
      exact absurd (hunnecessary.symm.trans hn) Bool.false_ne_true
    · rw [heq] at hnone
      cases hloop.symm.trans hnone

end MethodContext.Repairs

end JvmTrim
