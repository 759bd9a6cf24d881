import JvmTrim.Proofs.PostFixpoint

/-!
# The frames of an evaluation

A closed evaluation may hold more than it has to; that its frames hold nothing but what executions
and joins put there is a fact about the iteration. `Evaluation.Arises` says of a frame that it stood
before an offset at some time: it is the frame at the entry, what an execution on such a frame
passes on, or a join. All these frames are covered by the frames that the evaluation ends with, so
one induction over `Evaluation.Arises` proves a property of every recorded frame and may use at each
step the heights of the final stacks.

## Main definitions

* `Evaluation.Arises`: a frame that stood before an offset
* `Evaluation.Took`: an edge that some execution followed
* `Evaluation.History`: where all of the record comes from

## Main results

* `history_of_evaluate`: the frames of an evaluation arise, and its edges were taken
-/

namespace JvmTrim

namespace Evaluation

/-- Whether a frame stood before an offset at some time of the iteration that `evaluation` is the
result of and that started with the frame `entry`. -/
inductive Arises (evaluation : Evaluation) (options : EvaluationOptions) (pool : ConstantPool)
    (handlers : List Handler) (entry : Frame) : Nat → Frame → Prop where
  | entry (hr : evaluation.Receives 0 entry) : Arises evaluation options pool handlers entry 0 entry
  | step {offset successor : Nat} {frame : Frame} {instruction : Instruction} {step : Step}
      (h : Arises evaluation options pool handlers entry offset frame)
      (hi : evaluation.instruction? offset = some instruction)
      (he : (options.context pool).execute offset (evaluation.nextOffset offset) instruction frame
        = .ok step)
      (hs : successor ∈ step.successors) (hr : evaluation.Receives successor step.frame) :
      Arises evaluation options pool handlers entry successor step.frame
  | handler {offset : Nat} {frame : Frame} {handler : Handler}
      (h : Arises evaluation options pool handlers entry offset frame)
      (hm : handler ∈ handlers) (hc : handler.covers offset = true)
      (hr : evaluation.Receives handler.target
        (handlerFrame options.detail handler.target frame.locals)) :
      Arises evaluation options pool handlers entry handler.target
        (handlerFrame options.detail handler.target frame.locals)
  | join {offset : Nat} {a b joined : Frame}
      (ha : Arises evaluation options pool handlers entry offset a)
      (hb : Arises evaluation options pool handlers entry offset b)
      (hj : a.joinAt offset b = .ok joined) (hr : evaluation.Receives offset joined) :
      Arises evaluation options pool handlers entry offset joined

variable {evaluation : Evaluation} {options : EvaluationOptions} {pool : ConstantPool}
  {handlers : List Handler} {entry : Frame} {offset : Nat} {frame : Frame}

theorem Arises.receives (h : evaluation.Arises options pool handlers entry offset frame) :
    evaluation.Receives offset frame := by
  cases h <;> assumption

/-- Whether an edge to a recorded offset comes from executing the instruction at `offset` on a frame
that arose, with a result that was passed on. -/
def Took (evaluation : Evaluation) (options : EvaluationOptions) (pool : ConstantPool)
    (handlers : List Handler) (entry : Frame) (offset recorded : Nat) : Prop :=
  ∃ frame instruction step successor, evaluation.Arises options pool handlers entry offset frame ∧
    evaluation.instruction? offset = some instruction ∧
    (options.context pool).execute offset (evaluation.nextOffset offset) instruction frame
      = .ok step ∧
    successor ∈ step.successors ∧ evaluation.Receives successor step.frame ∧
    recorded = recordedOffset successor

/-- Whether executing the instruction at `offset` on some frame calls an initializer. -/
def Initializes (evaluation : Evaluation) (options : EvaluationOptions) (pool : ConstantPool)
    (offset : Nat) : Prop :=
  ∃ frame instruction step receiver, evaluation.instruction? offset = some instruction ∧
    (options.context pool).execute offset (evaluation.nextOffset offset) instruction frame
      = .ok step ∧
    step.event = some (.initialization receiver)

end Evaluation

namespace Progress

variable {options : EvaluationOptions} {pool : ConstantPool} {method : Method}
  {handlers : List Handler} {entry : Frame} {evaluation : Evaluation}
  {progress progress' : Progress}

/-- Whether everything recorded so far belongs to the history of `evaluation`. -/
structure Recounts (evaluation : Evaluation) (options : EvaluationOptions) (pool : ConstantPool)
    (handlers : List Handler) (entry : Frame) (progress : Progress) : Prop where
  listing : evaluation.listing = progress.evaluation.listing
  frames : ∀ offset frame, progress.evaluation.before? offset = some frame →
    evaluation.Arises options pool handlers entry offset frame
  edges : ∀ offset recorded, progress.evaluation.Leads offset recorded →
    evaluation.Took options pool handlers entry offset recorded
  calls : ∀ call ∈ progress.evaluation.initializerCalls, evaluation.Initializes options pool call

/-- A visit adds nothing that is not part of the history. -/
theorem Visited.recounts {offset : Nat} {before : Frame} {instruction : Instruction} {step : Step}
    (h : Visited options pool handlers offset before instruction step progress progress')
    (hrecounts : progress.Recounts evaluation options pool handlers entry)
    (hlasts : ∀ o frame, progress'.evaluation.Receives o frame → evaluation.Receives o frame) :
    progress'.Recounts evaluation options pool handlers entry := by
  have hlisting : evaluation.listing = progress'.evaluation.listing :=
    hrecounts.listing.trans h.listing.symm
  have hi : evaluation.instruction? offset = some instruction := by
    rw [Evaluation.instruction?, hlisting, ← Evaluation.instruction?, h.settled.listed]
  have he : (options.context pool).execute offset (evaluation.nextOffset offset) instruction before
      = .ok step := by
    rw [Evaluation.nextOffset, hlisting, ← Evaluation.nextOffset, h.settled.execute]
  have hbefore := hrecounts.frames offset before h.recorded
  refine ⟨hlisting, h.frames _ ?_ ?_ ?_ hrecounts.frames, fun o recorded hl => ?_,
    fun call hc => ?_⟩
  · exact fun o a b joined ha hb hj hr => .join ha hb hj (hlasts o joined hr)
  · exact fun successor hs hr => .step hbefore hi he hs (hlasts _ _ hr)
  · exact fun handler hm hc hr => .handler hbefore hm hc (hlasts _ _ hr)
  · rcases h.edges o recorded hl with hold | ⟨rfl, successor, hs, ha, rfl⟩
    · exact hrecounts.edges o recorded hold
    · exact ⟨before, instruction, step, successor, hbefore, hi, he, hs,
        hlasts _ _ (h.settled.successors successor hs ha).2, rfl⟩
  · rcases h.calls call hc with hold | ⟨rfl, receiver, hevent⟩
    · exact hrecounts.calls call hold
    · exact ⟨before, instruction, step, receiver, hi, he, hevent⟩

/-- The iteration from a state whose record is part of its history. -/
theorem Iterates.recounts {bound : Nat} {last : Progress}
    (h : progress.Iterates options pool method handlers bound last)
    (hinv : progress.Invariant options pool handlers)
    (hrecounts : progress.Recounts last.evaluation options pool handlers entry) :
    last.Recounts last.evaluation options pool handlers entry := by
  induction h with
  | done => exact hrecounts
  | visit hpop hvisit hrest ih =>
    obtain ⟨before, instruction, step, hvisited⟩ := visit_spec hvisit
    have hinv' := hvisited.invariant (pending_of_popFirst? hpop) hinv
    obtain ⟨-, -, -, hlasts⟩ := hrest.spec hinv'
    refine ih hinv' (hvisited.recounts ?_ hlasts)
    exact ⟨hrecounts.listing, hrecounts.frames, hrecounts.edges, hrecounts.calls⟩

end Progress

/-! ## The frame at the entry -/

theorem storeParameters_producers {options : EvaluationOptions} {owner : String} {method : Method}
    {types : List FieldType} {slot : UInt16} {locals locals' : Locals}
    (h : storeParameters options owner method types slot locals = .ok locals')
    (hentry : ∀ found ∈ locals.slots, found.producers = OrderedSet.singleton .entry) :
    ∀ found ∈ locals'.slots, found.producers = OrderedSet.singleton .entry := by
  induction types generalizing slot locals with
  | nil =>
    cases h
    exact hentry
  | cons type rest ih =>
    obtain ⟨stored, hs, h⟩ := Except.bind_eq_ok.mp h
    exact ih h (Locals.forall_producers_store hs rfl hentry)

/-- The variables at the entry are what the entry produced. -/
theorem entryLocals_producers {options : EvaluationOptions} {owner : String} {method : Method}
    {maxLocals : UInt16} {locals : Locals}
    (h : entryLocals options owner method maxLocals = .ok locals) :
    ∀ found ∈ locals.slots, found.producers = OrderedSet.singleton .entry := by
  obtain ⟨descriptor, -, h⟩ := Except.bind_eq_ok.mp h
  have hblank : ∀ found ∈ (Locals.ofSize maxLocals.toNat).slots,
      found.producers = OrderedSet.singleton .entry := by
    intro found hf
    rw [(Array.mem_replicate.mp hf).2]
    rfl
  simp only at h
  split at h
  · exact storeParameters_producers h hblank
  · obtain ⟨received, hr, h⟩ := Except.bind_eq_ok.mp h
    exact storeParameters_producers h (Locals.forall_producers_store hr rfl hblank)

/-! ## The whole evaluation -/

/-- Where the record of an evaluation comes from: its frames arise from the frame `entry`, whose
stack is empty and whose variables the entry produced, and edges and calls of initializers were
recorded by executions. -/
structure Evaluation.History (evaluation : Evaluation) (options : EvaluationOptions)
    (pool : ConstantPool) (handlers : List Handler) (entry : Frame) : Prop where
  stack : entry.stack = Stack.empty
  locals : ∀ found ∈ entry.locals.slots, found.producers = OrderedSet.singleton .entry
  frames : ∀ offset frame, evaluation.before? offset = some frame →
    evaluation.Arises options pool handlers entry offset frame
  edges : ∀ offset recorded, evaluation.Leads offset recorded →
    evaluation.Took options pool handlers entry offset recorded
  calls : ∀ call ∈ evaluation.initializerCalls, evaluation.Initializes options pool call

/-- **Every evaluation has a history.** -/
theorem history_of_evaluate {options : EvaluationOptions} {pool : ConstantPool} {owner : String}
    {method : Method} {code : Code} {evaluation : Evaluation}
    (h : evaluate options pool owner method code = .ok evaluation) :
    ∃ entry, evaluation.History options pool code.handlers entry := by
  cases evaluates_of_evaluate h with
  | @blank listing _ _ =>
    refine ⟨⟨⟨#[]⟩, Stack.empty⟩, rfl, by simp, fun offset frame hf => ?_,
      fun offset recorded hl => ?_, fun call hc => by cases hc⟩
    · rw [Evaluation.before?_blank] at hf
      cases hf
    · exact absurd hl (Evaluation.not_leads_blank listing offset recorded)
  | @visits listing locals start last _ _ hlocals hstart hiterates =>
    obtain ⟨hgrows, hr⟩ := Progress.merge_spec (fun _ _ => False)
      (fun o f => o = 0 ∧ f = ⟨locals, Stack.empty⟩) ⟨rfl, rfl⟩ hstart
    have hinv := Progress.invariant_start options pool code.handlers hstart
    obtain ⟨-, -, hlist, hlasts⟩ := hiterates.spec hinv
    have hrecounts : start.Recounts last.evaluation options pool code.handlers
        ⟨locals, Stack.empty⟩ := by
      refine ⟨hlist, hgrows.frames _ ?_ ?_ ?_, fun offset recorded hl => ?_, fun call hc => ?_⟩
      · exact fun o a b joined ha hb hj hr => .join ha hb hj (hlasts o joined hr)
      · rintro o f ⟨rfl, rfl⟩ hreceives
        exact .entry (hlasts _ _ hreceives)
      · intro offset frame hf
        rw [Evaluation.before?_blank] at hf
        cases hf
      · exact absurd ((hgrows.edges offset recorded hl).resolve_right id)
          (Evaluation.not_leads_blank listing offset recorded)
      · rw [hgrows.calls] at hc
        cases hc
    have hlast := hiterates.recounts hinv hrecounts
    exact ⟨⟨locals, Stack.empty⟩, rfl, entryLocals_producers hlocals, hlast.frames, hlast.edges,
      hlast.calls⟩

end JvmTrim
