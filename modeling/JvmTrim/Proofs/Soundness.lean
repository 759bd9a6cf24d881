import JvmTrim.Proofs.TransferSound

/-!
# What a precise evaluation says of a run

The frame that a method is entered with holds of the state it is entered in, every step keeps what
holds, and the frame before an offset covers whatever is passed to it. So in every state of a run
the frame recorded for its offset tells the truth: the height of the stack, the constants, which
places hold the same number and which hold an argument.

## Main definitions

* `Frame.Describes`: what a frame says of a store, in terms of places
* `Evaluation.Advances`: a step of a run, with what an evaluation recorded of it
* `Evaluation.Tracks`: the frame recorded for the offset of a state holds of it

## Main results

* `entry_sound`: the entry of a static method
* `Evaluation.exists_advances`: one step of a run
* `evaluate_sound`: what an evaluation says of every state of a run
-/

namespace JvmTrim

/-! ## Entering a method -/

/-- The numbers of parameters; no other name is in use when a method is entered. -/
def Naming.ofArguments (arguments : List Cell) : Naming where
  int
    | .parameter slot =>
      match arguments[slot.toNat]? with
      | some (.int value) => some value
      | _ => none
    | _ => none
  long
    | .parameter slot =>
      match arguments[slot.toNat]? with
      | some (.long value) => some value
      | _ => none
    | _ => none

/-- A parameter of a kind holds of the argument in its slot. -/
theorem Value.holds_parameter {arguments : List Cell} {slot : UInt16} {word : Cell} {kind : Kind}
    (h : arguments[slot.toNat]? = some word) (hk : word.kind? = some kind) (notNull : Bool) :
    (Value.specific kind (.parameter slot) notNull).Holds (.ofArguments arguments) word := by
  cases word <;> cases hk <;> simp [specific, Holds, Abstract.Holds, Naming.ofArguments, h]

section Entry

variable {options : EvaluationOptions} {owner : String} {method : Method}

theorem storeParameters_sound {types : List FieldType} {words arguments locals : List Cell}
    {slot : UInt16} {frame frame' : Locals} (hdetail : options.detail = .precise)
    (hassumptions : options.assumptions = .none)
    (h : storeParameters options owner method types slot frame = .ok frame')
    (hp : Passes types words) (harguments : arguments.drop slot.toNat = words)
    (hinitial : ∃ rest, locals = arguments ++ rest) (hsize : frame.size < UInt16.size)
    (hf : frame.Holds (.ofArguments arguments) locals) :
    frame'.Holds (.ofArguments arguments) locals := by
  have hstore {kind : Kind} {word : Cell} {rest : List Cell} {slot : UInt16} {frame stored : Locals}
      (hs : frame.store slot (options.parameter owner method slot kind false)
        (OrderedSet.singleton .entry) = .ok stored)
      (hdrop : arguments.drop slot.toNat = word :: rest) (hk : word.kind? = some kind)
      (hsize : frame.size < UInt16.size) (hf : frame.Holds (.ofArguments arguments) locals) :
      stored.Holds (.ofArguments arguments) locals ∧ stored.size < UInt16.size ∧
        (slot + kind.size.toUInt16).toNat = slot.toNat + kind.size := by
    have hvalue : options.parameter owner method slot kind false =
        Value.specific kind (.parameter slot) false := by
      rw [EvaluationOptions.parameter, hdetail, hassumptions]
      rfl
    rw [hvalue] at hs
    have hargument : arguments[slot.toNat]? = some word := by
      have := congrArg (·[0]?) hdrop
      simpa using this
    obtain ⟨hfit, hsize', -⟩ := Locals.store_eq_ok hs
    obtain ⟨rest, hrest⟩ := hinitial
    have hword : locals[slot.toNat]? = some word := by
      rw [hrest, List.getElem?_append_left (List.getElem?_eq_some_iff.mp hargument).1]
      exact hargument
    refine ⟨Locals.holds_store hs hf rfl hword (Value.holds_parameter hargument hk false)
      (fun _ _ _ => rfl), by omega, ?_⟩
    have hfit' : slot.toNat + kind.size ≤ frame.size := by
      cases word <;> cases hk <;> exact hfit
    have hsmall : slot.toNat + kind.size < UInt16.size := by omega
    have hnat : (kind.size.toUInt16).toNat = kind.size :=
      Nat.mod_eq_of_lt (Nat.lt_of_le_of_lt kind.size_le_two (by decide))
    rw [UInt16.toNat_add, hnat]
    exact Nat.mod_eq_of_lt hsmall
  induction hp generalizing slot frame with
  | nil =>
    cases h
    exact hf
  | int value hkind _ ih | long value hkind _ ih =>
    obtain ⟨stored, hs, h⟩ := Except.bind_eq_ok.mp h
    rw [hkind] at hs
    obtain ⟨hf', hsize', hslot⟩ := hstore hs harguments rfl hsize hf
    refine ih h ?_ hsize' hf'
    rw [FieldType.size, hkind, hslot, ← List.drop_drop, harguments]
    rfl

/-- The frame that a static method is entered with holds of the state it is entered in. -/
theorem entry_sound {maxLocals : UInt16} {locals : Locals} {descriptor : MethodDescriptor}
    {arguments : List Cell} (hdetail : options.detail = .precise)
    (hassumptions : options.assumptions = .none) (hstatic : method.isStatic = true)
    (hdescriptor : MethodDescriptor.parse method.descriptor = .ok descriptor)
    (hp : Passes descriptor.parameters arguments)
    (h : entryLocals options owner method maxLocals = .ok locals) :
    Frame.Holds (.ofArguments arguments) ⟨locals, Stack.empty⟩
      (Machine.start maxLocals.toNat arguments).toStore := by
  refine ⟨.nil, ?_⟩
  rw [entryLocals, hdescriptor] at h
  have h' : storeParameters options owner method descriptor.parameters 0
      (Locals.ofSize maxLocals.toNat) = .ok locals := by
    have := h
    simp only [hstatic, if_true] at this
    exact this
  refine storeParameters_sound hdetail hassumptions h' hp rfl ⟨_, rfl⟩ ?_ ?_
  · simpa [Locals.ofSize, Locals.size] using maxLocals.toNat_lt
  · intro i slot hi
    simp only [Locals.ofSize, Array.getElem?_replicate] at hi
    split at hi
    · rename_i hlt
      cases hi
      have hlt' : i < (Machine.start maxLocals.toNat arguments).locals.length := by
        simp only [Machine.start, List.length_append, List.length_replicate]
        omega
      exact ⟨_, List.getElem?_eq_getElem hlt', trivial⟩
    · cases hi

end Entry

/-! ## Runs -/

/-- A word of the stack, counted from its bottom, or a variable. -/
inductive Place where
  | word (position : Nat)
  | slot (index : Nat)
  deriving DecidableEq, Repr

/-- What a frame says of a place. -/
def Frame.value? (frame : Frame) : Place → Option Value
  | .word position => (frame.stack.get? position).map (·.value)
  | .slot index => (frame.locals.slots[index]?).map (·.value)

/-- What a store has at a place. -/
def Store.word? (store : Store) : Place → Option Cell
  | .word position => store.stack.reverse[position]?
  | .slot index => store.locals[index]?

/-- The number that a value is known to be. -/
def Value.constant? : Value → Option Cell
  | int (.particular value) => some (.int value)
  | long (.particular value) => some (.long value)
  | _ => none

/-- Whether a frame tells the truth of a store in a run with some arguments: the height of the stack,
the known constants, which places hold the same number, and which hold an argument. -/
structure Frame.Describes (frame : Frame) (arguments : List Cell) (store : Store) : Prop where
  height : store.stack.length = frame.stack.height
  constant : ∀ place value, frame.value? place = some value → value.isParticular = true →
    ∃ word, value.constant? = some word ∧ store.word? place = some word
  same : ∀ place place' value value' symbol, frame.value? place = some value →
    frame.value? place' = some value' → value.kind? = value'.kind? →
    value.symbol? = some symbol → value'.symbol? = some symbol →
    ∃ word, store.word? place = some word ∧ store.word? place' = some word
  parameter : ∀ place value slot, frame.value? place = some value →
    value.symbol? = some (.parameter slot) →
    ∃ word, store.word? place = some word ∧ arguments[slot.toNat]? = some word

namespace Frame

variable {names : Naming} {frame : Frame} {store : Store} {arguments : List Cell}

theorem Holds.word? (h : frame.Holds names store) {place : Place} {value : Value}
    (hv : frame.value? place = some value) :
    ∃ word, store.word? place = some word ∧ value.Holds names word := by
  cases place with
  | slot index =>
    obtain ⟨slot, hs, rfl⟩ := Option.map_eq_some_iff.mp hv
    exact h.locals index slot hs
  | word position =>
    obtain ⟨slot, hs, rfl⟩ := Option.map_eq_some_iff.mp hv
    have hforall : List.Forall₂ (fun (slot : Slot) word => slot.value.Holds names word)
        frame.stack.words.toList store.stack.reverse := by
      have := List.forall₂_reverse_iff.mpr h.stack
      rwa [Stack.view, List.reverse_reverse] at this
    have hs' : frame.stack.words.toList[position]? = some slot := by
      rw [Array.getElem?_toList]
      exact hs
    have hlt : position < store.stack.reverse.length := by
      rw [← hforall.length_eq]
      exact (List.getElem?_eq_some_iff.mp hs').1
    exact ⟨_, List.getElem?_eq_getElem hlt,
      rel_of_forall₂ hforall hs' (List.getElem?_eq_getElem hlt)⟩

theorem Holds.describes (h : frame.Holds names store)
    (hsame : (Naming.ofArguments arguments).SameParameters names) :
    frame.Describes arguments store where
  height := h.height_eq
  constant place value hv hp := by
    obtain ⟨word, hword, hholds⟩ := h.word? hv
    refine ⟨word, ?_, hword⟩
    cases value with
    | int a =>
      cases word <;> try exact hholds.elim
      cases a <;> cases hp
      exact congrArg (some ∘ Cell.int) hholds.symm
    | long a =>
      cases word <;> try exact hholds.elim
      cases a <;> cases hp
      exact congrArg (some ∘ Cell.long) hholds.symm
    | top => cases hp
    | _ => exact hholds.elim
  same place place' value value' symbol hv hv' hk hs hs' := by
    obtain ⟨word, hword, hholds⟩ := h.word? hv
    obtain ⟨word', hword', hholds'⟩ := h.word? hv'
    have hidentity : value.sameIdentity value' = true := by
      simp [Value.sameIdentity, hk, hs, hs']
    cases Value.eq_of_sameIdentity hidentity hholds hholds'
    exact ⟨word, hword, hword'⟩
  parameter place value slot hv hs := by
    obtain ⟨word, hword, hholds⟩ := h.word? hv
    refine ⟨word, hword, ?_⟩
    cases value with
    | int a =>
      cases word <;> try exact hholds.elim
      cases a <;> cases hs
      have hname : (Naming.ofArguments arguments).int (.parameter slot) = some _ :=
        (hsame slot).1.symm.trans hholds
      simp only [Naming.ofArguments] at hname
      split at hname
      · rename_i heq
        cases hname
        exact heq
      · cases hname
    | long a =>
      cases word <;> try exact hholds.elim
      cases a <;> cases hs
      have hname : (Naming.ofArguments arguments).long (.parameter slot) = some _ :=
        (hsame slot).2.symm.trans hholds
      simp only [Naming.ofArguments] at hname
      split at hname
      · rename_i heq
        cases hname
        exact heq
      · cases hname
    | top => cases hs
    | _ => exact hholds.elim

end Frame

namespace Machine

theorem step_eq_ok {pool : ConstantPool} {body : List (Nat × Instruction)} {state next : State}
    (h : step pool body state = .ok next) :
    ∃ instruction exit, body.lookup state.offset = some instruction ∧
      execute pool instruction state.toStore = .ok (exit, next.toStore) ∧
      resolve instruction state.offset exit = .ok next.offset := by
  unfold step at h
  split at h
  · rename_i instruction hlookup
    obtain ⟨⟨exit, store⟩, hexecute, h⟩ := Except.bind_eq_ok.mp h
    obtain ⟨offset, hresolve, h⟩ := Except.bind_eq_ok.mp h
    cases h
    exact ⟨instruction, exit, hlookup, hexecute, hresolve⟩
  · cases h

/-- Where an exit leads is a successor. -/
theorem mem_of_resolve {instruction : Instruction} {offset destination : Nat} {exit : Option Nat}
    {successors : List Nat}
    (h : Context.Leaves instruction offset (offset + instruction.length offset) exit successors)
    (hr : resolve instruction offset exit = .ok destination) : destination ∈ successors := by
  unfold resolve at hr
  cases exit with
  | none =>
    cases hr
    exact h.1 rfl
  | some place =>
    simp only at hr
    split at hr
    · rename_i displacement hd
      obtain ⟨target, ht, hmem⟩ := h.2 place displacement rfl hd
      simp only [Instruction.target] at ht
      split at ht
      · cases ht
      · rename_i hnonneg
        rw [if_neg hnonneg] at hr
        cases ht
        cases hr
        exact hmem
    · cases hr

end Machine

namespace Evaluation

variable {evaluation : Evaluation} {options : EvaluationOptions} {pool : ConstantPool}
  {handlers : List Handler} {code : List UInt8} {arguments : List Cell}
  {state next : Machine.State}

/-- A step of a run, with what an evaluation recorded of it: the frame before it, the abstract step,
the exit that control takes, and what the names stand for before and after it. -/
structure Advances (evaluation : Evaluation) (options : EvaluationOptions) (pool : ConstantPool)
    (handlers : List Handler) (state next : Machine.State) (before : Frame)
    (instruction : Instruction) (step : Step) (exit : Option Nat) (names names' : Naming) :
    Prop where
  recorded : evaluation.before? state.offset = some before
  settled : evaluation.Settled options pool handlers state.offset before instruction step
  execute : Machine.execute pool instruction state.toStore = .ok (exit, next.toStore)
  resolve : Machine.resolve instruction state.offset exit = .ok next.offset
  holds : before.Holds names state.toStore
  holds_after : step.frame.Holds names' next.toStore
  same : names.SameParameters names'
  successor : next.offset ∈ step.successors
  leads : evaluation.Leads state.offset (recordedOffset next.offset)
  receives : evaluation.Receives next.offset step.frame

theorem instruction?_of_lookup (hlisting : Listing.ofCode code = .ok evaluation.listing)
    {offset : Nat} {instruction : Instruction}
    (h : evaluation.instructions.lookup offset = some instruction) :
    evaluation.instruction? offset = some instruction :=
  (Listing.get?_eq_some_iff hlisting).mpr (mem_of_lookup_eq_some h)

/-- **A step of a run follows the recorded control flow.** -/
theorem exists_advances {before : Frame} {names : Naming}
    (hbefore : evaluation.before? state.offset = some before)
    (hholds : before.Holds names state.toStore)
    (hclosed : evaluation.Closed options pool handlers) (hdetail : options.detail = .precise)
    (hrestriction : options.restriction = none)
    (hlisting : Listing.ofCode code = .ok evaluation.listing)
    (hstep : Machine.step pool evaluation.instructions state = .ok next) :
    ∃ instruction step exit names', evaluation.Advances options pool handlers state next before
      instruction step exit names names' := by
  obtain ⟨instruction, step, hsettled⟩ := hclosed.settled _ _ hbefore
  obtain ⟨instruction', exit, hlookup, hexecute, hresolve⟩ := Machine.step_eq_ok hstep
  have hget := instruction?_of_lookup hlisting hlookup
  cases hget.symm.trans hsettled.listed
  have hnext : evaluation.nextOffset state.offset =
      state.offset + instruction.length state.offset := Listing.nextOffset_of_get? hget
  have hexec := hsettled.execute
  rw [hnext] at hexec
  obtain ⟨⟨names', hholds', hsame⟩, hleaves⟩ :=
    Context.execute_sound (by exact hdetail) hexec hexecute hholds
  have hallowed : options.allows next.offset = true := by
    rw [EvaluationOptions.allows, hrestriction]
  have hsuccessor := Machine.mem_of_resolve hleaves hresolve
  obtain ⟨hleads, hreceives⟩ := hsettled.successors _ hsuccessor hallowed
  exact ⟨instruction, step, exit, names', hbefore, hsettled, hexecute, hresolve, hholds, hholds',
    hsame, hsuccessor, hleads, hreceives⟩

/-- Whether the frame recorded for the offset of a state holds of the state. -/
def Tracks (evaluation : Evaluation) (arguments : List Cell) (state : Machine.State) : Prop :=
  ∃ names frame, evaluation.before? state.offset = some frame ∧ frame.Holds names state.toStore ∧
    (Naming.ofArguments arguments).SameParameters names

/-- One step of a run keeps the state tracked. -/
theorem Tracks.step (h : evaluation.Tracks arguments state)
    (hclosed : evaluation.Closed options pool handlers) (hdetail : options.detail = .precise)
    (hrestriction : options.restriction = none)
    (hlisting : Listing.ofCode code = .ok evaluation.listing)
    (hstep : Machine.step pool evaluation.instructions state = .ok next) :
    evaluation.Tracks arguments next ∧
      evaluation.Leads state.offset (recordedOffset next.offset) := by
  obtain ⟨names, frame, hbefore, hholds, hsame⟩ := h
  obtain ⟨instruction, step, exit, names', ha⟩ :=
    exists_advances hbefore hholds hclosed hdetail hrestriction hlisting hstep
  obtain ⟨after, hafter, hcovers⟩ := ha.receives
  exact ⟨⟨names', after, hafter, hcovers.holds ha.holds_after, hsame.trans ha.same⟩, ha.leads⟩

/-- A run stays tracked. -/
theorem Tracks.run (h : evaluation.Tracks arguments state)
    (hclosed : evaluation.Closed options pool handlers) (hdetail : options.detail = .precise)
    (hrestriction : options.restriction = none)
    (hlisting : Listing.ofCode code = .ok evaluation.listing) {count : Nat}
    (hrun : Machine.run pool evaluation.instructions count state = .ok next) :
    evaluation.Tracks arguments next := by
  induction count generalizing state with
  | zero =>
    cases hrun
    exact h
  | succ count ih =>
    obtain ⟨middle, hstep, hrun⟩ := Except.bind_eq_ok.mp hrun
    exact ih (h.step hclosed hdetail hrestriction hlisting hstep).1 hrun

end Evaluation

/-- **A precise evaluation without assumptions is sound.** In every state of a run of a static method
from its entry, the offset is traced, the frame before it describes the store, and the next offset
is recorded among the targets. -/
theorem evaluate_sound {pool : ConstantPool} {owner : String} {method : Method} {code : Code}
    {evaluation : Evaluation} {descriptor : MethodDescriptor}
    {body : List (Nat × Instruction)} {arguments : List Cell}
    (hstatic : method.isStatic = true) (hcode : code.bytes ≠ [])
    (hdescriptor : MethodDescriptor.parse method.descriptor = .ok descriptor)
    (hbody : decodeAll code.bytes = .ok body)
    (hevaluate : evaluate (.precise .none) pool owner method code = .ok evaluation)
    (harguments : Passes descriptor.parameters arguments) {count : Nat} {state : Machine.State}
    (hrun : Machine.run pool body count (Machine.start code.maxLocals.toNat arguments)
      = .ok state) :
    evaluation.isTraced state.offset = true ∧
      (∃ frame, evaluation.before? state.offset = some frame ∧
        frame.Describes arguments state.toStore) ∧
      ∀ next, Machine.step pool body state = .ok next → ∃ targets,
        evaluation.targets state.offset = .ok targets ∧
          recordedOffset next.offset ∈ targets.elements := by
  obtain ⟨hclosed, hlisting, hentry⟩ := closed_of_evaluate hevaluate
  obtain ⟨locals, hlocals, frame, hframe, hcovers⟩ := hentry hcode rfl
  cases hbody.symm.trans (Listing.ofCode_eq_ok hlisting).1
  have hstart : evaluation.Tracks arguments (Machine.start code.maxLocals.toNat arguments) := by
    refine ⟨.ofArguments arguments, frame, hframe, hcovers.holds ?_, .refl _⟩
    exact entry_sound rfl rfl hstatic hdescriptor harguments hlocals
  have htracks := hstart.run hclosed rfl rfl hlisting hrun
  refine ⟨?_, ?_, fun next hnext =>
    Evaluation.leads_iff.mp (htracks.step hclosed rfl rfl hlisting hnext).2⟩
  all_goals obtain ⟨names, before, hbefore, hholds, hsame⟩ := htracks
  · obtain ⟨_, _, hsettled⟩ := hclosed.settled _ _ hbefore
    exact hsettled.traced
  · exact ⟨before, hbefore, hholds.describes hsame⟩

/-- A loop that counts its argument down to zero and returns it. -/
def countdown : Code where
  maxStack := 1
  maxLocals := 1
  bytes := [0x1A, 0x99, 0x00, 0x09, 0x84, 0x00, 0xFF, 0xA7, 0xFF, 0xF9, 0x1A, 0xAC]
  handlers := []
  lines := []
  localRanges := []

/-- The static method with this body. -/
def countdownMethod : Method := ⟨AccessFlags.static, "countdown", "(I)I", some countdown⟩

/-- The instructions of this body. -/
def countdownBody : List (Nat × Instruction) :=
  [(0, .simple 0x1A), (1, .branch 0x99 9), (4, ⟨0x84, .increment 0 (-1)⟩), (7, .branch 0xA7 (-7)),
    (10, .simple 0x1A), (11, .simple 0xAC)]

/-- In the second round of the loop, before the test. -/
theorem evaluate_sound_countdown : ∃ evaluation,
    evaluate (.precise .none) ⟨#[]⟩ "Loops" countdownMethod countdown = .ok evaluation ∧
      Machine.run ⟨#[]⟩ countdownBody 5 (Machine.start 1 [.int 2])
        = .ok ⟨⟨[.int 1], [.int 1]⟩, 1⟩ ∧
      evaluation.isTraced 1 = true ∧
      (∃ frame, evaluation.before? 1 = some frame ∧
        frame.Describes [.int 2] ⟨[.int 1], [.int 1]⟩) ∧
      ∀ next, Machine.step ⟨#[]⟩ countdownBody ⟨⟨[.int 1], [.int 1]⟩, 1⟩ = .ok next → ∃ targets,
        evaluation.targets 1 = .ok targets ∧ recordedOffset next.offset ∈ targets.elements := by
  obtain ⟨evaluation, hevaluate⟩ := Except.exists_ok
    (by decide +kernel :
      (evaluate (.precise .none) ⟨#[]⟩ "Loops" countdownMethod countdown).isOk = true)
  have hrun : Machine.run ⟨#[]⟩ countdownBody 5 (Machine.start 1 [.int 2])
      = .ok ⟨⟨[.int 1], [.int 1]⟩, 1⟩ := by
    decide +kernel
  have hdescriptor : MethodDescriptor.parse countdownMethod.descriptor
      = .ok ⟨[.int], some .int⟩ := by
    decide +kernel
  exact ⟨evaluation, hevaluate, hrun, evaluate_sound (by decide) (by decide) hdescriptor
    (by decide +kernel) hevaluate (.int 2 rfl .nil) hrun⟩

end JvmTrim
