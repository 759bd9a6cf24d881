import JvmTrim.Proofs.PostFixpoint
import JvmTrim.Proofs.StackShape

/-!
# Conditions that no instruction breaks

Executing an instruction changes the variables by stores and by forgetting a name only, and what it
pushes is a value of some kind, a return address, or a copy of something that was in the frame
before, with the instruction as its producer. Conditions on variables, values and producers that
stores, names and such values respect therefore hold of every frame of an iteration as soon as they
hold at the entry.

## Main definitions

* `FrameInvariant`: conditions on variables, values and producers that executions and joins respect
* `Frame.Meets`: whether a frame meets such conditions
* `Transfer.Keeps`: computations that keep them, with what their results meet

## Main results

* `Frame.Meets.execute`: executing an instruction
* `Progress.Visited.meets`: one visit
* `FrameInvariant.entryLocals`: the variables at the entry
-/

namespace JvmTrim

/-- Conditions on variables, values and producers that stores, names and joins respect. -/
structure FrameInvariant (L : Locals → Prop) (V : Value → Prop) (O : OriginSet → Prop) :
    Prop where
  top : V .top
  ofKind : ∀ {value : Value} {kind : Kind}, value.kind? = some kind → V value
  returnAddress : ∀ next, V (.returnAddress (OffsetSet.single next))
  join : ∀ {a b : Value}, V a → V b → V (a.join b)
  entry : O (OrderedSet.singleton .entry)
  own : ∀ offset, O (OriginSet.ofInstruction offset)
  union : ∀ {a b : OriginSet}, O a → O b → O (OrderedSet.union a b)
  load : ∀ {locals : Locals} {slot : Slot}, L locals → slot ∈ locals.slots → V slot.value
  store : ∀ {locals locals' : Locals} {index : UInt16} {value : Value} {producers : OriginSet},
    L locals → V value → O producers → locals.store index value producers = .ok locals' → L locals'
  forget : ∀ {locals : Locals} (symbol : Symbol), L locals → L (locals.forget symbol)
  joinLocals : ∀ {a b : Locals}, L a → L b → L (a.join b)

/-- Whether the variables of a frame and the words on its stack meet conditions. -/
structure Frame.Meets (L : Locals → Prop) (V : Value → Prop) (O : OriginSet → Prop)
    (frame : Frame) : Prop where
  locals : L frame.locals
  words : ∀ word ∈ frame.stack.view, V word.value ∧ O word.producers

variable {L : Locals → Prop} {V : Value → Prop} {O : OriginSet → Prop}

theorem FrameInvariant.withoutSymbol (hinv : FrameInvariant L V O) {value : Value} (h : V value)
    (symbol : Symbol) : V (value.withoutSymbol symbol) := by
  unfold Value.withoutSymbol
  split
  · cases value
    case top | returnAddress => exact hinv.top
    all_goals exact hinv.ofKind rfl
  · exact h

/-! ## Rules for computations -/

namespace Transfer

variable {α β : Type} {x : Transfer α} {P : α → Prop} {Q : β → Prop}

/-- Whether a computation keeps the conditions that a frame meets, and what its result meets. -/
def Keeps (L : Locals → Prop) (V : Value → Prop) (O : OriginSet → Prop) (P : α → Prop)
    (x : Transfer α) : Prop :=
  ∀ frame a frame', frame.Meets L V O → x frame = .ok (a, frame') → frame'.Meets L V O ∧ P a

theorem Keeps.bind {f : α → Transfer β} (hx : Keeps L V O P x)
    (hf : ∀ a, P a → Keeps L V O Q (f a)) : Keeps L V O Q (x >>= f) := by
  intro frame b frame' hmeets h
  obtain ⟨a, middle, hm, h⟩ := StateT.bind_eq_ok.mp h
  obtain ⟨hmeets', ha⟩ := hx frame a middle hmeets hm
  exact hf a ha middle b frame' hmeets' h

theorem keeps_pure {a : α} (h : P a) : Keeps L V O P (pure a) := by
  intro frame b frame' hmeets hb
  obtain ⟨rfl, rfl⟩ := StateT.pure_eq_ok.mp hb
  exact ⟨hmeets, h⟩

theorem keeps_lift {a : Except Failure α} (h : ∀ b, a = .ok b → P b) :
    Keeps L V O P (liftM a) := by
  intro frame b frame' hmeets hb
  obtain ⟨ha, rfl⟩ := StateT.liftM_eq_ok.mp hb
  exact ⟨hmeets, h b ha⟩

theorem keeps_anyLift (a : Except Failure α) : Keeps L V O (fun _ => True) (liftM a) :=
  keeps_lift fun _ _ => trivial

theorem keeps_forM {f : β → Transfer Unit} (hf : ∀ b, Keeps L V O (fun _ => True) (f b))
    (list : List β) : Keeps L V O (fun _ => True) (list.forM f) := by
  induction list with
  | nil => exact keeps_pure trivial
  | cons head tail ih => exact (hf head).bind fun _ _ => ih

theorem keeps_of_view {frame frame' : Frame} (hmeets : frame.Meets L V O)
    (hview : ∀ word ∈ frame'.stack.view, word ∈ frame.stack.view)
    (hlocals : frame'.locals = frame.locals) : frame'.Meets L V O :=
  ⟨hlocals ▸ hmeets.locals, fun word hw => hmeets.words word (hview word hw)⟩

theorem keeps_pop (count : Nat) : Keeps L V O V (pop count) := by
  intro frame value frame' hmeets h
  obtain ⟨-, hview, hlocals, top, rest, htop, rfl⟩ := pop_eq_ok h
  refine ⟨keeps_of_view hmeets (fun word hw => ?_) hlocals, (hmeets.words top (by simp [htop])).1⟩
  exact List.mem_of_mem_drop (hview ▸ hw)

theorem keeps_popKind (kind : Kind) : Keeps L V O V (popKind kind) := by
  intro frame value frame' hmeets h
  obtain ⟨-, hview, hlocals, -, top, rest, htop, rfl⟩ := popKind_eq_ok h
  refine ⟨keeps_of_view hmeets (fun word hw => ?_) hlocals, (hmeets.words top (by simp [htop])).1⟩
  exact List.mem_of_mem_drop (hview ▸ hw)

theorem keeps_popEach (count : Nat) : Keeps L V O (fun _ => True) (popEach count) := by
  intro frame _ frame' hmeets h
  obtain ⟨-, hview, hlocals⟩ := popEach_eq_ok h
  exact ⟨keeps_of_view hmeets (fun word hw => List.mem_of_mem_drop (hview ▸ hw)) hlocals, trivial⟩

variable (hinv : FrameInvariant L V O) (offset : Nat)

include hinv

theorem keeps_push {value : Value} (h : V value) :
    Keeps L V O (fun _ => True) (push offset value) := by
  intro frame _ frame' hmeets hp
  obtain ⟨hview, hlocals⟩ := push_eq_ok hp
  refine ⟨⟨hlocals ▸ hmeets.locals, fun word hw => ?_⟩, trivial⟩
  rw [hview, List.mem_append] at hw
  rcases hw with hw | hw
  · rw [pushedWords] at hw
    split at hw
    · rcases List.mem_cons.mp hw with rfl | hw
      · exact ⟨h, hinv.own offset⟩
      · rw [List.mem_singleton.mp hw]
        exact ⟨hinv.top, hinv.own offset⟩
    · rw [List.mem_singleton.mp hw]
      exact ⟨h, hinv.own offset⟩
  · exact hmeets.words word hw

theorem keeps_load (slot : UInt16) : Keeps L V O V (load slot) := by
  intro frame value frame' hmeets h
  obtain ⟨rfl, found, hfound, rfl⟩ := load_eq_ok h
  exact ⟨hmeets, hinv.load hmeets.locals (Array.mem_of_getElem? hfound)⟩

theorem keeps_store (slot : UInt16) {value : Value} (h : V value) :
    Keeps L V O (fun _ => True) (store offset slot value) := by
  intro frame _ frame' hmeets hs
  obtain ⟨hstack, hlocals⟩ := store_eq_ok hs
  exact ⟨⟨hinv.store hmeets.locals h (hinv.own offset) hlocals, hstack ▸ hmeets.words⟩, trivial⟩

theorem keeps_forget (symbol : Symbol) : Keeps L V O (fun _ => True) (forget symbol) := by
  intro frame _ frame' hmeets h
  cases forget_eq_ok h
  refine ⟨⟨hinv.forget symbol hmeets.locals, fun word hw => ?_⟩, trivial⟩
  rw [Stack.view_forget] at hw
  obtain ⟨old, hold, rfl⟩ := List.mem_map.mp hw
  obtain ⟨hvalue, hproducers⟩ := hmeets.words old hold
  exact ⟨hinv.withoutSymbol hvalue symbol, hproducers⟩

/-- A stack manipulation moves values that were on the stack. -/
theorem keeps_shuffle (instruction : Instruction) (move : Shuffle) :
    Keeps L V O (fun _ => True) (Context.shuffle offset instruction move) := by
  intro frame _ frame' hmeets h
  obtain ⟨copies, hcopies, hview, hlocals⟩ := shuffle_eq_ok h
  refine ⟨⟨hlocals ▸ hmeets.locals, fun word hw => ?_⟩, trivial⟩
  rw [hview, List.mem_append] at hw
  rcases hw with hw | hw
  · obtain ⟨copied, hcopied, rfl⟩ := List.mem_map.mp hw
    obtain ⟨i, hi, rfl⟩ := List.mem_iff_getElem.mp hcopied
    have hsources := (Shuffle.copied?_eq_some hcopies).2
    have hword := List.mem_of_getElem? (hsources.get (hsources.length_eq ▸ hi) hi)
    exact ⟨(hmeets.words copies[i] hword).1, hinv.own offset⟩
  · exact hmeets.words word (List.mem_of_mem_drop hw)

end Transfer

/-! ## Instructions -/

open Transfer

namespace Context

variable (hinv : FrameInvariant L V O) (context : Context) (offset : Nat)

include hinv

theorem keeps_fresh (kind : Kind) (notNull : Bool) :
    Keeps L V O V (context.fresh offset kind notNull) := by
  have hnamed (detail : Detail) : V (detail.named kind (.instruction offset) notNull) :=
    hinv.ofKind (Detail.kind?_named detail kind _ notNull)
  unfold fresh
  cases context.detail with
  | precise => exact (keeps_forget hinv _).bind fun _ _ => keeps_pure (hnamed .precise)
  | simple => exact keeps_pure (hnamed .simple)

theorem keeps_pushFresh (kind : Kind) (notNull : Bool) :
    Keeps L V O (fun _ => True) (context.pushFresh offset kind notNull) :=
  (keeps_fresh hinv context offset kind notNull).bind fun _ hv => keeps_push hinv offset hv

theorem keeps_pushConstant {value : Value} (h : ∃ kind, value.kind? = some kind) :
    Keeps L V O (fun _ => True) (context.pushConstant offset value) := by
  obtain ⟨kind, hk⟩ := h
  exact keeps_push hinv offset (hinv.ofKind ((Detail.kind?_constant _ value).trans hk))

theorem keeps_computed {kind : Kind} {value : Option Value}
    (h : ∀ known, value = some known → ∃ kind', known.kind? = some kind') :
    Keeps L V O V (context.computed offset kind value) := by
  cases value with
  | none => exact keeps_fresh hinv context offset kind false
  | some known =>
    obtain ⟨kind', hk⟩ := h known rfl
    exact keeps_pure (hinv.ofKind ((Detail.kind?_constant _ known).trans hk))

theorem keeps_unary {source target : Kind} {fold : Value → Except Failure (Option Value)}
    (h : ∀ a known, fold a = .ok (some known) → known.kind? = some target) :
    Keeps L V O (fun _ => True) (context.unary offset source target fold) := by
  refine (keeps_popKind source).bind fun a _ => (keeps_lift fun _ hr => hr).bind fun result hr => ?_
  refine (keeps_computed hinv context offset fun known hk => ⟨target, h a known ?_⟩).bind
    fun _ hv => keeps_push hinv offset hv
  rw [hr, hk]

theorem keeps_binary {first second target : Kind}
    {fold : Value → Value → Except Failure (Option Value)}
    (h : ∀ a b known, fold a b = .ok (some known) → known.kind? = some target) :
    Keeps L V O (fun _ => True) (context.binary offset first second target fold) := by
  refine (keeps_popKind second).bind fun b _ => (keeps_popKind first).bind fun a _ =>
    (keeps_lift fun _ hr => hr).bind fun result hr => ?_
  refine (keeps_computed hinv context offset fun known hk => ⟨target, h a b known ?_⟩).bind
    fun _ hv => keeps_push hinv offset hv
  rw [hr, hk]

theorem keeps_pushSupplied (kind : Kind) (assumed : Option Value) :
    Keeps L V O (fun _ => True) (context.pushSupplied offset kind assumed) := by
  unfold pushSupplied
  split
  · rename_i value hvalue
    exact keeps_push hinv offset (hinv.ofKind (Detail.kind?_of_supplied? hvalue))
  · exact keeps_pushFresh hinv context offset kind false

theorem keeps_loadConstant (instruction : Instruction) :
    Keeps L V O (fun _ => True) (context.loadConstant offset instruction) := by
  refine (keeps_anyLift _).bind fun index _ => (keeps_anyLift _).bind fun constant _ => ?_
  cases constant with
  | integer _ | float _ | long _ | double _ =>
    exact keeps_pushConstant hinv context offset ⟨_, rfl⟩
  | string _ | «class» _ | methodType _ | methodHandle _ _ =>
    exact keeps_pushFresh hinv context offset .reference true
  | dynamic _ _ =>
    exact (keeps_anyLift _).bind fun _ _ => (keeps_anyLift _).bind fun _ _ =>
      keeps_pushFresh hinv context offset _ false
  | _ => exact keeps_anyLift _

theorem keeps_increment (instruction : Instruction) :
    Keeps L V O (fun _ => True) (context.increment offset instruction) := by
  unfold increment
  cases instruction.operand with
  | increment slot delta =>
    refine (keeps_load hinv slot).bind fun current _ =>
      (keeps_computed hinv context offset fun known hk => ⟨.int, ?_⟩).bind
        fun _ hv => keeps_store hinv offset slot hv
    obtain ⟨number, -, rfl⟩ := Option.map_eq_some_iff.mp hk
    rfl
  | _ => exact keeps_anyLift _

theorem keeps_getField (static : Bool) (instruction : Instruction) :
    Keeps L V O (fun _ => True) (context.getField offset static instruction) := by
  have hrest : Keeps L V O (fun _ => True) (context.pushField offset instruction) :=
    (keeps_anyLift _).bind fun _ _ => (keeps_anyLift _).bind fun _ _ =>
      keeps_pushSupplied hinv context offset _ _
  cases static with
  | false => exact (keeps_pop 1).bind fun _ _ => hrest
  | true => exact hrest

omit hinv in
theorem keeps_putField (static : Bool) (instruction : Instruction) :
    Keeps L V O (fun _ => True) (context.putField static instruction) := by
  refine (keeps_anyLift _).bind fun _ _ => (keeps_pop _).bind fun _ _ => ?_
  cases static with
  | false => exact (keeps_pop 1).bind fun _ _ => keeps_pure trivial
  | true => exact keeps_pure trivial

theorem keeps_invoke (mode : Invocation) (instruction : Instruction) :
    Keeps L V O (fun _ => True) (context.invoke offset mode instruction) := by
  rw [invoke_eq]
  refine (keeps_anyLift _).bind fun descriptor _ => (keeps_forM (fun _ =>
    (keeps_pop _).bind fun _ _ => keeps_pure trivial) _).bind fun _ _ => ?_
  refine Keeps.bind (P := fun _ => True) ?_ fun member _ =>
    Keeps.bind (P := fun _ => True) ?_ fun event _ =>
      Keeps.bind (P := fun _ => True) ?_ fun _ _ => keeps_pure trivial
  · unfold callee
    split
    · exact keeps_pure trivial
    · exact (keeps_anyLift _).bind fun _ _ => keeps_pure trivial
  · unfold takeReceiver
    split
    · exact (keeps_pop 1).bind fun _ _ => keeps_pure trivial
    · exact keeps_pure trivial
  · unfold pushResult
    split
    · exact keeps_pushSupplied hinv context offset _ _
    · exact keeps_pure trivial

theorem keeps_perform (instruction : Instruction) :
    Keeps L V O (fun _ => True) (context.perform offset instruction) := by
  unfold perform
  cases hop : instruction.operation
  case pushNull | pushInt | pushLong | pushFloat | pushDouble =>
    exact keeps_pushConstant hinv context offset ⟨_, rfl⟩
  case pushImmediate =>
    cases instruction.operand with
    | byte _ | short _ => exact keeps_pushConstant hinv context offset ⟨_, rfl⟩
    | _ => exact keeps_anyLift _
  case loadConstant => exact keeps_loadConstant hinv context offset instruction
  case load kind slot =>
    refine (keeps_load hinv _).bind fun value hv => keeps_push hinv offset ?_
    unfold loadedValue
    split
    · exact hv
    · exact hinv.ofKind (show (Value.unknown kind).kind? = some kind by cases kind <;> rfl)
  case store kind slot =>
    refine (keeps_pop _).bind fun value hv => keeps_store hinv offset _ ?_
    unfold storedValue
    split
    · exact hinv.ofKind (show (Value.unknown kind).kind? = some kind by cases kind <;> rfl)
    · exact hv
  case arrayLoad =>
    exact (keeps_popEach 2).bind fun _ _ => keeps_pushFresh hinv context offset _ false
  case arrayStore => exact (keeps_pop _).bind fun _ _ => keeps_popEach 2
  case shuffle move => exact keeps_shuffle hinv offset instruction move
  case arithmetic => exact keeps_binary hinv context offset fun _ _ _ => kind?_foldArithmetic
  case shift => exact keeps_binary hinv context offset fun _ _ _ => kind?_foldShift
  case bitwise => exact keeps_binary hinv context offset fun _ _ _ => kind?_foldBitwise
  case compareLong => exact keeps_binary hinv context offset fun _ _ _ => kind?_foldCompareLong
  case compareFloating =>
    exact keeps_binary hinv context offset fun _ _ _ => kind?_foldCompareFloating
  case negate => exact keeps_unary hinv context offset fun _ _ => kind?_foldNegation
  case convert => exact keeps_unary hinv context offset fun _ _ => kind?_foldConversion
  case narrow => exact keeps_unary hinv context offset fun _ _ => kind?_narrowed
  case increment => exact keeps_increment hinv context offset instruction
  case returnValue => exact (keeps_pop _).bind fun _ _ => keeps_pure trivial
  case getField static => exact keeps_getField hinv context offset static instruction
  case putField static => exact keeps_putField context static instruction
  case newObject => exact keeps_pushFresh hinv context offset _ true
  case newArray | arrayLength =>
    exact (keeps_popEach 1).bind fun _ _ => keeps_pushFresh hinv context offset _ _
  case newMultiArray =>
    cases instruction.operand with
    | multiArray _ _ =>
      exact (keeps_popEach _).bind fun _ _ => keeps_pushFresh hinv context offset _ true
    | _ => exact keeps_anyLift _
  case raise | monitor => exact keeps_popEach 1
  case checkCast =>
    refine (keeps_pop 1).bind fun value hv => ?_
    cases value.isNull
    · exact keeps_pushFresh hinv context offset _ _
    · exact keeps_push hinv offset hv
  case instanceOf =>
    exact (keeps_pop 1).bind fun _ _ =>
      (keeps_computed hinv context offset fun _ hk => ⟨.int, kind?_instanceOf hk⟩).bind
        fun _ hv => keeps_push hinv offset hv
  all_goals first
    | exact keeps_pure trivial
    | exact keeps_anyLift _

omit hinv in
theorem keeps_condition (operation : Operation) :
    Keeps L V O (fun _ => True) (condition operation) := by
  unfold condition
  cases operation with
  | branchZero _ =>
    exact (keeps_popKind _).bind fun _ _ => (keeps_anyLift _).bind fun _ _ => keeps_pure trivial
  | branchInt _ =>
    refine (keeps_popKind _).bind fun _ _ => (keeps_popKind _).bind fun _ _ =>
      (keeps_anyLift _).bind fun x _ => (keeps_anyLift _).bind fun y _ => ?_
    cases x <;> cases y <;> exact keeps_pure trivial
  | branchReference _ =>
    exact (keeps_pop 1).bind fun _ _ => (keeps_pop 1).bind fun _ _ => keeps_pure trivial
  | branchNull _ => exact (keeps_pop 1).bind fun _ _ => keeps_pure trivial
  | _ => exact keeps_pure trivial

theorem keeps_run (next : Nat) (instruction : Instruction) :
    Keeps L V O (fun _ => True) (context.run offset next instruction) := by
  unfold run
  cases hop : instruction.operation
  case branchZero | branchInt | branchReference | branchNull =>
    exact (keeps_condition _).bind fun _ _ => (keeps_anyLift _).bind fun _ _ => keeps_pure trivial
  case jump => exact (keeps_anyLift _).bind fun _ _ => keeps_pure trivial
  case subroutine =>
    exact (keeps_anyLift _).bind fun _ _ =>
      (keeps_push hinv offset (hinv.returnAddress next)).bind fun _ _ => keeps_pure trivial
  case ret =>
    exact (keeps_anyLift _).bind fun _ _ => (keeps_load hinv _).bind fun _ _ =>
      (keeps_anyLift _).bind fun _ _ => keeps_pure trivial
  case switch =>
    refine (keeps_popKind _).bind fun _ _ => (keeps_anyLift _).bind fun key _ =>
      (keeps_anyLift _).bind fun _ _ => ?_
    cases key with
    | none => exact keeps_pure trivial
    | some key => exact (keeps_anyLift _).bind fun _ _ => keeps_pure trivial
  case invoke mode =>
    exact (keeps_invoke hinv context offset mode instruction).bind fun _ _ => keeps_pure trivial
  all_goals
    exact (keeps_perform hinv context offset instruction).bind fun _ _ => keeps_pure trivial

end Context

namespace Frame

/-- **No instruction breaks the conditions that a frame meets.** -/
theorem Meets.execute {frame : Frame} (hmeets : frame.Meets L V O) (hinv : FrameInvariant L V O)
    {context : Context} {offset next : Nat} {instruction : Instruction} {step : Step}
    (h : context.execute offset next instruction frame = .ok step) : step.frame.Meets L V O := by
  obtain ⟨⟨exit, frame'⟩, hrun, hstep⟩ := Except.bind_eq_ok.mp h
  cases hstep
  exact (Context.keeps_run hinv context offset next instruction _ _ _ hmeets hrun).1

theorem Meets.handlerFrame {frame : Frame} (hmeets : frame.Meets L V O)
    (hinv : FrameInvariant L V O) (detail : Detail) {target : Nat}
    (htarget : O (OrderedSet.singleton (.handler target))) :
    (handlerFrame detail target frame.locals).Meets L V O := by
  have hkind := Detail.kind?_named detail .reference (.caught target) true
  refine ⟨hinv.forget _ hmeets.locals, fun word hw => ?_⟩
  simp only [JvmTrim.handlerFrame, Stack.view_push, pushedWords, Stack.view_empty,
    Value.isWide_of_kind? hkind, List.append_nil] at hw
  rw [List.mem_singleton.mp hw]
  exact ⟨hinv.ofKind hkind, htarget⟩

theorem Meets.joinAt {a b joined : Frame} {offset : Nat} (ha : a.Meets L V O) (hb : b.Meets L V O)
    (hinv : FrameInvariant L V O) (h : a.joinAt offset b = .ok joined) : joined.Meets L V O := by
  obtain ⟨-, rfl⟩ := joinAt_eq_ok_iff.mp h
  refine ⟨hinv.joinLocals ha.locals hb.locals, fun word hw => ?_⟩
  simp only [Stack.view, List.mem_reverse] at hw ha hb
  obtain ⟨i, hi⟩ := Array.mem_iff_getElem?.mp (Array.mem_toList_iff.mp hw)
  obtain ⟨x, y, hx, hy, rfl⟩ := Array.getElem?_zipWith_eq_some.mp hi
  have hwordx := ha.words x (List.mem_reverse.mpr (Array.mem_toList_iff.mpr
    (Array.mem_of_getElem? hx)))
  have hwordy := hb.words y (List.mem_reverse.mpr (Array.mem_toList_iff.mpr
    (Array.mem_of_getElem? hy)))
  exact ⟨hinv.join hwordx.1 hwordy.1, hinv.union hwordx.2 hwordy.2⟩

end Frame

/-! ## The iteration -/

/-- A visit keeps the conditions that all frames meet. -/
theorem Progress.Visited.meets {options : EvaluationOptions} {pool : ConstantPool}
    {handlers : List Handler} {offset : Nat} {before : Frame} {instruction : Instruction}
    {step : Step} {old new : Progress}
    (h : Visited options pool handlers offset before instruction step old new)
    (hinv : FrameInvariant L V O)
    (hhandlers : ∀ handler ∈ handlers, O (OrderedSet.singleton (.handler handler.target)))
    (hold : ∀ o frame, old.evaluation.before? o = some frame → frame.Meets L V O) :
    ∀ o frame, new.evaluation.before? o = some frame → frame.Meets L V O := by
  have hbefore := hold offset before h.recorded
  refine h.frames _ ?_ ?_ ?_ hold
  · intro o a b joined ha hb hj _
    exact ha.joinAt hb hinv hj
  · intro successor _ _
    exact hbefore.execute hinv h.settled.execute
  · intro handler hm _ _
    exact hbefore.handlerFrame hinv options.detail (hhandlers handler hm)

theorem EvaluationOptions.kind?_parameter (options : EvaluationOptions) (owner : String)
    (method : Method) (slot : UInt16) (kind : Kind) (notNull : Bool) :
    (options.parameter owner method slot kind notNull).kind? = some kind := by
  unfold parameter
  split
  · rename_i value hvalue
    exact Detail.kind?_of_supplied? hvalue
  · exact Detail.kind?_named options.detail kind _ notNull

namespace FrameInvariant

variable (hinv : FrameInvariant L V O) {options : EvaluationOptions} {owner : String}
  {method : Method}

include hinv

theorem storeParameters {types : List FieldType} {slot : UInt16} {locals locals' : Locals}
    (hl : L locals)
    (h : storeParameters options owner method types slot locals = .ok locals') : L locals' := by
  induction types generalizing slot locals with
  | nil =>
    cases h
    exact hl
  | cons type rest ih =>
    obtain ⟨stored, hs, h⟩ := Except.bind_eq_ok.mp h
    exact ih (hinv.store hl (hinv.ofKind (options.kind?_parameter ..)) hinv.entry hs) h

/-- The variables at the entry meet a condition that they meet while none is written. -/
theorem entryLocals {maxLocals : UInt16} {locals : Locals}
    (hblank : L (Locals.ofSize maxLocals.toNat))
    (h : entryLocals options owner method maxLocals = .ok locals) : L locals := by
  obtain ⟨descriptor, -, h⟩ := Except.bind_eq_ok.mp h
  simp only at h
  split at h
  · exact hinv.storeParameters hblank h
  · obtain ⟨received, hr, h⟩ := Except.bind_eq_ok.mp h
    have hreceived := hinv.store hblank (hinv.ofKind (options.kind?_parameter ..)) hinv.entry hr
    exact hinv.storeParameters hreceived h

end FrameInvariant

end JvmTrim
