import JvmTrim.Proofs.Faultless
import JvmTrim.Proofs.FrameAccess

/-!
# Executing instructions safely

Executing an instruction asks values for their numbers only after it has popped them by their kind,
looks up the words of a stack manipulation only after it has found enough of them, and finds as many
targets in a table as its bounds say. So an instruction that was read is executed without faults, on
any frame: where it fails, something is wrong with the class file.

The same walk over the instructions shows where the words on the stack come from: each was pushed by
the instruction or was there before.

## Main definitions

* `Frame.Traces`: frames whose words have known producers
* `Transfer.Safe`: a computation of an instruction that fails with ordinary failures only

## Main results

* `Context.safe_run`, `Context.ordinary_execute`: executing an instruction
-/

namespace JvmTrim

namespace Stack

theorem ordinary_pop (stack : Stack) (count : Nat) : Ordinary (stack.pop count) := by
  refine FailsOnly.bind ?_ fun (top, rest) _ => .ite (fun _ => Ordinary.defect _) fun _ => .ok _
  unfold popWord
  split
  · exact .ok _
  · exact Ordinary.defect _

theorem ordinary_popKind (stack : Stack) (kind : Kind) : Ordinary (stack.popKind kind) :=
  (stack.ordinary_pop _).bind fun _ _ => .ite (fun _ => .ok _) fun _ => Ordinary.defect _

end Stack

theorem Locals.ordinary_store (locals : Locals) (slot : UInt16) (value : Value)
    (producers : OriginSet) : Ordinary (locals.store slot value producers) :=
  .ite (fun _ => Ordinary.defect _) fun _ => .ok _

/-- Whether every word on the stack of `new` was pushed by the instruction at `offset`, or has the
producers of a word on the stack of `old`. -/
def Frame.Traces (offset : Nat) (old new : Frame) : Prop :=
  ∀ word ∈ new.stack.view, word.producers = OriginSet.ofInstruction offset ∨
    ∃ word' ∈ old.stack.view, word'.producers = word.producers

namespace Frame

variable {offset : Nat} {a b c : Frame}

theorem traces_of_subset (h : ∀ word ∈ b.stack.view, word ∈ a.stack.view) : a.Traces offset b :=
  fun word hw => .inr ⟨word, h word hw, rfl⟩

theorem Traces.refl (a : Frame) : a.Traces offset a := traces_of_subset fun _ => id

theorem Traces.trans (hab : a.Traces offset b) (hbc : b.Traces offset c) : a.Traces offset c := by
  intro word hw
  rcases hbc word hw with hpushed | ⟨word', hw', hsame⟩
  · exact .inl hpushed
  · rcases hab word' hw' with hpushed | ⟨word'', hw'', hsame'⟩
    · exact .inl (hsame ▸ hpushed)
    · exact .inr ⟨word'', hw'', hsame'.trans hsame⟩

end Frame

/-- Whether a computation of the instruction at `offset` fails from a frame with ordinary failures
only, and leaves words whose producers are known. -/
structure Transfer.SafeFrom {α : Type} (offset : Nat) (frame : Frame) (x : Transfer α) : Prop where
  ordinary : Ordinary (x frame)
  traces : ∀ result, x frame = .ok result → frame.Traces offset result.2

/-- Whether a computation of the instruction at `offset` is safe from every frame. -/
def Transfer.Safe {α : Type} (offset : Nat) (x : Transfer α) : Prop :=
  ∀ frame, SafeFrom offset frame x

namespace Transfer

namespace Safe

variable {α β : Type} {offset : Nat}

theorem pure (a : α) : Safe offset (Pure.pure a) := by
  refine fun _ => ⟨.ok _, fun (_, frame') h => ?_⟩
  obtain ⟨-, rfl⟩ := StateT.pure_eq_ok.mp h
  exact .refl _

theorem lift {x : Except Failure α} (h : Ordinary x) : Safe offset (liftM x) := by
  refine fun frame => ⟨AlwaysOrdinary.lift h frame, fun (_, frame') hx => ?_⟩
  obtain ⟨-, rfl⟩ := StateT.liftM_eq_ok.mp hx
  exact .refl _

/-- What is known of a result that was found can be made use of. -/
theorem bind_of_ok {x : Transfer α} {f : α → Transfer β} (hx : Safe offset x)
    (hf : ∀ frame a frame', x frame = .ok (a, frame') → SafeFrom offset frame' (f a)) :
    Safe offset (x >>= f) := by
  refine fun frame => ⟨(hx frame).ordinary.bind fun (a, frame') ha =>
    (hf frame a frame' ha).ordinary, fun result hresult => ?_⟩
  obtain ⟨a, frame', ha, hresult⟩ := StateT.bind_eq_ok.mp hresult
  exact ((hx frame).traces _ ha).trans ((hf frame a frame' ha).traces result hresult)

theorem bind {x : Transfer α} {f : α → Transfer β} (hx : Safe offset x)
    (hf : ∀ a, Safe offset (f a)) : Safe offset (x >>= f) :=
  hx.bind_of_ok fun _ a frame' _ => hf a frame'

theorem bind_lift {x : Except Failure α} {f : α → Transfer β} (hx : Ordinary x)
    (hf : ∀ a, x = .ok a → Safe offset (f a)) : Safe offset (liftM x >>= f) :=
  (lift hx).bind_of_ok fun _ _ frame' h => hf _ (StateT.liftM_eq_ok.mp h).1 frame'

theorem ite {p : Prop} [Decidable p] {x y : Transfer α} (hx : Safe offset x)
    (hy : Safe offset y) : Safe offset (if p then x else y) := by
  split
  · exact hx
  · exact hy

theorem forM {f : β → Transfer Unit} {list : List β} (h : ∀ b ∈ list, Safe offset (f b)) :
    Safe offset (list.forM f) := by
  induction list with
  | nil => exact pure ()
  | cons head tail ih =>
    exact (h head List.mem_cons_self).bind fun _ =>
      ih fun b hb => h b (List.mem_cons_of_mem _ hb)

end Safe

variable {offset : Nat}

theorem safe_pop (count : Nat) : Safe offset (pop count) := by
  refine fun frame => ⟨(frame.stack.ordinary_pop count).bind fun _ _ => .ok _, fun (value, frame') h => ?_⟩
  obtain ⟨-, hview, -⟩ := pop_eq_ok h
  exact Frame.traces_of_subset fun word hw => List.mem_of_mem_drop (hview ▸ hw)

theorem safe_popKind (kind : Kind) : Safe offset (popKind kind) := by
  refine fun frame => ⟨(frame.stack.ordinary_popKind kind).bind fun _ _ => .ok _, fun (value, frame') h => ?_⟩
  obtain ⟨-, hview, -⟩ := popKind_eq_ok h
  exact Frame.traces_of_subset fun word hw => List.mem_of_mem_drop (hview ▸ hw)

theorem safe_popEach (count : Nat) : Safe offset (popEach count) := by
  induction count with
  | zero => exact .pure ()
  | succ count ih => exact (safe_pop 1).bind fun _ => ih

theorem safe_push (offset : Nat) (value : Value) : Safe offset (push offset value) := by
  refine fun frame => ⟨.ok _, fun (_, frame') h word hw => ?_⟩
  rw [(push_eq_ok h).1, List.mem_append] at hw
  rcases hw with hpushed | hold
  · refine .inl ?_
    unfold pushedWords at hpushed
    split at hpushed
    · simp only [List.mem_cons, List.not_mem_nil, or_false] at hpushed
      rcases hpushed with rfl | rfl <;> rfl
    · rw [List.mem_singleton] at hpushed
      rw [hpushed]
  · exact .inr ⟨word, hold, rfl⟩

theorem safe_load (slot : UInt16) : Safe offset (load slot) := by
  refine fun frame => ⟨(Ordinary.orDefect _ _).bind fun _ _ => .ok _, fun (value, frame') h => ?_⟩
  obtain ⟨rfl, -⟩ := load_eq_ok h
  exact .refl _

theorem safe_store (slot : UInt16) (value : Value) : Safe offset (store offset slot value) := by
  refine fun frame => ⟨(frame.locals.ordinary_store slot value _).bind fun _ _ => .ok _,
    fun (_, frame') h => ?_⟩
  exact Frame.traces_of_subset fun word hw => (store_eq_ok h).1 ▸ hw

theorem safe_forget (symbol : Symbol) : Safe offset (forget symbol) := by
  refine fun frame => ⟨.ok _, fun (_, frame') h word hw => .inr ?_⟩
  rw [forget_eq_ok h, Stack.view_forget] at hw
  obtain ⟨word', hw', rfl⟩ := List.mem_map.mp hw
  exact ⟨word', hw', rfl⟩

/-- What is popped as a value of a kind is one. -/
theorem safe_bind_popKind {α : Type} {kind : Kind} {f : Value → Transfer α}
    (h : ∀ value, value.kind? = some kind → Safe offset (f value)) :
    Safe offset (popKind kind >>= f) := by
  refine (safe_popKind kind).bind_of_ok fun frame value frame' hpop => ?_
  obtain ⟨-, -, -, hkind, -⟩ := popKind_eq_ok hpop
  exact h value hkind frame'

end Transfer

namespace Context

open Transfer

variable (context : Context) (offset : Nat) {instruction : Instruction}

theorem safe_fresh (kind : Kind) (notNull : Bool) :
    Safe offset (context.fresh offset kind notNull) := by
  unfold fresh
  cases context.detail
  · exact (safe_forget _).bind fun _ => .pure _
  · exact Safe.bind (.pure ()) fun _ => .pure _

theorem safe_pushFresh (kind : Kind) (notNull : Bool) :
    Safe offset (context.pushFresh offset kind notNull) :=
  (context.safe_fresh offset kind notNull).bind fun _ => safe_push offset _

theorem safe_computed (kind : Kind) (value : Option Value) :
    Safe offset (context.computed offset kind value) := by
  cases value with
  | none => exact context.safe_fresh offset kind false
  | some value => exact .pure _

theorem safe_unary {source target : Kind} {fold : Value → Except Failure (Option Value)}
    (h : ∀ a, a.kind? = some source → Ordinary (fold a)) :
    Safe offset (context.unary offset source target fold) :=
  safe_bind_popKind fun a ha => (Safe.lift (h a ha)).bind fun _ =>
    (context.safe_computed offset target _).bind fun _ => safe_push offset _

theorem safe_binary {first second target : Kind}
    {fold : Value → Value → Except Failure (Option Value)}
    (h : ∀ a b, a.kind? = some first → b.kind? = some second → Ordinary (fold a b)) :
    Safe offset (context.binary offset first second target fold) :=
  safe_bind_popKind fun b hb => safe_bind_popKind fun a ha =>
    (Safe.lift (h a b ha hb)).bind fun _ =>
      (context.safe_computed offset target _).bind fun _ => safe_push offset _

theorem safe_pushSupplied (kind : Kind) (value : Option Value) :
    Safe offset (context.pushSupplied offset kind value) := by
  unfold pushSupplied
  split
  · exact safe_push offset _
  · exact context.safe_pushFresh offset kind false

theorem safe_loadConstant (instruction : Instruction) :
    Safe offset (context.loadConstant offset instruction) := by
  refine (Safe.lift (.orDefect _ _)).bind fun index =>
    (Safe.lift (context.pool.ordinary_get index)).bind fun constant => ?_
  split
  case h_9 =>
    refine (Safe.lift (context.pool.ordinary_nameAndType _)).bind fun _ =>
      (Safe.lift (FieldType.ordinary_parse _)).bind fun _ =>
        context.safe_pushFresh offset _ false
  case h_10 => exact .lift (.defect _)
  all_goals first
    | exact safe_push offset _
    | exact context.safe_pushFresh offset _ true

theorem safe_increment (instruction : Instruction) :
    Safe offset (context.increment offset instruction) := by
  unfold increment
  split
  · exact (safe_load _).bind fun _ =>
      (context.safe_computed offset .int _).bind fun _ => safe_store _ _
  · exact .lift (.defect _)

/-- A stack manipulation that fits finds all words that it copies. -/
theorem safe_shuffle (instruction : Instruction) (move : Shuffle) :
    Safe offset (shuffle offset instruction move) := by
  refine fun frame => ⟨.ite (fun hfits => ?_) fun _ => Ordinary.defect _, fun (_, frame') h => ?_⟩
  · refine FailsOnly.bind (.mapM fun source hsource => .orFail_of_isSome ?_) fun _ _ => .ok _
    have hlt := Shuffle.lt_pops_of_mem_outputs hsource
    have hle : move.pops ≤ frame.stack.words.size := by
      simp only [Shuffle.fits, Bool.and_eq_true, decide_eq_true_eq, Array.size_map] at hfits
      exact hfits.1
    simp only [isSome_getElem?]
    omega
  · obtain ⟨copies, -, hview, -⟩ := shuffle_eq_ok h
    intro word hw
    rw [hview, List.mem_append] at hw
    rcases hw with hcopy | hold
    · obtain ⟨copied, -, rfl⟩ := List.mem_map.mp hcopy
      exact .inl rfl
    · exact .inr ⟨word, List.mem_of_mem_drop hold, rfl⟩

theorem safe_getField (static : Bool) (instruction : Instruction) :
    Safe offset (context.getField offset static instruction) := by
  have hrest : Safe offset (context.pushField offset instruction) :=
    (Safe.lift (instruction.ordinary_member _)).bind fun _ =>
      (Safe.lift (FieldType.ordinary_parse _)).bind fun _ =>
        context.safe_pushSupplied offset _ _
  cases static
  · exact (safe_pop 1).bind fun _ => hrest
  · exact hrest

theorem safe_putField (static : Bool) (instruction : Instruction) :
    Safe offset (context.putField static instruction) := by
  refine (Safe.lift (instruction.ordinary_fieldType _)).bind fun _ =>
    (safe_pop _).bind fun _ => ?_
  cases static
  · exact (safe_pop 1).bind fun _ => .pure ()
  · exact .pure ()

theorem safe_invoke (mode : Invocation) (instruction : Instruction) :
    Safe offset (context.invoke offset mode instruction) := by
  rw [invoke_eq]
  refine (Safe.lift (instruction.ordinary_methodDescriptor _)).bind fun descriptor => ?_
  refine (Safe.forM fun _ _ => (safe_pop _).bind fun _ => .pure ()).bind fun _ => ?_
  refine Safe.bind ?_ fun member => Safe.bind ?_ fun event => Safe.bind ?_ fun _ => .pure event
  · exact .ite (.pure none) ((Safe.lift (instruction.ordinary_member _)).bind fun _ => .pure _)
  · exact .ite ((safe_pop 1).bind fun _ => .pure _) (.pure none)
  · unfold pushResult
    split
    · exact context.safe_pushSupplied offset _ _
    · exact .pure ()

theorem safe_perform (instruction : Instruction) :
    Safe offset (context.perform offset instruction) := by
  unfold perform
  cases hop : instruction.operation
  case pushImmediate =>
    simp only
    split
    · exact safe_push offset _
    · exact safe_push offset _
    · exact .lift (.defect _)
  case loadConstant => exact context.safe_loadConstant offset instruction
  case load => exact (safe_load _).bind fun _ => safe_push offset _
  case store => exact (safe_pop _).bind fun _ => safe_store _ _
  case arrayLoad =>
    exact (safe_popEach 2).bind fun _ => context.safe_pushFresh offset _ false
  case arrayStore => exact (safe_pop _).bind fun _ => safe_popEach 2
  case shuffle move => exact safe_shuffle offset instruction move
  case arithmetic operator kind =>
    exact context.safe_binary offset fun _ _ => ordinary_foldArithmetic operator
  case negate kind => exact context.safe_unary offset fun _ => ordinary_foldNegation
  case shift operator kind =>
    exact context.safe_binary offset fun _ _ => ordinary_foldShift operator
  case bitwise operator kind =>
    exact context.safe_binary offset fun _ _ => ordinary_foldBitwise operator
  case increment => exact context.safe_increment offset instruction
  case convert source target =>
    exact context.safe_unary offset fun _ => ordinary_foldConversion target
  case narrow target =>
    exact context.safe_unary offset fun _ ha =>
      (Value.ordinary_expectInt ha).bind fun _ _ => .ok _
  case compareLong =>
    exact context.safe_binary offset fun _ _ => ordinary_foldCompareLong
  case compareFloating kind unordered =>
    exact context.safe_binary offset fun _ _ => ordinary_foldCompareFloating unordered
  case returnValue => exact (safe_pop _).bind fun _ => .pure ()
  case getField static => exact context.safe_getField offset static instruction
  case putField static => exact context.safe_putField offset static instruction
  case newObject => exact context.safe_pushFresh offset _ true
  case newArray | arrayLength =>
    exact (safe_popEach 1).bind fun _ => context.safe_pushFresh offset _ _
  case newMultiArray =>
    simp only
    split
    · exact (safe_popEach _).bind fun _ => context.safe_pushFresh offset _ true
    · exact .lift (.defect _)
  case raise | monitor => exact safe_popEach 1
  case checkCast =>
    refine (safe_pop 1).bind fun value => .ite (safe_push offset _) ?_
    exact context.safe_pushFresh offset _ _
  case instanceOf =>
    exact (safe_pop 1).bind fun _ =>
      (context.safe_computed offset .int _).bind fun _ => safe_push offset _
  all_goals first
    | exact safe_push offset _
    | exact .pure ()
    | exact .lift (.error rfl)

theorem safe_condition (operation : Operation) : Safe offset (condition operation) := by
  unfold condition
  split
  · exact safe_bind_popKind fun a ha =>
      (Safe.lift (Value.ordinary_expectInt ha)).bind fun _ => .pure _
  · refine safe_bind_popKind fun b hb => safe_bind_popKind fun a ha =>
      (Safe.lift (Value.ordinary_expectInt ha)).bind fun x =>
        (Safe.lift (Value.ordinary_expectInt hb)).bind fun y => ?_
    split <;> exact .pure _
  · exact (safe_pop 1).bind fun _ => (safe_pop 1).bind fun _ => .pure _
  · exact (safe_pop 1).bind fun _ => .pure _
  · exact .pure _

theorem ordinary_firstTarget (missing : Defect) :
    Ordinary (firstTarget offset instruction missing) :=
  (instruction.ordinary_branchTargets offset).bind fun _ _ => Ordinary.orDefect _ _

theorem layout?_of_switch {opcode : Opcode} (h : opcode.operation = .switch) :
    opcode.layout? = some .table ∨ opcode.layout? = some .lookup := by
  have hall := Opcode.of_all (p := fun opcode => opcode.operation != .switch ||
    (opcode.layout? = some .table || opcode.layout? = some .lookup)) (by decide +kernel) opcode
  simpa [h] using hall

/-- A switch has a target for every key: as many as the bounds of its table say, and one behind
every case. -/
theorem ordinary_switchTarget {targets : List Nat} (hw : instruction.WellFormed)
    (hop : instruction.operation = .switch)
    (htargets : instruction.branchTargets offset = .ok targets) (key : Int32) :
    Ordinary (switchTarget instruction.operand targets key) := by
  have hlength : instruction.displacements.length = targets.length :=
    (forall₂_of_mapM htargets).length_eq
  obtain ⟨layout, hlayout, hadmits⟩ := hw
  have hswitch : layout = .table ∨ layout = .lookup := by
    rcases layout?_of_switch hop with h | h <;> rw [h] at hlayout <;> simp_all
  unfold Instruction.displacements at hlength
  refine .orFail_of_isSome ?_
  rw [isSome_getElem?]
  rcases hswitch with rfl | rfl
  · cases hoperand : instruction.operand <;> rw [hoperand] at hadmits <;> try exact hadmits.elim
    rename_i default low high displacements
    rw [hoperand] at hlength
    obtain ⟨-, hcount⟩ := hadmits
    simp only [List.length_cons] at hlength ⊢
    split
    · rename_i hrange
      have hlow := Int32.le_iff_toInt_le.mp hrange.1
      have hhigh := Int32.le_iff_toInt_le.mp hrange.2
      omega
    · omega
  · cases hoperand : instruction.operand <;> rw [hoperand] at hadmits <;> try exact hadmits.elim
    rename_i default cases
    rw [hoperand] at hlength
    simp only [List.length_cons, List.length_map] at hlength ⊢
    split
    · rename_i index hindex
      obtain ⟨hlt, -⟩ := List.findIdx?_eq_some_iff_getElem.mp hindex
      omega
    · omega

/-- **Executing an instruction that was read fails only if the class file is malformed.** -/
theorem safe_run (next : Nat) (hw : instruction.WellFormed) :
    Safe offset (context.run offset next instruction) := by
  unfold run
  cases hop : instruction.operation
  case branchZero | branchInt | branchReference | branchNull =>
    exact (safe_condition offset _).bind fun _ =>
      (Safe.lift (ordinary_firstTarget offset _)).bind fun _ => .pure _
  case jump => exact (Safe.lift (instruction.ordinary_branchTargets _)).bind fun _ => .pure _
  case subroutine =>
    exact (Safe.lift (ordinary_firstTarget offset _)).bind fun _ =>
      (safe_push offset _).bind fun _ => .pure _
  case ret =>
    exact (Safe.lift (.orDefect _ _)).bind fun _ => (safe_load _).bind fun _ =>
      (Safe.lift (.orDefect _ _)).bind fun _ => .pure _
  case switch =>
    refine safe_bind_popKind fun value hvalue =>
      (Safe.lift (Value.ordinary_expectInt hvalue)).bind fun key => ?_
    refine .bind_lift (instruction.ordinary_branchTargets _) fun targets htargets => ?_
    cases key with
    | none => exact .pure _
    | some key =>
      exact (Safe.lift (ordinary_switchTarget offset hw hop htargets key)).bind
        fun _ => .pure _
  case invoke mode => exact (context.safe_invoke offset mode _).bind fun _ => .pure _
  all_goals exact (context.safe_perform offset _).bind fun _ => .pure _

theorem ordinary_execute (next : Nat) (frame : Frame) (hw : instruction.WellFormed) :
    Ordinary (context.execute offset next instruction frame) :=
  (context.safe_run offset next hw frame).ordinary.bind fun _ _ => .ok _

/-- Executing an instruction leaves words that it pushed or that were there before. -/
theorem traces_execute {next : Nat} {frame : Frame} {step : Step} (hw : instruction.WellFormed)
    (h : context.execute offset next instruction frame = .ok step) :
    frame.Traces offset step.frame := by
  obtain ⟨result, hrun, hstep⟩ := Except.bind_eq_ok.mp h
  cases hstep
  exact (context.safe_run offset next hw frame).traces result hrun

end Context

end JvmTrim
