import JvmTrim.Proofs.Agreement

/-!
# Executing what is emitted

What is emitted for an instruction runs on a store that agrees with that of the body, and the two
stores afterwards agree again. There is one lemma for each way in which an instruction is repaired. A
necessary instruction that stays finds all that it takes, with the same numbers, and depends on
nothing else. Anything else begins with pops of what is left of the inputs, whatever they hold, and
goes on with a push: of the constant that the instruction always gives, of a lower variable that holds
the same number, or of any number of the right size, which nobody needs. A stack manipulation becomes
one that copies what is left of the words.

## Main results

* `Machine.exists_pushed`: what an instruction gives is one number, stack manipulations apart
* `MethodContext.Decided.execute_of_necessary`: an instruction that stays does the same in both runs
* `MethodContext.Decided.agreeAfter_of_pops`: pops of the inputs, up to what the instruction gives
* `MethodContext.Decided.agreeAfter_of_stays`, `agreeAfter_of_unused`, `agreeAfter_of_constant`,
  `agreeAfter_of_alias`, `agreeAfter_of_unnecessary`, `agreeAfter_of_shuffle`,
  `agreeAfter_of_branch`: the stores agree afterwards
-/

namespace JvmTrim

/-! ## What an instruction gives -/

namespace Machine

variable {pool : ConstantPool} {instruction : Instruction} {effect : StackEffect}

/-- Whether a computation ends with a push of one number. -/
def Pushing (x : Machine Unit) : Prop :=
  ∀ store store', x store = .ok ((), store') →
    ∃ (word : Cell) (rest : List Cell), store'.stack = word.pushed ++ rest

theorem pushing_reject : Pushing reject := nofun

theorem pushing_finish (outcome : Outcome) : Pushing (finish outcome) := nofun

theorem pushing_pushInt (value : Int32) : Pushing (pushInt value) := by
  intro store store' h
  cases h
  exact ⟨.int value, store.stack, rfl⟩

theorem pushing_pushLong (value : Int64) : Pushing (pushLong value) := by
  intro store store' h
  cases h
  exact ⟨.long value, store.stack, rfl⟩

theorem Pushing.bind {α : Type} {x : Machine α} {f : α → Machine Unit}
    (hf : ∀ a, Pushing (f a)) : Pushing (x >>= f) := by
  intro store store' h
  obtain ⟨a, middle, -, h⟩ := StateT.bind_eq_ok.mp h
  exact hf a middle store' h

theorem pushing_arithmeticInt (operator : Arithmetic) : Pushing (arithmeticInt operator) := by
  refine .bind fun b => .bind fun a => ?_
  cases operator with
  | add => exact pushing_pushInt _
  | sub => exact pushing_pushInt _
  | mul => exact pushing_pushInt _
  | div | rem =>
    dsimp only
    split
    · exact pushing_finish _
    · exact pushing_pushInt _

theorem pushing_arithmeticLong (operator : Arithmetic) : Pushing (arithmeticLong operator) := by
  refine .bind fun b => .bind fun a => ?_
  cases operator with
  | add => exact pushing_pushLong _
  | sub => exact pushing_pushLong _
  | mul => exact pushing_pushLong _
  | div => exact pushing_reject
  | rem => exact pushing_reject

theorem pushing_loadConstant (pool : ConstantPool) (instruction : Instruction) :
    Pushing (loadConstant pool instruction) := by
  unfold loadConstant
  split
  · split
    · exact pushing_pushInt _
    · exact pushing_pushLong _
    · exact pushing_reject
  · exact pushing_reject

/-- An instruction that goes on with the next one ends with a push if it gives anything. -/
theorem pushing_perform (he : instruction.stackEffect pool = .ok effect)
    (hpos : 0 < effect.pushes) (hnot : instruction.isShuffle = false) :
    Pushing (perform pool instruction) := by
  unfold Instruction.stackEffect at he
  unfold perform
  cases hop : instruction.operation
  all_goals simp only [hop] at he
  case shuffle move =>
    rw [Instruction.isShuffle, Instruction.shuffle?_eq_some_iff.mpr hop] at hnot
    cases hnot
  case nop | store | increment | returnValue | returnVoid =>
    cases he
    exact absurd hpos (Nat.lt_irrefl 0)
  case load kind slot =>
    cases kind with
    | int => exact .bind fun _ => pushing_pushInt _
    | long => exact .bind fun _ => pushing_pushLong _
    | _ => exact pushing_reject
  case pushInt value => exact pushing_pushInt value
  case pushLong value => exact pushing_pushLong value
  case pushImmediate =>
    cases instruction.operand with
    | byte value => exact pushing_pushInt _
    | short value => exact pushing_pushInt _
    | _ => exact pushing_reject
  case loadConstant wide => exact pushing_loadConstant pool instruction
  case arithmetic operator kind =>
    cases kind with
    | int => exact pushing_arithmeticInt operator
    | long => exact pushing_arithmeticLong operator
    | _ => exact pushing_reject
  case shift operator kind =>
    cases kind with
    | int => exact .bind fun _ => .bind fun _ => pushing_pushInt _
    | _ => exact pushing_reject
  case bitwise operator kind =>
    cases kind with
    | int => exact .bind fun _ => .bind fun _ => pushing_pushInt _
    | long => exact .bind fun _ => .bind fun _ => pushing_pushLong _
  case negate kind =>
    cases kind with
    | int => exact .bind fun _ => pushing_pushInt _
    | _ => exact pushing_reject
  case convert source target =>
    cases source <;> cases target
    case int.long => exact .bind fun _ => pushing_pushLong _
    case long.int => exact .bind fun _ => pushing_pushInt _
    all_goals exact pushing_reject
  case compareLong => exact .bind fun _ => .bind fun _ => pushing_pushInt _
  all_goals exact pushing_reject

/-- **What an instruction gives is one number**, stack manipulations apart. -/
theorem exists_pushed {exit : Option Nat} {store store' : Store}
    (he : instruction.stackEffect pool = .ok effect) (hpos : 0 < effect.pushes)
    (hnot : instruction.isShuffle = false)
    (h : execute pool instruction store = .ok (exit, store')) :
    ∃ (word : Cell) (rest : List Cell), store'.stack = word.pushed ++ rest := by
  have hperform := pushing_perform he hpos hnot
  unfold Instruction.stackEffect at he
  unfold execute at h
  cases hop : instruction.operation
  all_goals simp only [hop] at he h
  case branchZero | branchInt | jump | switch =>
    cases he
    exact absurd hpos (Nat.lt_irrefl 0)
  all_goals
    obtain ⟨_, middle, hx, hend⟩ := StateT.bind_eq_ok.mp h
    obtain ⟨-, rfl⟩ := StateT.pure_eq_ok.mp hend
    exact hperform store _ hx

end Machine

/-- An instruction that gives something does not branch. -/
theorem Machine.exit_eq_none {pool : ConstantPool} {instruction : Instruction}
    {effect : StackEffect} {exit : Option Nat} {store store' : Store}
    (he : instruction.stackEffect pool = .ok effect) (hpos : 0 < effect.pushes)
    (h : execute pool instruction store = .ok (exit, store')) : exit = none := by
  unfold Instruction.stackEffect at he
  unfold execute at h
  cases hop : instruction.operation
  all_goals simp only [hop] at he h
  case branchZero | branchInt | jump | switch =>
    cases he
    exact absurd hpos (Nat.lt_irrefl 0)
  all_goals
    obtain ⟨_, middle, -, hend⟩ := StateT.bind_eq_ok.mp h
    exact (StateT.pure_eq_ok.mp hend).1

/-- A number has the kind of the value that holds of it. -/
theorem Value.exists_kind {names : Naming} {value : Value} {word : Cell}
    (h : value.Holds names word) (hne : value ≠ .top) :
    ∃ kind, value.kind? = some kind ∧ word.kind? = some kind := by
  cases value with
  | top => exact absurd rfl hne
  | int a =>
    cases word with
    | int number => exact ⟨.int, rfl, rfl⟩
    | _ => exact h.elim
  | long a =>
    cases word with
    | long number => exact ⟨.long, rfl, rfl⟩
    | _ => exact h.elim
  | _ => cases word <;> exact h.elim

/-- A particular value only holds of its own constant. -/
theorem Value.constant?_of_holds {names : Naming} {value : Value} {word : Cell}
    (h : value.Holds names word) (hp : value.isParticular = true) (hne : value ≠ .top) :
    value.constant? = some word := by
  cases value with
  | top => exact absurd rfl hne
  | int a =>
    cases word with
    | int number =>
      cases a with
      | particular known =>
        cases h
        rfl
      | _ => cases hp
    | _ => exact h.elim
  | long a =>
    cases word with
    | long number =>
      cases a with
      | particular known =>
        cases h
        rfl
      | _ => cases hp
    | _ => exact h.elim
  | _ => cases word <;> exact h.elim

/-- What a step gives is the number that the evaluation recorded on top of the stack. -/
theorem Evaluation.Advances.exists_given {evaluation : Evaluation} {options : EvaluationOptions}
    {pool : ConstantPool} {handlers : List Handler} {state next : Machine.State} {before : Frame}
    {instruction : Instruction} {step : Step} {exit : Option Nat} {names names' : Naming}
    {effect : StackEffect} {given rest : List Cell}
    (ha : evaluation.Advances options pool handlers state next before instruction step exit names
      names') (hfits : instruction.loadFits pool = true) (hnot : instruction.isShuffle = false)
    (he : instruction.stackEffect pool = .ok effect) (hpos : 0 < effect.pushes)
    (hnext : next.stack = given ++ rest) (hlength : given.length = effect.pushes) :
    ∃ value word kind, step.frame.stack.get? (step.frame.stack.height - 1) =
        some ⟨value, OriginSet.ofInstruction state.offset⟩ ∧ value.Holds names' word ∧
      value.kind? = some kind ∧ word.kind? = some kind ∧ kind.size = effect.pushes ∧
      given = word.pushed := by
  obtain ⟨effect', pushed, heffect, hpushed, hmoves⟩ :=
    Context.execute_moves ha.settled.execute hfits hnot
  cases he.symm.trans heffect
  rcases hpushed with ⟨hzero, -⟩ | ⟨value, hne, hsize, rfl⟩
  · omega
  have hheight := hmoves.length_eq
  rw [length_pushedWords, hsize] at hheight
  have hget := hmoves.get?_pushed (show _ ≤ step.frame.stack.height - 1 by omega) (by omega)
  rw [Nat.sub_self, getElem?_zero_pushedWords] at hget
  obtain ⟨word, below, hword⟩ := Machine.exists_pushed he hpos hnot ha.execute
  have hholds : value.Holds names' word := by
    obtain ⟨kept, hview, -⟩ := hmoves.view
    have hstack := ha.holds_after.stack
    rw [hview, hword] at hstack
    unfold pushedWords at hstack
    cases word <;> split at hstack <;> exact (List.forall₂_cons.mp hstack).1
  obtain ⟨kind, hvalue, hkind⟩ := value.exists_kind hholds hne
  rw [Value.size_of_kind? hvalue] at hsize
  refine ⟨value, word, kind, hget, hholds, hvalue, hkind, hsize, ?_⟩
  refine (List.append_inj (hnext.symm.trans hword) ?_).1
  rw [hlength, Cell.length_pushed hkind, hsize]

/-- A load pushes what its variable holds. -/
theorem Machine.load_of_execute {pool : ConstantPool} {instruction : Instruction} {kind : Kind}
    {index : UInt16} {exit : Option Nat} {store store' : Store}
    (haccess : instruction.localAccess? = some (.load, kind, index))
    (h : execute pool instruction store = .ok (exit, store')) : ∃ word : Cell,
      word.kind? = some kind ∧ store.locals[index.toNat]? = some word ∧
        store' = ⟨word.pushed ++ store.stack, store.locals⟩ := by
  obtain ⟨slot, hop, rfl⟩ := operation_of_localAccess? haccess
  unfold execute at h
  simp only [hop] at h
  obtain ⟨_, middle, hload, hend⟩ := StateT.bind_eq_ok.mp h
  obtain ⟨-, rfl⟩ := StateT.pure_eq_ok.mp hend
  unfold perform at hload
  cases kind with
  | int =>
    simp only [hop] at hload
    obtain ⟨number, _, hread, hpush⟩ := StateT.bind_eq_ok.mp hload
    obtain ⟨rfl, hread⟩ := readInt_eq_ok hread
    exact ⟨.int number, rfl, hread, push_eq_ok hpush⟩
  | long =>
    simp only [hop] at hload
    obtain ⟨number, _, hread, hpush⟩ := StateT.bind_eq_ok.mp hload
    obtain ⟨rfl, hread⟩ := readLong_eq_ok hread
    exact ⟨.long number, rfl, hread, push_eq_ok hpush⟩
  | _ =>
    simp only [hop] at hload
    cases hload

/-- A load writes no variable. -/
theorem Context.locals_of_load {context : Context} {offset next : Nat} {instruction : Instruction}
    {frame : Frame} {step : Step} {kind : Kind} {index : UInt16}
    (haccess : instruction.localAccess? = some (.load, kind, index))
    (h : context.execute offset next instruction frame = .ok step) :
    step.frame.locals = frame.locals := by
  obtain ⟨slot, hop, rfl⟩ := Machine.operation_of_localAccess? haccess
  have hload := perform_of_execute h (congrArg Operation.flow hop)
    fun mode hcall => by cases hop.symm.trans hcall
  unfold perform at hload
  simp only [hop] at hload
  obtain ⟨value, loaded, hread, hpush⟩ := StateT.bind_eq_ok.mp hload
  obtain ⟨rfl, -⟩ := Transfer.load_eq_ok hread
  exact (Transfer.push_eq_ok hpush).2

/-- The variable that a load is redirected to is known to hold the same. -/
theorem lowestAlias?_eq_some {locals : Locals} {index slot : UInt16} {value : Value}
    (h : lowestAlias? locals index value = some slot) :
    ∃ found, locals.load slot = .ok found ∧ found.value.sameIdentity value = true := by
  obtain ⟨i, hi, rfl⟩ := Option.map_eq_some_iff.mp h
  obtain ⟨hlt, hsame, -⟩ := List.findIdx?_eq_some_iff_getElem.mp hi
  rw [List.length_take] at hlt
  have hindex := index.toNat_lt
  have hsmall : (UInt16.ofNat i).toNat = i := by
    rw [UInt16.toNat_ofNat']
    exact Nat.mod_eq_of_lt (by omega)
  rw [List.getElem_take, Array.getElem_toList] at hsame
  refine ⟨_, Locals.load_eq_ok.mpr ?_, hsame⟩
  rw [hsmall]
  exact Array.getElem?_eq_getElem _

theorem Cell.head?_pushed_append (word : Cell) (rest : List Cell) :
    (word.pushed ++ rest).head? = some word := by
  cases word <;> rfl

/-- What is pushed for a number that the machine knows is known to the machine. -/
theorem Instruction.Gives.exists_constant {pool : ConstantPool} {instruction : Instruction}
    {value : Value} {word : Cell} {kind : Kind} (h : instruction.Gives pool value)
    (hvalue : value.kind? = some kind) (hword : word.kind? = some kind) :
    ∃ constant, value.constant? = some constant ∧ constant.kind? = some kind := by
  cases h with
  | null | float | double =>
    cases hvalue
    cases word <;> cases hword
  | int | long | byte | short =>
    cases hvalue
    exact ⟨_, rfl, rfl⟩
  | entry hentry =>
    unfold Value.entry? at hentry
    split at hentry
    · cases hvalue
      exact ⟨_, rfl, rfl⟩
    · cases hvalue
      cases word <;> cases hword
    · cases hvalue
      exact ⟨_, rfl, rfl⟩
    · cases hvalue
      cases word <;> cases hword
    · cases hentry

/-- A stack manipulation copies words from the top of the stack. -/
theorem Machine.shuffle_of_execute {pool : ConstantPool} {instruction : Instruction}
    {move : Shuffle} {exit : Option Nat} {store store' : Store}
    (hop : instruction.operation = .shuffle move)
    (h : execute pool instruction store = .ok (exit, store')) : exit = none ∧
      ∃ copies, move.copied? store.stack = some copies ∧
        store' = ⟨copies ++ store.stack.drop move.pops, store.locals⟩ := by
  unfold execute perform at h
  simp only [hop] at h
  obtain ⟨_, middle, hshuffle, hend⟩ := StateT.bind_eq_ok.mp h
  obtain ⟨rfl, rfl⟩ := StateT.pure_eq_ok.mp hend
  exact ⟨rfl, shuffle_eq_ok hshuffle⟩

/-- Copies of words, by the sources that they are copied from. -/
theorem Shuffle.eq_of_copied? {α : Type} [Inhabited α] {move : Shuffle} {words copies : List α}
    (h : move.copied? words = some copies) : copies =
      (move.outputs.map fun source => (words[move.pops - 1 - source]?).getD default).reverse := by
  obtain ⟨-, hcopies⟩ := copied?_eq_some h
  rw [← List.map_reverse]
  clear h
  generalize move.outputs.reverse = sources at hcopies ⊢
  induction hcopies with
  | nil => rfl
  | cons hfirst _ ih =>
    rw [List.map_cons, ← ih, hfirst]
    rfl

/-- An instruction that writes a variable goes on with the next one. -/
theorem Instruction.Stores.flow_eq {instruction : Instruction} (h : instruction.Stores) :
    instruction.flow = .sequential := by
  unfold Instruction.flow
  rcases h with ⟨kind, slot, hop⟩ | hop
  all_goals
    rw [hop]
    rfl

/-! ## Instructions that stay -/

/-- If all positions of a range are counted or none, it is the same for each of them. -/
theorem eq_of_countP_range {p : Nat → Bool} {all : Bool} {first count position : Nat}
    (h : ((List.range count).countP fun k => p (first + k)) = if all then count else 0)
    (hge : first ≤ position) (hlt : position < first + count) : p position = all := by
  obtain ⟨k, rfl⟩ := Nat.exists_eq_add_of_le hge
  have hmem : k ∈ List.range count := List.mem_range.mpr (by omega)
  cases all with
  | false =>
    rw [if_neg Bool.false_ne_true, List.countP_eq_zero] at h
    exact Bool.eq_false_iff.mpr (h k hmem)
  | true =>
    rw [if_pos rfl] at h
    exact List.countP_eq_length.mp (h.trans List.length_range.symm) k hmem

/-- All words that an instruction gives are present or none. -/
theorem Subject.Presence.isPresent_eq_top {subject : Subject} {options : EvaluationOptions}
    {entry before : Frame} {original reductions : Reductions} {simple : Evaluation} {marks : Marks}
    {offset : Nat} {instruction : Instruction} {step : Step} {effect : StackEffect}
    (h : subject.Presence options entry original simple marks reductions)
    (hr : marks.reachable.contains offset = true)
    (hs : subject.evaluation.Settled options subject.pool subject.code.handlers offset before
      instruction step) (hnot : instruction.isShuffle = false)
    (he : instruction.stackEffect subject.pool = .ok effect) {position : Nat}
    (hge : before.stack.height - effect.pops ≤ position)
    (hlt : position < before.stack.height - effect.pops + effect.pushes) :
    marks.isPresent (.instruction offset) position =
      marks.isPresent (.instruction offset) (step.frame.stack.height - 1) := by
  exact eq_of_countP_range (h.countP_isPresent hr hs hnot he) hge hlt

/-- Stores that agree agree on the words on top and on those below. -/
theorem Marks.Agree.split {marks : Marks} {before : Frame} {store store' : Store}
    {top rest : List Cell} (h : marks.Agree before store store') (hstack : store.stack = top ++ rest) :
    ∃ top' rest', store'.stack = top' ++ rest' ∧
      Selects (marks.wordPresent before.stack · = true) (marks.wordNeeded before.stack) rest.length
        top top' ∧
      Selects (marks.wordPresent before.stack · = true) (marks.wordNeeded before.stack) 0 rest
        rest' := by
  have hselects := h.stack
  rw [hstack, Selects.append_iff, Nat.zero_add] at hselects
  exact hselects

namespace MethodContext.Decided

variable {context : MethodContext} {pool pool' : ConstantPool} {decision : Decision}
  {sideEffects : IndexSet} {entry before : Frame} {original : Reductions} {simple : Evaluation}
  {instruction : Instruction} {step : Step} {effect : StackEffect} {exit : Option Nat}
  {names names' : Naming} {offset : Nat} {store store' : Store} {outcome : Outcome}
  {state next : Machine.State} {output : Option Value} {code pops : List Instruction}
  (h : context.Decided pool decision sideEffects entry original simple)

include h

/-- What a necessary instruction that stays takes and reads is the same in both runs. -/
theorem inputs_agree (hb : decision.evaluation.before? offset = some before)
    (hs : decision.evaluation.Settled context.preciseOptions pool context.code.handlers offset
      before instruction step)
    (hn : decision.marks.necessary.contains offset = true)
    (hreduction : decision.reductions[offset]? = some none)
    (hnot : instruction.isShuffle = false) (he : instruction.stackEffect pool = .ok effect)
    (hagree : decision.marks.Agree before store store') {top rest : List Cell}
    (hstack : store.stack = top ++ rest) (htop : top.length = effect.pops)
    (hrest : rest.length = before.stack.height - effect.pops)
    (hheight : store.stack.length = before.stack.height) :
    ∃ rest', store'.stack = top ++ rest' ∧
      Selects (decision.marks.wordPresent before.stack · = true)
        (decision.marks.wordNeeded before.stack) 0 rest rest' ∧
      ∀ slot, instruction.reads? = some slot →
        store'.locals[slot.toNat]? = store.locals[slot.toNat]? := by
  have hunreduced : (context.subject pool decision.evaluation sideEffects).Unreduced
      decision.reductions offset instruction := ⟨hs.listed, hreduction, hnot⟩
  have hclosed := h.presence.marked.closed
  obtain ⟨top', rest', hstack', hselects, hbelow⟩ := hagree.split hstack
  have hequal : top' = top := by
    refine hselects.eq_of_needed fun position hge hlt => ⟨?_, fun word hw origin ho => ?_⟩
    · rw [hstack, List.length_append] at hheight
      exact h.wordPresent_of_necessary hb hs.listed hn hreduction hnot he (by omega) (by omega)
    · exact hclosed (.necessary offset) _ hn
        (.operand hunreduced (congrArg (Option.map Frame.stack) hb) he (by omega) hw ho)
  rw [hequal] at hstack'
  refine ⟨rest', hstack', hbelow, fun slot hread => ?_⟩
  obtain ⟨found, hfound⟩ := Context.load_of_reads? hs.execute hread
  refine hagree.locals.slot slot.toNat found (Locals.load_eq_ok.mp hfound) fun producer ho hr => ?_
  exact hclosed (.necessary offset) _ hn
    (.variable (.inr ⟨instruction, hunreduced, Instruction.readSlot?_of_reads? hread⟩)
      (congrArg (Option.map Frame.locals) hb) hfound ho hr)

/-- A necessary instruction that stays and ends the run does so in both runs. -/
theorem finished_of_necessary (hextends : pool.Extends pool')
    (hb : decision.evaluation.before? offset = some before)
    (hs : decision.evaluation.Settled context.preciseOptions pool context.code.handlers offset
      before instruction step)
    (hn : decision.marks.necessary.contains offset = true)
    (hreduction : decision.reductions[offset]? = some none)
    (hnot : instruction.isShuffle = false) (hholds : before.Holds names store)
    (hagree : decision.marks.Agree before store store')
    (hfinished : Machine.execute pool instruction store = .error (.finished outcome)) :
    Machine.execute pool' instruction store' = .error (.finished outcome) := by
  obtain ⟨effect, pushed, he, -, -, hmoves⟩ :=
    Context.execute_effect hs.execute (h.presence.faithful.fits _ _ hs.listed)
  have hle := hmoves.le_height
  have hheight := hholds.height_eq
  have htop : (store.stack.take effect.pops).length = effect.pops :=
    List.length_take_of_le (by omega)
  have hstack := (List.take_append_drop effect.pops store.stack).symm
  obtain ⟨rest', hstack', -, hreads⟩ := h.inputs_agree hb hs hn hreduction hnot he hagree hstack
    htop (by rw [List.length_drop, hheight]) hheight
  have hlocal : Machine.execute pool instruction
      ⟨store.stack.take effect.pops ++ rest', store'.locals⟩ = .error (.finished outcome) :=
    (Machine.local_execute he (store.stack.take effect.pops) (store.stack.drop effect.pops) rest'
      store.locals store'.locals (Nat.le_of_eq htop.symm) hagree.locals.length hreads).1 outcome
        (by rw [← hstack]; exact hfinished)
  rw [← hstack'] at hlocal
  rcases Machine.execute_of_extends hextends instruction store' with hrejected | hsame
  · rw [hrejected] at hlocal
    cases hlocal
  · rw [hsame]
    exact hlocal

/-- **A necessary instruction that stays** does the same in both runs. -/
theorem execute_of_necessary (hextends : pool.Extends pool')
    (ha : decision.evaluation.Advances context.preciseOptions pool context.code.handlers state next
      before instruction step exit names names')
    (hn : decision.marks.necessary.contains state.offset = true)
    (hreduction : decision.reductions[state.offset]? = some none)
    (hnot : instruction.isShuffle = false) (he : instruction.stackEffect pool = .ok effect)
    (hagree : decision.marks.Agree before state.toStore store') :
    ∃ given rest rest' changed, next.stack = given ++ rest ∧
      given.length = effect.pushes ∧ rest.length = before.stack.height - effect.pops ∧
      Machine.execute pool' instruction store' = .ok (exit, ⟨given ++ rest', changed⟩) ∧
      Selects (decision.marks.wordPresent before.stack · = true)
        (decision.marks.wordNeeded before.stack) 0 rest rest' ∧
      decision.marks.AgreeOn step.frame.locals next.locals changed := by
  obtain ⟨top, rest, given, hstack, hnext, htop, hrest, hgiven⟩ :=
    ha.splits (h.presence.faithful.fits _ _ ha.settled.listed) he
  obtain ⟨rest', hstack', hbelow, hreads⟩ := h.inputs_agree ha.recorded ha.settled hn hreduction
    hnot he hagree hstack htop hrest ha.holds.height_eq
  obtain ⟨left, changed, -, hleft, hexecute, hrewrites⟩ := (Machine.local_execute he top rest rest'
    state.locals store'.locals (Nat.le_of_eq htop.symm) hagree.locals.length hreads).2 exit
      next.toStore (by rw [← hstack]; exact ha.execute)
  obtain rfl : left = given := List.append_cancel_right (hleft.symm.trans hnext)
  rw [← hstack'] at hexecute
  refine ⟨left, rest, rest', changed, hnext, hgiven, hrest, ?_, hbelow,
    h.presence.agreeOn_of_rewrites ha hagree.locals hrewrites⟩
  rcases Machine.execute_of_extends hextends instruction store' with hrejected | hsame
  · rw [hrejected] at hexecute
    cases hexecute
  · rw [hsame]
    exact hexecute

/-- All words that an instruction gives are present if its output is, and none else. -/
theorem isPresent_eq_isSome (hr : decision.marks.reachable.contains offset = true)
    (hs : decision.evaluation.Settled context.preciseOptions pool context.code.handlers offset
      before instruction step) (hnot : instruction.isShuffle = false)
    (he : instruction.stackEffect pool = .ok effect)
    (ho : decision.presentOutput offset effect.pushes = .ok output) {position : Nat}
    (hge : before.stack.height - effect.pops ≤ position)
    (hlt : position < before.stack.height - effect.pops + effect.pushes) :
    decision.marks.isPresent (.instruction offset) position = output.isSome := by
  refine eq_of_countP_range ?_ hge hlt
  rcases h.presentOutput_spec hr hs hnot he ho with ⟨rfl, hcount⟩ | ⟨value, rfl, -, hcount⟩
  · exact hcount
  · exact hcount

/-- An instruction that stays leaves its output if all of it is present. -/
theorem agreeAfter_of_stays (hextends : pool.Extends pool')
    (ha : decision.evaluation.Advances context.preciseOptions pool context.code.handlers state next
      before instruction step exit names names')
    (hhandles : decision.Handles pool state.offset instruction none effect)
    (hn : decision.marks.necessary.contains state.offset = true)
    (ho : decision.presentOutput state.offset effect.pushes = .ok output)
    (hgives : effect.pushes = 0 ∨ output.isSome = true)
    (hagree : decision.marks.Agree before state.toStore store') :
    ∃ store₂, Machine.execute pool' instruction store' = .ok (exit, store₂) ∧
      decision.marks.AgreeAfter state.offset (before.stack.height - effect.pops) before.stack
        step.frame.locals next.toStore store₂ := by
  obtain ⟨given, rest, rest', changed, hnext, hgiven, hrest, hexecute, hbelow, hlocals⟩ :=
    h.execute_of_necessary hextends ha hn hhandles.reduction hhandles.not_shuffle hhandles.effect
      hagree
  refine ⟨_, hexecute, ⟨given, rest, given, rest', hnext, rfl, hrest, hbelow, ?_⟩, hlocals⟩
  refine .of_present rfl (fun position hge hlt => ?_) fun _ _ _ _ => rfl
  rw [h.isPresent_eq_isSome hhandles.reachable ha.settled hhandles.not_shuffle hhandles.effect ho
    hge (by omega)]
  exact hgives.resolve_left (by omega)

/-- An instruction that stays leaves its output on top of what is present if nothing of it is. -/
theorem agreeAfter_of_unused (hextends : pool.Extends pool')
    (ha : decision.evaluation.Advances context.preciseOptions pool context.code.handlers state next
      before instruction step exit names names')
    (hhandles : decision.Handles pool state.offset instruction none effect)
    (hn : decision.marks.necessary.contains state.offset = true)
    (ho : decision.presentOutput state.offset effect.pushes = .ok none)
    (hagree : decision.marks.Agree before state.toStore store') :
    ∃ given store₂, given.length = effect.pushes ∧
      Machine.execute pool' instruction store' = .ok (exit, ⟨given ++ store₂.stack, store₂.locals⟩) ∧
      decision.marks.AgreeAfter state.offset (before.stack.height - effect.pops) before.stack
        step.frame.locals next.toStore store₂ := by
  obtain ⟨given, rest, rest', changed, hnext, hgiven, hrest, hexecute, hbelow, hlocals⟩ :=
    h.execute_of_necessary hextends ha hn hhandles.reduction hhandles.not_shuffle hhandles.effect
      hagree
  refine ⟨given, ⟨rest', changed⟩, hgiven, hexecute,
    ⟨given, rest, [], rest', hnext, rfl, hrest, hbelow, ?_⟩, hlocals⟩
  refine .nil_of_absent fun position hge hlt => ?_
  rw [h.isPresent_eq_isSome hhandles.reachable ha.settled hhandles.not_shuffle hhandles.effect ho
    hge (by omega)]
  exact Bool.false_ne_true

/-! ## Instructions that something stands in for -/

/-- Pops of the inputs of an instruction take what is left of them. -/
theorem performs_inputPops (pool' : ConstantPool) {count : Nat}
    {top top' rest rest' locals : List Cell}
    (hr : decision.marks.reachable.contains offset = true)
    (hb : decision.evaluation.before? offset = some before)
    (hp : decision.inputPops offset count = .ok pops) (htop : top.length = count)
    (hrest : rest.length = before.stack.height - count)
    (hselects : Selects (decision.marks.wordPresent before.stack · = true)
      (decision.marks.wordNeeded before.stack) rest.length top top')
    (hbelow : Selects (decision.marks.wordPresent before.stack · = true)
      (decision.marks.wordNeeded before.stack) 0 rest rest') :
    Machine.Performs pool' pops ⟨top' ++ rest', locals⟩ ⟨rest', locals⟩ := by
  obtain ⟨hle, rfl⟩ := Decision.inputPops_eq_ok hb hp
  have hlength : rest'.length = decision.marks.presentBelow before.stack rest.length := by
    have := hbelow.presentBelow_eq
    rw [Nat.zero_add] at this
    rw [this]
    exact (Nat.zero_add _).symm
  have hperforms : Machine.Performs pool' _ ⟨top' ++ rest', locals⟩ ⟨rest', locals⟩ :=
    Machine.performs_popsDownTo pool' (h.keepsHalves hr hb) hselects hlength
  rw [hrest, htop, Nat.sub_add_cancel hle] at hperforms
  exact hperforms

/-- Pops of its inputs stand in for an instruction, up to what it gives. -/
theorem agreeAfter_of_pops (pool' : ConstantPool)
    (ha : decision.evaluation.Advances context.preciseOptions pool context.code.handlers state next
      before instruction step exit names names')
    (hr : decision.marks.reachable.contains state.offset = true)
    (hunwritten : instruction.Stores → decision.marks.necessary.contains state.offset = false)
    (he : instruction.stackEffect pool = .ok effect)
    (hp : effect.pops = 0 ∧ pops = [] ∨ decision.inputPops state.offset effect.pops = .ok pops)
    (hagree : decision.marks.Agree before state.toStore store') :
    ∃ given rest rest', next.stack = given ++ rest ∧ given.length = effect.pushes ∧
      Machine.Performs pool' pops store' ⟨rest', store'.locals⟩ ∧
      ∀ given', Selects (decision.marks.isPresent (.instruction state.offset) · = true)
          (fun position => decision.marks.has (.needed ⟨.instruction state.offset, position⟩) = true)
          (before.stack.height - effect.pops) given given' →
        decision.marks.AgreeAfter state.offset (before.stack.height - effect.pops) before.stack
          step.frame.locals next.toStore ⟨given' ++ rest', store'.locals⟩ := by
  have hfits := h.presence.faithful.fits _ _ ha.settled.listed
  obtain ⟨top, rest, given, hstack, hnext, htop, hrest, hgiven⟩ := ha.splits hfits he
  obtain ⟨top', rest', hstack', hselects, hbelow⟩ := hagree.split hstack
  have hheight := ha.holds.height_eq
  rw [hstack, List.length_append] at hheight
  refine ⟨given, rest, rest', hnext, hgiven, ?_, fun given' hgiven' =>
    ⟨⟨given, rest, given', rest', hnext, rfl, hrest, hbelow, hgiven'⟩,
      h.presence.agreeOn_of_unwritten ha hr hunwritten hagree.locals⟩⟩
  obtain ⟨stack', locals'⟩ := store'
  obtain rfl : stack' = top' ++ rest' := hstack'
  rcases hp with ⟨hzero, rfl⟩ | hp
  · obtain rfl : top = [] := List.length_eq_zero_iff.mp (htop.trans hzero)
    cases hselects
    exact .nil _
  · exact h.performs_inputPops pool' hr ha.recorded hp htop hrest hselects hbelow

/-- A push of the constant that an instruction always gives. -/
theorem agreeAfter_of_constant {old new : ConstantPool} {value : Value} {push : Instruction}
    (hassumptions : context.assumptions.IgnoreInitializers) (hnew : new.Extends pool')
    (hlength : new.length ≤ 65536)
    (ha : decision.evaluation.Advances context.preciseOptions pool context.code.handlers state next
      before instruction step exit names names')
    (hr : decision.marks.reachable.contains state.offset = true)
    (hn : decision.marks.necessary.contains state.offset = true)
    (hreduction : decision.reductions[state.offset]? = some (some (.constant value)))
    (he : instruction.stackEffect pool = .ok effect)
    (hp : decision.inputPops state.offset effect.pops = .ok pops)
    (hv : PoolM.Runs value.constantPush old push new)
    (hagree : decision.marks.Agree before state.toStore store') :
    exit = none ∧ ∃ store₂, Machine.Performs pool' (pops ++ [push]) store' store₂ ∧
      decision.marks.AgreeAfter state.offset (before.stack.height - effect.pops) before.stack
        step.frame.locals next.toStore store₂ := by
  have hfits := h.presence.faithful.fits _ _ ha.settled.listed
  obtain ⟨horiginal, instruction', hreduces⟩ := h.reduces_of_pushes (.inl ⟨_, rfl⟩) hreduction
  cases ha.settled.listed.symm.trans hreduces.listed
  obtain ⟨-, hnot, pushedValue, hvalue, hreduce⟩ := hreduces.pushed (.inl ⟨_, rfl⟩)
  obtain ⟨rfl, hparticular⟩ := reducePush?_eq_constant hreduce
  obtain ⟨effect', heffect, hpos, -, htop⟩ :=
    h.presence.faithful.pushedValue?_eq_some ha.recorded ha.settled hnot hvalue
  cases he.symm.trans heffect
  have hpresent := h.presence.isPresent_of_reduced hassumptions h.reduced hr ha.recorded ha.settled
    hn horiginal (.inl ⟨_, rfl⟩)
  obtain ⟨given, rest, rest', hnext, hgiven, hperforms, hafter⟩ := h.agreeAfter_of_pops pool' ha hr
    (fun hstores => absurd (hstores.pushes_eq_zero he) (Nat.ne_of_gt hpos)) he (.inr hp) hagree
  obtain ⟨value, word, kind, hget, hholds, hkind, -, -, rfl⟩ :=
    ha.exists_given hfits hnot he hpos hnext hgiven
  cases htop.symm.trans hget
  have hconstant := Value.constant?_of_holds hholds hparticular (Value.ne_top_of_kind? hkind)
  refine ⟨Machine.exit_eq_none he hpos ha.execute, _, hperforms.append (Machine.performs_singleton
    (Machine.execute_of_gives (gives_of_constantPush hv) hnew hlength hconstant)),
    hafter _ (.of_present rfl (fun position hge hlt => ?_) fun _ _ _ _ => rfl)⟩
  rw [h.presence.isPresent_eq_top hr ha.settled hnot he hge (by omega)]
  exact hpresent

/-- A load of a lower variable that holds the same number. -/
theorem agreeAfter_of_alias (pool' : ConstantPool) {slot index : UInt16} {access : Access}
    {kind : Kind} (hassumptions : context.assumptions.IgnoreInitializers)
    (ha : decision.evaluation.Advances context.preciseOptions pool context.code.handlers state next
      before instruction step exit names names')
    (hr : decision.marks.reachable.contains state.offset = true)
    (hn : decision.marks.necessary.contains state.offset = true)
    (hreduction : decision.reductions[state.offset]? = some (some (.alias slot)))
    (he : instruction.stackEffect pool = .ok effect)
    (haccess : instruction.localAccess? = some (access, kind, index))
    (hagree : decision.marks.Agree before state.toStore store') :
    exit = none ∧ ∃ store₂, Machine.Performs pool' [.load kind slot] store' store₂ ∧
      decision.marks.AgreeAfter state.offset (before.stack.height - effect.pops) before.stack
        step.frame.locals next.toStore store₂ := by
  obtain ⟨horiginal, instruction', hreduces⟩ := h.reduces_of_pushes (.inr ⟨_, rfl⟩) hreduction
  cases ha.settled.listed.symm.trans hreduces.listed
  obtain ⟨-, hnot, pushedValue, hvalue, hreduce⟩ := hreduces.pushed (.inr ⟨_, rfl⟩)
  obtain ⟨kind, index, locals, haccess', hlocals, hlowest⟩ := reducePush?_eq_alias hreduce
  cases haccess.symm.trans haccess'
  cases he.symm.trans (stackEffect_of_load haccess pool)
  obtain rfl : before.locals = locals := by
    rw [Evaluation.localsBefore?, ha.recorded] at hlocals
    exact Option.some.inj hlocals
  obtain ⟨found, hfound, hsame⟩ := lowestAlias?_eq_some hlowest
  obtain ⟨effect', heffect, hpos, -, htop⟩ :=
    h.presence.faithful.pushedValue?_eq_some ha.recorded ha.settled hnot hvalue
  cases he.symm.trans heffect
  have hpresent := h.presence.isPresent_of_reduced hassumptions h.reduced hr ha.recorded ha.settled
    hn horiginal (.inr ⟨_, rfl⟩)
  have hpops : 0 = 0 ∧ ([] : List Instruction) = [] ∨
      decision.inputPops state.offset 0 = .ok [] := .inl ⟨rfl, rfl⟩
  obtain ⟨given, rest, rest', hnext, hgiven, hperforms, hafter⟩ := h.agreeAfter_of_pops pool' ha hr
    (fun hstores => absurd (hstores.pushes_eq_zero he) (Nat.ne_of_gt hpos)) he hpops hagree
  obtain ⟨value, word, kind', hget, hholds, -, hkind', -, rfl⟩ :=
    ha.exists_given (h.presence.faithful.fits _ _ ha.settled.listed) hnot he hpos hnext hgiven
  cases htop.symm.trans hget
  obtain ⟨loaded, hkind, -, hstore⟩ := Machine.load_of_execute haccess ha.execute
  obtain rfl : loaded = word := by
    have hheads := congrArg List.head? (hnext.symm.trans (congrArg Store.stack hstore))
    rw [Cell.head?_pushed_append, Cell.head?_pushed_append] at hheads
    exact (Option.some.inj hheads).symm
  have hread : store'.locals[slot.toNat]? = some loaded := by
    have hslot := Locals.load_eq_ok.mp hfound
    rw [← Context.locals_of_load haccess ha.settled.execute] at hslot
    obtain ⟨cell, hcell, hholds'⟩ := ha.holds_after.locals _ _ hslot
    cases Value.eq_of_sameIdentity hsame hholds' hholds
    rw [← hcell, congrArg Store.locals hstore]
    refine hagree.locals.slot _ found (Locals.load_eq_ok.mp hfound) fun producer ho hreach => ?_
    exact h.presence.marked.closed (.necessary state.offset) _ hn
      (.variable (.inl hreduction) (congrArg (Option.map Frame.locals) ha.recorded) hfound ho hreach)
  refine ⟨Machine.exit_eq_none he hpos ha.execute, _, hperforms.append (Machine.performs_singleton
    (Machine.execute_of_load (Instruction.localAccess?_load kind slot) hkind hread)),
    hafter _ (.of_present rfl (fun position hge hlt => ?_) fun _ _ _ _ => rfl)⟩
  rw [h.presence.isPresent_eq_top hr ha.settled hnot he hge (by omega)]
  exact hpresent

/-- Nobody needs what an unnecessary instruction gives. -/
theorem not_needed_of_unnecessary (hr : decision.marks.reachable.contains offset = true)
    (hi : decision.evaluation.instruction? offset = some instruction)
    (hnot : instruction.isShuffle = false)
    (hn : decision.marks.necessary.contains offset = false) (position : Nat) :
    ¬ decision.marks.has (.needed ⟨.instruction offset, position⟩) = true := by
  intro hneeded
  have hsource : (context.subject pool decision.evaluation sideEffects).sourcePosition offset
      position = .ok none := by
    have hinstruction : (context.subject pool decision.evaluation sideEffects).instruction offset =
        .ok instruction := (orDefect_eq_ok ..).mpr hi
    unfold Subject.sourcePosition
    rw [hinstruction]
    have hshuffle : instruction.shuffle? = none :=
      Option.isNone_iff_eq_none.mp (Option.isSome_eq_false_iff.mp hnot)
    simp only [bind, Except.bind, hshuffle]
    rfl
  have hnecessary := h.presence.marked.closed _ _ hneeded (.producer hr hsource)
  rw [show decision.marks.has (.necessary offset) = decision.marks.necessary.contains offset from rfl,
    hn] at hnecessary
  cases hnecessary

/-- Pops, and a push of any number if one has to be there, stand in for an instruction that is not
necessary. -/
theorem agreeAfter_of_unnecessary (pool' : ConstantPool) {placeholder : Option Instruction}
    (hlength : pool'.length ≤ 65536)
    (ha : decision.evaluation.Advances context.preciseOptions pool context.code.handlers state next
      before instruction step exit names names')
    (hr : decision.marks.reachable.contains state.offset = true)
    (hnot : instruction.isShuffle = false)
    (hn : decision.marks.necessary.contains state.offset = false)
    (he : instruction.stackEffect pool = .ok effect)
    (ho : decision.presentOutput state.offset effect.pushes = .ok output)
    (hplaceholder : output = none ∧ placeholder = none ∨ ∃ value push, output = some value ∧
      value.placeholderPush state.offset = .ok push ∧ placeholder = some push)
    (hp : effect.pops = 0 ∧ pops = [] ∨ decision.inputPops state.offset effect.pops = .ok pops)
    (hagree : decision.marks.Agree before state.toStore store') :
    ∃ store₂, Machine.Performs pool' (pops ++ placeholder.toList) store' store₂ ∧
      decision.marks.AgreeAfter state.offset (before.stack.height - effect.pops) before.stack
        step.frame.locals next.toStore store₂ := by
  obtain ⟨given, rest, rest', hnext, hgiven, hperforms, hafter⟩ := h.agreeAfter_of_pops pool' ha hr
    (fun _ => hn) he hp hagree
  have hpresent {position : Nat} (hge : before.stack.height - effect.pops ≤ position)
      (hlt : position < before.stack.height - effect.pops + given.length) :=
    h.isPresent_eq_isSome hr ha.settled hnot he ho hge (hgiven ▸ hlt)
  rcases h.presentOutput_spec hr ha.settled hnot he ho with
    ⟨rfl, -⟩ | ⟨value, rfl, ⟨hsize, htop⟩, -⟩
  · obtain ⟨-, rfl⟩ := hplaceholder.resolve_right (by rintro ⟨_, _, hsome, -⟩; cases hsome)
    refine ⟨_, hperforms.append (.nil _), hafter [] (.nil_of_absent fun position hge hlt => ?_)⟩
    rw [hpresent hge hlt]
    exact Bool.false_ne_true
  · rcases hplaceholder with ⟨hnone, -⟩ | ⟨value', push, hvalue, hpush, rfl⟩
    · cases hnone
    cases hvalue
    have hpos : 0 < effect.pushes := hsize ▸ value.size_pos
    obtain ⟨value', word, kind, hget, -, hvalue, hword, hkind, -⟩ := ha.exists_given
      (h.presence.faithful.fits _ _ ha.settled.listed) hnot he hpos hnext hgiven
    cases htop.symm.trans hget
    obtain ⟨pushed, kind', hgives, hpushed, hsame⟩ := gives_of_placeholderPush pool' hpush
    cases hvalue.symm.trans hsame
    obtain ⟨constant, hconstant, hconstantKind⟩ := hgives.exists_constant hpushed hword
    refine ⟨_, hperforms.append (Machine.performs_singleton
      (Machine.execute_of_gives hgives (.refl _) hlength hconstant)), hafter _ (.of_present ?_
        (fun position hge hlt => hpresent hge hlt) fun position _ _ hneeded => ?_)⟩
    · rw [Cell.length_pushed hconstantKind, hkind, hgiven]
    · exact absurd hneeded
        (h.not_needed_of_unnecessary hr ha.settled.listed hnot hn position)

/-! ## Stack manipulations and branches -/

/-- A word is present if it is needed. -/
theorem wordPresent_of_wordNeeded {position : Nat}
    (hr : decision.marks.reachable.contains offset = true)
    (hb : decision.evaluation.before? offset = some before)
    (hlt : position < before.stack.height)
    (hneeded : decision.marks.wordNeeded before.stack position) :
    decision.marks.wordPresent before.stack position = true := by
  have hw : before.stack.get? position = some _ := Array.getElem?_eq_getElem hlt
  obtain ⟨origin, ho⟩ := List.exists_mem_of_ne_nil _
    ((h.presence.faithful.accounts hb).produced position _ hw)
  refine (h.presence.wordPresent_iff hr hb hw ho).mpr ?_
  exact h.presence.marked.closed _ _ (hneeded _ hw origin ho) (.present _)

/-- A needed copy needs the word that it copies. -/
theorem needed_of_copy {move : Shuffle} {k source : Nat}
    (hr : decision.marks.reachable.contains offset = true)
    (hi : decision.evaluation.instruction? offset = some instruction)
    (hb : decision.evaluation.before? offset = some before)
    (hop : instruction.operation = .shuffle move) (hle : move.pops ≤ before.stack.height)
    (hk : move.outputs[k]? = some source)
    (hneeded : decision.marks.has
      (.needed ⟨.instruction offset, before.stack.height - move.pops + k⟩) = true) :
    decision.marks.wordNeeded before.stack (before.stack.height - move.pops + source) := by
  intro word hw origin ho
  have hcopies : move.copies = true := by
    cases move <;> first | rfl | cases hk
  have hsource : (context.subject pool decision.evaluation sideEffects).sourcePosition offset
      (before.stack.height - move.pops + k) =
        .ok (some (before.stack.height - move.pops + source)) := by
    have hinstruction : (context.subject pool decision.evaluation sideEffects).instruction offset =
        .ok instruction := (orDefect_eq_ok ..).mpr hi
    have hstack : (context.subject pool decision.evaluation sideEffects).stackBefore offset =
        .ok before.stack := (orDefect_eq_ok ..).mpr (congrArg (Option.map Frame.stack) hb)
    unfold Subject.sourcePosition
    rw [hinstruction]
    simp only [bind, Except.bind, Instruction.shuffle?_eq_some_iff.mpr hop, hcopies, hstack]
    rw [if_neg (by simp), if_neg (by omega), if_neg (by omega), Nat.add_sub_cancel_left, hk]
    rfl
  exact h.presence.marked.closed _ _ hneeded
    (.source hr hsource (congrArg (Option.map Frame.stack) hb) hw ho)

/-- **A planned stack manipulation** copies what is left of the words. -/
theorem agreeAfter_of_shuffle (pool' : ConstantPool) {move : Shuffle} {inputs outputs : List Word}
    {plan : List Shuffle}
    (ha : decision.evaluation.Advances context.preciseOptions pool context.code.handlers state next
      before instruction step exit names names')
    (hr : decision.marks.reachable.contains state.offset = true)
    (hop : instruction.operation = .shuffle move)
    (hw : decision.marks.shuffleWords state.offset instruction before.stack = .ok (inputs, outputs))
    (hplan : planShuffles? inputs outputs = some plan)
    (hagree : decision.marks.Agree before state.toStore store') :
    exit = none ∧ ∃ store₂, Machine.Performs pool'
        (plan.map fun move => .simple (Opcode.ofShuffle move)) store' store₂ ∧
      decision.marks.AgreeAfter state.offset (before.stack.height - move.pops) before.stack
        step.frame.locals next.toStore store₂ := by
  have he := stackEffect_of_shuffle hop pool
  have hi := ha.settled.listed
  obtain ⟨top, rest, given, hstack, hnext, htop, hrest, hgiven⟩ :=
    ha.splits (h.presence.faithful.fits _ _ hi) he
  dsimp only at htop hrest
  obtain ⟨hexit, copies, hcopied, hstore⟩ := Machine.shuffle_of_execute hop ha.execute
  have hheight := ha.holds.height_eq
  rw [hstack, List.length_append] at hheight
  rw [hstack, Machine.copied?_append move rest (Nat.le_of_eq htop.symm)] at hcopied
  obtain rfl : given = copies := by
    have hboth := hnext.symm.trans (congrArg Store.stack hstore)
    simp only [hstack] at hboth
    rw [List.drop_left' htop] at hboth
    exact List.append_cancel_right hboth
  obtain ⟨top', rest', hstack', hselects, hbelow⟩ := hagree.split hstack
  obtain ⟨g, htop', hg⟩ := hselects.exists_cells
  obtain ⟨move', hmove, hw⟩ := Except.bind_eq_ok.mp hw
  rw [orDefect_eq_ok, Instruction.shuffle?_eq_some_iff, hop] at hmove
  cases hmove
  rw [if_neg (by omega)] at hw
  cases hw
  have hperforms := Machine.performs_of_moveAll? pool' (moveAll?_of_planShuffles? hplan)
    (fun word => g word.source) rest' store'.locals
  rw [List.map_map, List.map_map] at hperforms
  obtain ⟨stack', locals'⟩ := store'
  obtain rfl : stack' = top' ++ rest' := hstack'
  rw [hrest, htop] at htop' hg
  rw [hrest] at hselects
  rw [htop']
  refine ⟨hexit, _, hperforms, ⟨given, rest, _, rest', hnext, rfl, hrest, hbelow, ?_⟩, ?_⟩
  · rw [Shuffle.eq_of_copied? hcopied, h.ofInstruction_eq hi]
    refine Selects.of_copies (p := decision.marks.isPresent (.instruction state.offset)) (g := g)
      fun k source hk hp hneeded => ?_
    have hsource := h.needed_of_copy hr hi ha.recorded hop (by omega) hk hneeded
    have hlt : source < move.pops := Shuffle.lt_pops_of_mem_outputs (List.mem_of_getElem? hk)
    have hpresent := h.wordPresent_of_wordNeeded hr ha.recorded (by omega) hsource
    rw [hg source hlt hpresent hsource]
    rfl
  · refine h.presence.agreeOn_of_unwritten ha hr (fun hstores => ?_) hagree.locals
    rcases hstores with ⟨kind, slot, hstore⟩ | hstore
    all_goals cases hop.symm.trans hstore

/-- A branch is reduced only if the evaluation knows of one target. -/
theorem reduces_of_branches {reduction : Reduction} (hnot : ¬ reduction.Pushes)
    (hloop : reduction ≠ .loop)
    (hreduction : decision.reductions[offset]? = some (some reduction))
    (hi : decision.evaluation.instruction? offset = some instruction) :
    (instruction.flow = .conditional ∨ instruction.flow = .switch) ∧
      reduceBranch? decision.evaluation offset = .ok (some reduction) := by
  have horiginal := h.presence.marked.loops.eq_of_ne_loop hreduction (by simpa using hloop)
  obtain ⟨instruction', hreduces⟩ := h.reduced offset reduction horiginal
  cases hi.symm.trans hreduces.listed
  exact hreduces.branches hnot

/-- Pops of its inputs stand in for a branch, up to where it leads. -/
theorem agreeAfter_of_branch (pool' : ConstantPool) {reduction : Reduction}
    (ha : decision.evaluation.Advances context.preciseOptions pool context.code.handlers state next
      before instruction step exit names names')
    (hr : decision.marks.reachable.contains state.offset = true)
    (hnot : ¬ reduction.Pushes) (hloop : reduction ≠ .loop)
    (hreduction : decision.reductions[state.offset]? = some (some reduction))
    (he : instruction.stackEffect pool = .ok effect)
    (hp : decision.inputPops state.offset effect.pops = .ok pops)
    (hagree : decision.marks.Agree before state.toStore store') :
    ∃ store₂, Machine.Performs pool' pops store' store₂ ∧
      decision.marks.AgreeAfter state.offset (before.stack.height - effect.pops) before.stack
        step.frame.locals next.toStore store₂ := by
  have hi := ha.settled.listed
  obtain ⟨hflow, -⟩ := h.reduces_of_branches hnot hloop hreduction hi
  have hunwritten (hstores : instruction.Stores) :
      decision.marks.necessary.contains state.offset = false := by
    rw [hstores.flow_eq] at hflow
    rcases hflow with hflow | hflow <;> cases hflow
  obtain ⟨given, rest, rest', -, hgiven, hperforms, hafter⟩ :=
    h.agreeAfter_of_pops pool' ha hr hunwritten he (.inr hp) hagree
  rw [h.pushes_of_branches hnot hreduction hi he, List.length_eq_zero_iff] at hgiven
  subst hgiven
  exact ⟨_, hperforms, hafter [] .nil⟩

end MethodContext.Decided

end JvmTrim
