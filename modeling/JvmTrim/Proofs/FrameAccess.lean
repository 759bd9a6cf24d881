import JvmTrim.Evaluation.Transfer
import JvmTrim.Proofs.Outcome

/-!
# Access to frames

What the steps of an execution do to a frame: popping and pushing words, loading and storing
variables, forgetting a name. The stack is read from its top, as a list, so that a pop takes words
from the front and leaves the words below as they are.

## Main definitions

* `Stack.view`: the words of a stack, the top first
* `pushedWords`: the words that a pushed value takes
* `Context.pushField`: the last stage of a read of a field
* `Context.callee`, `Context.takeReceiver`, `Context.pushResult`: the stages of a call

## Main results

* `Transfer.pop_eq_ok`, `Transfer.popKind_eq_ok`, `Transfer.popEach_eq_ok`: pops
* `Locals.store_eq_ok`: the variables after a store
* `Context.invoke_eq`, `Context.invoke_eq_ok`: a call by its stages
-/

namespace JvmTrim

theorem StateT.bind_eq_ok {ε σ α β : Type} {x : StateT σ (Except ε) α}
    {f : α → StateT σ (Except ε) β} {s s'' : σ} {b : β} :
    (x >>= f) s = .ok (b, s'') ↔ ∃ a s', x s = .ok (a, s') ∧ f a s' = .ok (b, s'') := by
  constructor
  · intro h
    obtain ⟨⟨a, s'⟩, ha, h⟩ := Except.bind_eq_ok.mp h
    exact ⟨a, s', ha, h⟩
  · rintro ⟨a, s', ha, h⟩
    exact Except.bind_eq_ok.mpr ⟨(a, s'), ha, h⟩

theorem StateT.liftM_eq_ok {ε σ α : Type} {x : Except ε α} {s s' : σ} {a : α} :
    (liftM x : StateT σ (Except ε) α) s = .ok (a, s') ↔ x = .ok a ∧ s' = s := by
  cases x with
  | error e => simp [liftM, monadLift, MonadLift.monadLift, StateT.lift, bind, Except.bind]
  | ok x =>
    simp [liftM, monadLift, MonadLift.monadLift, StateT.lift, bind, Except.bind, pure, Except.pure,
      eq_comm]

theorem StateT.pure_eq_ok {ε σ α : Type} {s s' : σ} {a b : α} :
    (pure a : StateT σ (Except ε) α) s = .ok (b, s') ↔ b = a ∧ s' = s := by
  change (Except.ok (a, s) : Except ε (α × σ)) = .ok (b, s') ↔ _
  simp [eq_comm]

/-! ## Stacks -/

namespace Stack

variable {stack stack' : Stack} {value : Value} {count : Nat} {kind : Kind}

/-- The words of a stack, the top first. -/
def view (stack : Stack) : List Slot := stack.words.toList.reverse

theorem length_view (stack : Stack) : stack.view.length = stack.height := by
  simp [view, height]

theorem view_empty : empty.view = [] := rfl

/-- A word counted from the bottom. -/
theorem getElem?_words (stack : Stack) {position : Nat} (h : position < stack.height) :
    stack.words[position]? = stack.view[stack.height - 1 - position]? := by
  have hsize : position < stack.words.size := h
  rw [view, List.getElem?_reverse (by simp only [Array.length_toList, height]; omega),
    Array.length_toList, Array.getElem?_toList]
  congr 1
  simp only [height]
  omega

theorem view_forget (symbol : Symbol) (stack : Stack) :
    (stack.forget symbol).view = stack.view.map (Slot.forget symbol) := by
  simp [view, forget, List.map_reverse]

theorem view_drop (stack : Stack) (count : Nat) : (stack.drop count).view = stack.view.drop count := by
  simp only [view, drop, height, Array.take, Array.toList_extract, List.drop_reverse,
    Array.length_toList]
  simp

theorem pop_eq_ok (h : stack.pop count = .ok (value, stack')) :
    count ≤ stack.height ∧ stack'.view = stack.view.drop (max count 1) ∧
      ∃ top rest, stack.view = top :: rest ∧ value = top.value := by
  obtain ⟨⟨top, below⟩, ht, h⟩ := Except.bind_eq_ok.mp h
  simp only at h
  split at h
  · cases h
  · rename_i hle
    cases h
    refine ⟨by omega, view_drop stack _, top, below.view, ?_, rfl⟩
    rw [popWord] at ht
    split at ht
    · rename_i word hback
      cases ht
      obtain ⟨words⟩ := stack
      obtain ⟨list⟩ := words
      simp only [view, List.back?_toArray, List.pop_toArray] at hback ⊢
      obtain ⟨front, rfl⟩ := List.getLast?_eq_some_iff.mp hback
      simp
    · cases ht

theorem popKind_eq_ok (h : stack.popKind kind = .ok (value, stack')) :
    kind.size ≤ stack.height ∧ stack'.view = stack.view.drop kind.size ∧
      value.kind? = some kind ∧ ∃ top rest, stack.view = top :: rest ∧ value = top.value := by
  obtain ⟨⟨v, rest⟩, hp, h⟩ := Except.bind_eq_ok.mp h
  obtain ⟨hle, hview, htop⟩ := pop_eq_ok hp
  have hmax : max kind.size 1 = kind.size := Nat.max_eq_left kind.size_pos
  simp only at h
  split at h
  · rename_i hk
    cases h
    exact ⟨hle, by rw [hview, hmax], hk, htop⟩
  · cases h

end Stack

theorem Value.isWide_of_kind? {value : Value} {kind : Kind} (h : value.kind? = some kind) :
    value.isWide = decide (kind.size = 2) := by
  cases value <;> cases h <;> rfl

/-- The words that a pushed value takes, the top first. -/
def pushedWords (value : Value) (producers : OriginSet) : List Slot :=
  if value.isWide then [⟨value, producers⟩, Slot.top producers] else [⟨value, producers⟩]

theorem Stack.view_push (stack : Stack) (value : Value) (producers : OriginSet) :
    (stack.push value producers).view = pushedWords value producers ++ stack.view := by
  rw [push, pushedWords]
  split <;> simp [view, pushWord]

/-! ## Variables -/

namespace Locals

variable {locals locals' : Locals} {index : UInt16} {value : Value} {producers : OriginSet}

/-- What a store leaves of the variable below its own: a two-word value is cut in half. -/
def cut (slot : Slot) : Slot := if slot.value.isWide then { slot with value := .top } else slot

/-- **The variables after a store.** -/
theorem store_eq_ok (h : locals.store index value producers = .ok locals') :
    index.toNat + (if value.isWide then 2 else 1) ≤ locals.size ∧ locals'.size = locals.size ∧
      ∀ i, locals'.slots[i]? =
        if i = index.toNat then some ⟨value, producers⟩
        else if value.isWide = true ∧ i = index.toNat + 1 then some (Slot.top producers)
        else if i + 1 = index.toNat then locals.slots[i]?.map cut
        else locals.slots[i]? := by
  simp only [store] at h
  by_cases hfit : index.toNat + (if value.isWide then 2 else 1) > locals.size
  · rw [if_pos hfit] at h
    cases h
  · rw [if_neg hfit] at h
    cases h
    have hfit' : index.toNat + (if value.isWide then 2 else 1) ≤ locals.slots.size :=
      Nat.le_of_not_lt hfit
    refine ⟨Nat.le_of_not_lt hfit, ?_, fun i => ?_⟩
    · simp only [size, Array.size_setIfInBounds]
      split <;> split <;> simp [breakAt]
    · have hbroken : (if index.toNat = 0 then locals.slots
          else breakAt locals.slots (index.toNat - 1)).size = locals.slots.size := by
        split <;> simp [breakAt]
      have hbreak (i : Nat) : (if index.toNat = 0 then locals.slots
          else breakAt locals.slots (index.toNat - 1))[i]? =
          if i + 1 = index.toNat then locals.slots[i]?.map cut else locals.slots[i]? := by
        by_cases h0 : index.toNat = 0
        · rw [if_pos h0, if_neg (by omega)]
        · rw [if_neg h0, breakAt, Array.getElem?_modify]
          by_cases hi : i + 1 = index.toNat
          · rw [if_pos hi, if_pos (by omega)]
            rfl
          · rw [if_neg hi, if_neg (by omega)]
      simp only [Array.getElem?_setIfInBounds]
      by_cases hi : i = index.toNat
      · subst hi
        rw [if_pos rfl, if_pos rfl]
        split <;> split at hfit' <;> simp [hbroken] <;> omega
      · rw [if_neg (Ne.symm hi), if_neg hi]
        by_cases hw : value.isWide = true
        · simp only [hw, if_true, Array.getElem?_setIfInBounds, true_and] at hfit' ⊢
          by_cases hn : i = index.toNat + 1
          · rw [if_pos hn.symm, if_pos hn, if_pos (by rw [hbroken]; omega)]
          · rw [if_neg (Ne.symm hn), if_neg hn, hbreak]
        · simp only [hw, Bool.false_eq_true, if_false, false_and]
          exact hbreak i

/-- A store leaves a slot to its producers or gives it to its own. -/
theorem producers_store (h : locals.store index value producers = .ok locals') {i : Nat}
    {slot : Slot} (hs : locals'.slots[i]? = some slot) :
    (i = index.toNat ∨ value.isWide = true ∧ i = index.toNat + 1) ∧ slot.producers = producers ∨
      ¬ (i = index.toNat ∨ value.isWide = true ∧ i = index.toNat + 1) ∧
        ∃ old, locals.slots[i]? = some old ∧ slot.producers = old.producers := by
  obtain ⟨-, -, hslots⟩ := store_eq_ok h
  rw [hslots] at hs
  split at hs
  · rename_i hfirst
    cases hs
    exact .inl ⟨.inl hfirst, rfl⟩
  · rename_i hfirst
    split at hs
    · rename_i hsecond
      cases hs
      exact .inl ⟨.inr hsecond, rfl⟩
    · rename_i hsecond
      refine .inr ⟨fun hwritten => hwritten.elim hfirst hsecond, ?_⟩
      split at hs
      · obtain ⟨old, ho, rfl⟩ := Option.map_eq_some_iff.mp hs
        refine ⟨old, ho, ?_⟩
        rw [cut]
        split <;> rfl
      · exact ⟨slot, hs, rfl⟩

theorem forall_producers_store {expected : OriginSet}
    (h : locals.store index value producers = .ok locals') (hp : producers = expected)
    (hall : ∀ slot ∈ locals.slots, slot.producers = expected) :
    ∀ slot ∈ locals'.slots, slot.producers = expected := by
  intro slot hs
  obtain ⟨i, hi⟩ := Array.mem_iff_getElem?.mp hs
  rcases producers_store h hi with ⟨-, hnew⟩ | ⟨-, old, ho, hold⟩
  · exact hnew.trans hp
  · exact hold.trans (hall old (Array.mem_of_getElem? ho))

theorem load_eq_ok {slot : Slot} : locals.load index = .ok slot ↔
    locals.slots[index.toNat]? = some slot := by
  rw [load, orDefect_eq_ok]

end Locals

/-! ## Stack manipulations -/

/-- The words that a stack manipulation pushes onto what it leaves of some words, both listed with
the top first. -/
def Shuffle.copied? {α : Type} (move : Shuffle) (words : List α) : Option (List α) :=
  if move.pops ≤ words.length then
    (move.outputs.mapM ((words.take move.pops).reverse[·]?)).map List.reverse
  else none

theorem mapM_eq_some_iff {α β : Type} {f : α → Option β} {list : List α} {results : List β} :
    list.mapM f = some results ↔ List.Forall₂ (fun a b => f a = some b) list results := by
  induction list generalizing results with
  | nil =>
    rw [List.mapM_nil, List.forall₂_nil_left_iff]
    exact ⟨fun h => (Option.some.inj h).symm, fun h => by rw [h]; rfl⟩
  | cons head tail ih =>
    rw [List.mapM_cons]
    constructor
    · intro h
      obtain ⟨b, hb, h⟩ := Option.bind_eq_some_iff.mp h
      obtain ⟨bs, hbs, h⟩ := Option.bind_eq_some_iff.mp h
      cases h
      exact .cons hb (ih.mp hbs)
    · rintro (_ | ⟨hb, hbs⟩)
      rw [hb, ih.mpr hbs]
      rfl

namespace Shuffle

variable {α β : Type} {move : Shuffle} {as as' : List α} {bs bs' : List β}

theorem copied?_eq_some (h : move.copied? as = some as') :
    move.pops ≤ as.length ∧ List.Forall₂ (fun source a => as[move.pops - 1 - source]? = some a)
      move.outputs.reverse as' := by
  unfold copied? at h
  split at h
  · rename_i hle
    obtain ⟨outputs, ho, rfl⟩ := Option.map_eq_some_iff.mp h
    refine ⟨hle, List.forall₂_reverse_iff.mpr ?_⟩
    have hsource := mapM_eq_some_iff.mp ho
    have hmem : ∀ source ∈ move.outputs, source < move.pops := fun _ => lt_pops_of_mem_outputs
    clear h ho
    revert hsource hmem
    generalize move.outputs = sources
    intro hsource hmem
    induction hsource with
    | nil => exact .nil
    | cons hhead _ ih =>
      refine .cons ?_ (ih fun source hs => hmem source (List.mem_cons_of_mem _ hs))
      have hlt := hmem _ List.mem_cons_self
      rw [List.getElem?_reverse (by simp; omega), List.length_take, Nat.min_eq_left hle,
        List.getElem?_take_of_lt (by omega)] at hhead
      exact hhead
  · cases h

/-- A stack manipulation moves both of two related lists of words in the same way. -/
theorem forall₂_copied? {R : α → β → Prop} (h : List.Forall₂ R as bs)
    (ha : move.copied? as = some as') (hb : move.copied? bs = some bs') :
    List.Forall₂ R as' bs' := by
  have hsa := (copied?_eq_some ha).2
  have hsb := (copied?_eq_some hb).2
  clear ha hb
  revert hsa hsb
  generalize move.outputs.reverse = sources
  intro hsa hsb
  induction hsa generalizing bs' with
  | nil =>
    cases hsb
    exact .nil
  | cons hhead _ ih =>
    cases hsb with
    | cons hhead' htail =>
      refine .cons ?_ (ih htail)
      exact rel_of_forall₂ h hhead hhead'

end Shuffle

/-! ## Steps of an execution -/

namespace Transfer

variable {frame frame' : Frame} {value : Value} {offset count : Nat} {slot : UInt16} {kind : Kind}

theorem pop_eq_ok (h : pop count frame = .ok (value, frame')) :
    count ≤ frame.stack.height ∧ frame'.stack.view = frame.stack.view.drop (max count 1) ∧
      frame'.locals = frame.locals ∧
      ∃ top rest, frame.stack.view = top :: rest ∧ value = top.value := by
  obtain ⟨⟨v, stack⟩, hp, h⟩ := Except.bind_eq_ok.mp h
  cases h
  obtain ⟨hle, hview, htop⟩ := Stack.pop_eq_ok hp
  exact ⟨hle, hview, rfl, htop⟩

theorem popKind_eq_ok (h : popKind kind frame = .ok (value, frame')) :
    kind.size ≤ frame.stack.height ∧ frame'.stack.view = frame.stack.view.drop kind.size ∧
      frame'.locals = frame.locals ∧ value.kind? = some kind ∧
      ∃ top rest, frame.stack.view = top :: rest ∧ value = top.value := by
  obtain ⟨⟨v, stack⟩, hp, h⟩ := Except.bind_eq_ok.mp h
  cases h
  obtain ⟨hle, hview, hkind, htop⟩ := Stack.popKind_eq_ok hp
  exact ⟨hle, hview, rfl, hkind, htop⟩

theorem popEach_eq_ok (h : popEach count frame = .ok ((), frame')) :
    count ≤ frame.stack.height ∧ frame'.stack.view = frame.stack.view.drop count ∧
      frame'.locals = frame.locals := by
  induction count generalizing frame with
  | zero =>
    cases h
    exact ⟨Nat.zero_le _, rfl, rfl⟩
  | succ count ih =>
    obtain ⟨value, middle, hp, h⟩ := StateT.bind_eq_ok.mp h
    obtain ⟨hle, hview, hlocals, -⟩ := pop_eq_ok hp
    obtain ⟨hle', hview', hlocals'⟩ := ih h
    have hheight : middle.stack.height = frame.stack.height - 1 := by
      rw [← Stack.length_view, hview, List.length_drop, Stack.length_view, Nat.max_self]
    refine ⟨by omega, ?_, hlocals'.trans hlocals⟩
    rw [hview', hview, List.drop_drop, Nat.max_self, Nat.add_comm]

theorem push_eq_ok (h : push offset value frame = .ok ((), frame')) :
    frame'.stack.view =
        pushedWords value (OriginSet.ofInstruction offset) ++ frame.stack.view ∧
      frame'.locals = frame.locals := by
  cases h
  exact ⟨Stack.view_push _ _ _, rfl⟩

theorem load_eq_ok (h : load slot frame = .ok (value, frame')) :
    frame' = frame ∧ ∃ found, frame.locals.slots[slot.toNat]? = some found ∧
      value = found.value := by
  obtain ⟨found, hf, h⟩ := Except.bind_eq_ok.mp h
  cases h
  exact ⟨rfl, found, Locals.load_eq_ok.mp hf, rfl⟩

theorem store_eq_ok (h : store offset slot value frame = .ok ((), frame')) :
    frame'.stack = frame.stack ∧
      frame.locals.store slot value (OriginSet.ofInstruction offset) = .ok frame'.locals := by
  obtain ⟨locals, hl, h⟩ := Except.bind_eq_ok.mp h
  cases h
  exact ⟨rfl, hl⟩

theorem shuffle_eq_ok {instruction : Instruction} {move : Shuffle}
    (h : Context.shuffle offset instruction move frame = .ok ((), frame')) :
    ∃ copies, move.copied? frame.stack.view = some copies ∧
      frame'.stack.view = copies.map (fun word => ⟨word.value, OriginSet.ofInstruction offset⟩) ++
        frame.stack.view.drop move.pops ∧
      frame'.locals = frame.locals := by
  unfold Context.shuffle at h
  simp only at h
  split at h
  · rename_i hfits
    obtain ⟨pushed, hp, h⟩ := Except.bind_eq_ok.mp h
    cases h
    have hle : move.pops ≤ frame.stack.words.size := by
      simp only [Shuffle.fits, Bool.and_eq_true, decide_eq_true_eq, Array.size_map] at hfits
      exact hfits.1
    have hinputs : (frame.stack.view.take move.pops).reverse =
        frame.stack.words.toList.drop (frame.stack.words.size - move.pops) := by
      rw [Stack.view, List.take_reverse, List.reverse_reverse, Array.length_toList]
    have hcopied : move.copied? frame.stack.view = some pushed.reverse := by
      rw [Shuffle.copied?, if_pos (by rw [Stack.length_view]; exact hle), hinputs]
      refine Option.map_eq_some_iff.mpr ⟨pushed, mapM_eq_some_iff.mpr ?_, rfl⟩
      refine (forall₂_of_mapM hp).imp fun source word hw => ?_
      rw [List.getElem?_drop, Array.getElem?_toList]
      exact orFail_eq_ok.mp hw
    refine ⟨pushed.reverse, hcopied, ?_, rfl⟩
    simp [Stack.view, List.drop_reverse]
  · cases h

theorem forget_eq_ok {symbol : Symbol} (h : forget symbol frame = .ok ((), frame')) :
    frame' = ⟨frame.locals.forget symbol, frame.stack.forget symbol⟩ := by
  cases h
  rfl

end Transfer

/-! ## Fields and calls -/

namespace Context

variable (context : Context) (offset : Nat)

/-- Pushes what a field holds; its object is off the stack by then. -/
def pushField (instruction : Instruction) : Transfer Unit := do
  let field ← instruction.member context.pool
  let kind := (← FieldType.parse field.descriptor).kind
  context.pushSupplied offset kind (context.assumptions.field field)

/-- The member that a call names, which a dynamic call does not do. -/
def callee (mode : Invocation) (instruction : Instruction) : Transfer (Option MemberRef) :=
  if mode = .dynamic then pure none else some <$> liftM (instruction.member context.pool)

/-- Takes the receiver of a call, if it has one; tells of a call of an initializer. -/
def takeReceiver (mode : Invocation) (member : Option MemberRef) : Transfer (Option Event) :=
  if mode.hasReceiver then do
    let receiver ← Transfer.pop 1
    pure <|
      if mode = .special && (member.map (·.isInitializer)).getD false then
        some (Event.initialization receiver.symbol?)
      else none
  else pure none

/-- Pushes what a call gives, if it gives anything. -/
def pushResult (descriptor : MethodDescriptor) (member : Option MemberRef) : Transfer Unit :=
  match descriptor.result with
  | some type => context.pushSupplied offset type.kind (member.bind context.assumptions.result)
  | none => pure ()

/-- **The steps of a call.** Its arguments are popped, then its receiver, and its result is
pushed. -/
theorem invoke_eq (mode : Invocation) (instruction : Instruction) :
    context.invoke offset mode instruction = (do
      let descriptor ← instruction.methodDescriptor context.pool
      descriptor.parameters.reverse.forM fun parameter => do
        let _ ← Transfer.pop parameter.size
      let member ← context.callee mode instruction
      let event ← takeReceiver mode member
      context.pushResult offset descriptor member
      return event) := by
  refine congrArg _ (funext fun descriptor => congrArg _ (funext fun _ => ?_))
  simp only [callee, takeReceiver, pushResult]
  cases descriptor.result <;> cases mode <;> simp [Invocation.hasReceiver]

variable {context offset} {mode : Invocation} {instruction : Instruction} {frame frame' : Frame}
  {member : Option MemberRef} {event : Option Event}

theorem takeReceiver_eq_ok (h : takeReceiver mode member frame = .ok (event, frame')) :
    (∃ receiver, Transfer.pop 1 frame = .ok (receiver, frame') ∧ event =
        if mode = .special ∧ (member.map (·.isInitializer)).getD false = true then
          some (.initialization receiver.symbol?)
        else none) ∨
      mode.hasReceiver = false ∧ event = none := by
  unfold takeReceiver at h
  split at h
  · obtain ⟨receiver, middle, hpop, hend⟩ := StateT.bind_eq_ok.mp h
    obtain ⟨rfl, rfl⟩ := StateT.pure_eq_ok.mp hend
    exact .inl ⟨receiver, hpop, by simp⟩
  · rename_i hreceiver
    obtain ⟨rfl, rfl⟩ := StateT.pure_eq_ok.mp h
    exact .inr ⟨by simpa using hreceiver, rfl⟩

theorem callee_eq_ok (h : context.callee mode instruction frame = .ok (member, frame')) :
    frame' = frame ∧ (mode ≠ .dynamic →
      ∃ found, instruction.member context.pool = .ok found ∧ member = some found) := by
  unfold callee at h
  split at h
  · rename_i hdynamic
    exact ⟨(StateT.pure_eq_ok.mp h).2, absurd hdynamic⟩
  · rw [map_eq_pure_bind] at h
    obtain ⟨found, middle, hlift, hsome⟩ := StateT.bind_eq_ok.mp h
    obtain ⟨hfound, rfl⟩ := StateT.liftM_eq_ok.mp hlift
    obtain ⟨rfl, rfl⟩ := StateT.pure_eq_ok.mp hsome
    exact ⟨rfl, fun _ => ⟨found, hfound, rfl⟩⟩

/-- What a call that succeeds looks up, and the frames it goes through. -/
theorem invoke_eq_ok (h : context.invoke offset mode instruction frame = .ok (event, frame')) :
    ∃ descriptor member popped taken,
      instruction.methodDescriptor context.pool = .ok descriptor ∧
      (mode ≠ .dynamic →
        ∃ found, instruction.member context.pool = .ok found ∧ member = some found) ∧
      (descriptor.parameters.reverse.forM fun parameter => do
        let _ ← Transfer.pop parameter.size : Transfer PUnit) frame = .ok ((), popped) ∧
      takeReceiver mode member popped = .ok (event, taken) ∧
      context.pushResult offset descriptor member taken = .ok ((), frame') := by
  rw [invoke_eq] at h
  obtain ⟨descriptor, start, hlookup, h₁⟩ := StateT.bind_eq_ok.mp h
  obtain ⟨hdescriptor, rfl⟩ := StateT.liftM_eq_ok.mp hlookup
  obtain ⟨⟨⟩, popped, hparameters, h₂⟩ := StateT.bind_eq_ok.mp h₁
  obtain ⟨member, middle, hcallee, h₃⟩ := StateT.bind_eq_ok.mp h₂
  obtain ⟨rfl, hmember⟩ := callee_eq_ok hcallee
  obtain ⟨told, taken, htaken, h₄⟩ := StateT.bind_eq_ok.mp h₃
  obtain ⟨⟨⟩, last, hpush, hend⟩ := StateT.bind_eq_ok.mp h₄
  obtain ⟨rfl, rfl⟩ := StateT.pure_eq_ok.mp hend
  exact ⟨descriptor, member, middle, taken, hdescriptor, hmember, hparameters, htaken, hpush⟩

end Context

end JvmTrim
