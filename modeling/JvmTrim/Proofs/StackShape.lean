import JvmTrim.Proofs.Exits
import Mathlib.Algebra.GroupWithZero.Nat

/-!
# What an execution does to the shape of a frame

Executing an instruction takes the words that `Instruction.stackEffect` says off the stack and puts
words of its own on top; all other words stay where they are and keep their producers. What the
words hold does not matter here, with one exception: a two-word value lies on an unusable word, so
whether a word is the upper half of a value belongs to the shape.

The steps of an execution are put together by two rules. `Transfer.Takes` says of a computation how
many words it takes and what the value is like that it gives, `Transfer.Gives` says of one that ends
with a push how many words it pushes.

## Main definitions

* `Slot.Alike`: slots that differ in what is known of their values only
* `Transfer.Moves`: how the frame after a computation comes from the frame before it
* `Transfer.Takes`, `Transfer.Gives`: computations that take and push words
* `Instruction.loadFits`: whether a constant load is the one for constants of that size

## Main results

* `Context.execute_moves`: an instruction takes and pushes what its stack effect says
* `Context.execute_shuffle`: a stack manipulation pushes copies
-/

namespace JvmTrim

/-- Whether two slots have the same producers and values of the same size. -/
structure Slot.Alike (a b : Slot) : Prop where
  producers_eq : a.producers = b.producers
  isWide_eq : a.value.isWide = b.value.isWide
  top_iff : a.value = .top ↔ b.value = .top

namespace Slot.Alike

theorem refl (slot : Slot) : slot.Alike slot := ⟨rfl, rfl, .rfl⟩

theorem trans {a b c : Slot} (hab : a.Alike b) (hbc : b.Alike c) : a.Alike c :=
  ⟨hab.producers_eq.trans hbc.producers_eq, hab.isWide_eq.trans hbc.isWide_eq,
    hab.top_iff.trans hbc.top_iff⟩

theorem forget (symbol : Symbol) (slot : Slot) : (slot.forget symbol).Alike slot := by
  obtain ⟨value, producers⟩ := slot
  refine ⟨rfl, ?_, ?_⟩
  all_goals
    simp only [Slot.forget, Value.withoutSymbol]
    split
    · cases value <;> simp_all [Value.symbol?, Value.unknown, Value.isWide]
    · rfl

end Slot.Alike

/-- Number of words a value takes. -/
def Value.size (value : Value) : Nat := if value.isWide then 2 else 1

theorem length_pushedWords (value : Value) (producers : OriginSet) :
    (pushedWords value producers).length = value.size := by
  rw [pushedWords, Value.size]
  split <;> rfl

theorem Value.size_of_kind? {value : Value} {kind : Kind} (h : value.kind? = some kind) :
    value.size = kind.size := by
  rw [size, isWide_of_kind? h]
  cases kind <;> rfl

theorem Value.ne_top_of_kind? {value : Value} {kind : Kind} (h : value.kind? = some kind) :
    value ≠ .top := by
  rintro rfl
  cases h

namespace Transfer

variable {α β : Type} {stores : Prop} {offset pops pops' pushes : Nat} {pushed : List Slot}
  {a b c : Frame}

/-! ## Moving words -/

/-- How a frame comes from another one: words are taken off the stack, words are put on top, all
others stay, and the variables keep their producers unless the instruction at `offset` stores. -/
structure Moves (stores : Prop) (offset pops : Nat) (pushed : List Slot) (a b : Frame) : Prop where
  le_height : pops ≤ a.stack.height
  view : ∃ kept, b.stack.view = pushed ++ kept ∧
    List.Forall₂ Slot.Alike kept (a.stack.view.drop pops)
  locals : ∀ (i : Nat) slot, b.locals.slots[i]? = some slot →
    (∃ old, a.locals.slots[i]? = some old ∧ slot.producers = old.producers) ∨
      stores ∧ slot.producers = OriginSet.ofInstruction offset

namespace Moves

theorem refl (a : Frame) : Moves stores offset 0 [] a a :=
  ⟨Nat.zero_le _, ⟨a.stack.view, rfl, List.forall₂_same.mpr fun _ _ => .refl _⟩,
    fun _ slot h => .inl ⟨slot, h, rfl⟩⟩

theorem of_drop (hle : pops ≤ a.stack.height) (hview : b.stack.view = a.stack.view.drop pops)
    (hlocals : b.locals = a.locals) : Moves stores offset pops [] a b :=
  ⟨hle, ⟨_, hview, List.forall₂_same.mpr fun _ _ => .refl _⟩, by
    rw [hlocals]
    exact fun _ slot h => .inl ⟨slot, h, rfl⟩⟩

theorem length_eq (h : Moves stores offset pops pushed a b) :
    b.stack.height = pushed.length + (a.stack.height - pops) := by
  obtain ⟨kept, hview, hkept⟩ := h.view
  rw [← Stack.length_view, hview, List.length_append, hkept.length_eq, List.length_drop,
    Stack.length_view]

theorem trans (hab : Moves stores offset pops [] a b) (hbc : Moves stores offset pops' pushed b c) :
    Moves stores offset (pops + pops') pushed a c := by
  refine ⟨?_, ?_, fun i slot hs => ?_⟩
  · have hheight := hab.length_eq
    have hle := hbc.le_height
    have hle' := hab.le_height
    simp only [List.length_nil] at hheight
    omega
  · obtain ⟨kept, hview, hkept⟩ := hab.view
    obtain ⟨kept', hview', hkept'⟩ := hbc.view
    refine ⟨kept', hview', ?_⟩
    have hdropped := List.forall₂_drop pops' hkept
    rw [List.drop_drop] at hdropped
    rw [hview, List.nil_append] at hkept'
    exact forall₂_comp (fun x y z (hxy : x.Alike y) (hyz : y.Alike z) => hxy.trans hyz) hkept'
      hdropped
  · rcases hbc.locals i slot hs with ⟨old, ho, hp⟩ | hnew
    · rcases hab.locals i old ho with ⟨older, ho', hp'⟩ | ⟨hst, hp'⟩
      · exact .inl ⟨older, ho', hp.trans hp'⟩
      · exact .inr ⟨hst, hp.trans hp'⟩
    · exact .inr hnew

/-- A word below those that are taken stays at its position. -/
theorem get?_kept (h : Moves stores offset pops pushed a b) {position : Nat}
    (hp : position < a.stack.height - pops) :
    ∃ old new, a.stack.get? position = some old ∧ b.stack.get? position = some new ∧
      new.Alike old := by
  obtain ⟨kept, hview, hkept⟩ := h.view
  have hheight := h.length_eq
  have hlength : kept.length = a.stack.height - pops := by
    rw [hkept.length_eq, List.length_drop, Stack.length_view]
  obtain ⟨new, hnew⟩ : ∃ new, kept[kept.length - 1 - position]? = some new :=
    ⟨_, List.getElem?_eq_getElem (by omega)⟩
  obtain ⟨old, hold⟩ : ∃ old, (a.stack.view.drop pops)[kept.length - 1 - position]? = some old :=
    ⟨_, List.getElem?_eq_getElem (by rw [← hkept.length_eq]; omega)⟩
  refine ⟨old, new, ?_, ?_, rel_of_forall₂ hkept hnew hold⟩
  · rw [Stack.get?, Stack.getElem?_words _ (by omega), ← hold, List.getElem?_drop]
    congr 1
    omega
  · rw [Stack.get?, Stack.getElem?_words _ (by omega), hview,
      List.getElem?_append_right (by omega), ← hnew]
    congr 1
    omega

/-- A word above those that stay was pushed. -/
theorem get?_pushed (h : Moves stores offset pops pushed a b) {position : Nat}
    (hp : a.stack.height - pops ≤ position) (hb : position < b.stack.height) :
    b.stack.get? position = pushed[b.stack.height - 1 - position]? := by
  obtain ⟨kept, hview, hkept⟩ := h.view
  have hheight := h.length_eq
  rw [Stack.get?, Stack.getElem?_words _ hb, hview, List.getElem?_append_left (by omega)]

end Moves

/-- The words of a single value that the instruction at `offset` pushed, or no words at all. -/
def PushedBy (offset pushes : Nat) (pushed : List Slot) : Prop :=
  pushes = 0 ∧ pushed = [] ∨ ∃ value, value ≠ .top ∧ value.size = pushes ∧
    pushed = pushedWords value (OriginSet.ofInstruction offset)

theorem PushedBy.length_eq (h : PushedBy offset pushes pushed) : pushed.length = pushes := by
  rcases h with ⟨rfl, rfl⟩ | ⟨value, -, rfl, rfl⟩
  · rfl
  · exact length_pushedWords _ _

theorem PushedBy.producers (h : PushedBy offset pushes pushed) :
    ∀ word ∈ pushed, word.producers = OriginSet.ofInstruction offset := by
  rcases h with ⟨-, rfl⟩ | ⟨value, -, -, rfl⟩
  · simp
  · rw [pushedWords]
    split <;> simp [Slot.top]

/-! ## Rules for computations -/

variable {x : Transfer α} {f : α → Transfer β} {P : α → Prop} {Q : β → Prop}

/-- A computation that takes words and gives a value with a property. -/
def Takes (stores : Prop) (offset pops : Nat) (P : α → Prop) (x : Transfer α) : Prop :=
  ∀ frame result frame', x frame = .ok (result, frame') →
    Moves stores offset pops [] frame frame' ∧ P result

/-- A computation that takes words and pushes a value. -/
def Gives (stores : Prop) (offset pops pushes : Nat) (x : Transfer α) : Prop :=
  ∀ frame result frame', x frame = .ok (result, frame') →
    ∃ pushed, PushedBy offset pushes pushed ∧ Moves stores offset pops pushed frame frame'

theorem Takes.bind {m n k : Nat} (hx : Takes stores offset m P x)
    (hf : ∀ result, P result → Takes stores offset n Q (f result)) (hk : k = m + n) :
    Takes stores offset k Q (x >>= f) := by
  subst hk
  intro frame result frame' h
  obtain ⟨middle, frame₁, h₁, h₂⟩ := StateT.bind_eq_ok.mp h
  obtain ⟨hm, hp⟩ := hx frame middle frame₁ h₁
  obtain ⟨hm', hq⟩ := hf middle hp frame₁ result frame' h₂
  exact ⟨hm.trans hm', hq⟩

theorem Takes.gives {m n k : Nat} (hx : Takes stores offset m P x)
    (hf : ∀ result, P result → Gives stores offset n pushes (f result)) (hk : k = m + n) :
    Gives stores offset k pushes (x >>= f) := by
  subst hk
  intro frame result frame' h
  obtain ⟨middle, frame₁, h₁, h₂⟩ := StateT.bind_eq_ok.mp h
  obtain ⟨hm, hp⟩ := hx frame middle frame₁ h₁
  obtain ⟨pushed, hpushed, hm'⟩ := hf middle hp frame₁ result frame' h₂
  exact ⟨pushed, hpushed, hm.trans hm'⟩

theorem Takes.map (hx : Takes stores offset pops P x) {g : α → β} :
    Takes stores offset pops (fun _ => True) (g <$> x) := by
  rw [map_eq_pure_bind]
  intro frame result frame' h
  obtain ⟨middle, frame₁, h₁, h₂⟩ := StateT.bind_eq_ok.mp h
  obtain ⟨rfl, rfl⟩ := StateT.pure_eq_ok.mp h₂
  exact ⟨(hx frame middle _ h₁).1, trivial⟩

/-- A computation that only takes words pushes none. -/
theorem Takes.gives_nothing (hx : Takes stores offset pops P x) :
    Gives stores offset pops 0 x := fun frame result frame' h =>
  ⟨[], .inl ⟨rfl, rfl⟩, (hx frame result frame' h).1⟩

theorem Gives.bind_pure (hx : Gives stores offset pops pushes x) (g : α → β) :
    Gives stores offset pops pushes (x >>= fun result => pure (g result)) := by
  intro frame result frame' h
  obtain ⟨middle, frame₁, h₁, h₂⟩ := StateT.bind_eq_ok.mp h
  obtain ⟨rfl, rfl⟩ := StateT.pure_eq_ok.mp h₂
  exact hx frame middle _ h₁

theorem takes_pure {result : α} (h : P result) : Takes stores offset 0 P (pure result) := by
  intro frame r frame' hr
  obtain ⟨rfl, rfl⟩ := StateT.pure_eq_ok.mp hr
  exact ⟨.refl _, h⟩

theorem takes_lift {x : Except Failure α} (h : ∀ result, x = .ok result → P result) :
    Takes stores offset 0 P (liftM x) := by
  intro frame r frame' hr
  obtain ⟨hx, rfl⟩ := StateT.liftM_eq_ok.mp hr
  exact ⟨.refl _, h r hx⟩

theorem takes_pop {count : Nat} (h : 0 < count) :
    Takes stores offset count (fun _ => True) (pop count) := by
  intro frame value frame' hp
  obtain ⟨hle, hview, hlocals, -⟩ := pop_eq_ok hp
  rw [Nat.max_eq_left h] at hview
  exact ⟨.of_drop hle hview hlocals, trivial⟩

theorem takes_popKind (kind : Kind) :
    Takes stores offset kind.size (fun value => value.kind? = some kind) (popKind kind) := by
  intro frame value frame' hp
  obtain ⟨hle, hview, hlocals, hkind, -⟩ := popKind_eq_ok hp
  exact ⟨.of_drop hle hview hlocals, hkind⟩

theorem takes_popEach (count : Nat) :
    Takes stores offset count (fun _ => True) (popEach count) := by
  intro frame value frame' hp
  obtain ⟨hle, hview, hlocals⟩ := popEach_eq_ok hp
  exact ⟨.of_drop hle hview hlocals, trivial⟩

theorem takes_load (slot : UInt16) : Takes stores offset 0 (fun _ => True) (load slot) := by
  intro frame value frame' hl
  obtain ⟨rfl, -⟩ := load_eq_ok hl
  exact ⟨.refl _, trivial⟩

theorem takes_store (slot : UInt16) (value : Value) (hstores : stores) :
    Takes stores offset 0 (fun _ => True) (store offset slot value) := by
  intro frame result frame' hs
  obtain ⟨hstack, hlocals⟩ := store_eq_ok hs
  refine ⟨⟨Nat.zero_le _, ⟨frame'.stack.view, rfl, ?_⟩, fun i found hf => ?_⟩, trivial⟩
  · rw [hstack]
    exact List.forall₂_same.mpr fun _ _ => .refl _
  · exact (Locals.producers_store hlocals hf).symm.imp (·.2) fun h => ⟨hstores, h.2⟩

theorem takes_forget (symbol : Symbol) :
    Takes stores offset 0 (fun _ => True) (forget symbol) := by
  intro frame result frame' hf
  rw [forget_eq_ok hf]
  refine ⟨⟨Nat.zero_le _, ⟨_, Stack.view_forget symbol frame.stack, ?_⟩, fun i slot hs => ?_⟩,
    trivial⟩
  · exact List.forall₂_map_left_iff.mpr (List.forall₂_same.mpr fun slot _ => .forget symbol slot)
  · simp only [Locals.forget, Array.getElem?_map, Option.map_eq_some_iff] at hs
    obtain ⟨old, ho, rfl⟩ := hs
    exact .inl ⟨old, ho, rfl⟩

theorem gives_push {value : Value} (h : value ≠ .top) :
    Gives stores offset 0 value.size (push offset value) := by
  intro frame result frame' hp
  obtain ⟨hview, hlocals⟩ := push_eq_ok hp
  refine ⟨_, .inr ⟨value, h, rfl, rfl⟩, Nat.zero_le _, ⟨_, hview, ?_⟩, ?_⟩
  · exact List.forall₂_same.mpr fun _ _ => .refl _
  · rw [hlocals]
    exact fun _ slot hs => .inl ⟨slot, hs, rfl⟩

theorem gives_push_kind {value : Value} {kind : Kind} (h : value.kind? = some kind) :
    Gives stores offset 0 kind.size (push offset value) := by
  rw [← Value.size_of_kind? h]
  exact gives_push (Value.ne_top_of_kind? h)

end Transfer

/-! ## Values that instructions push -/

theorem Detail.kind?_constant (detail : Detail) (value : Value) :
    (detail.constant value).kind? = value.kind? := by
  cases detail <;> cases value <;> rfl

theorem Detail.kind?_named (detail : Detail) (kind : Kind) (symbol : Symbol) (notNull : Bool) :
    (detail.named kind symbol notNull).kind? = some kind := by
  rw [named, kind?_constant]
  cases kind <;> rfl

theorem Detail.kind?_of_supplied? {detail : Detail} {kind : Kind} {assumed : Option Value}
    {value : Value} (h : detail.supplied? kind assumed = some value) : value.kind? = some kind := by
  obtain ⟨known, hk, rfl⟩ := Option.map_eq_some_iff.mp h
  rw [kind?_constant]
  exact beq_iff_eq.mp (Option.filter_eq_some_iff.mp hk).2

/-- A load pushes a value of its kind, or a return address in place of a reference. -/
theorem loadedValue_shape (kind : Kind) (value : Value) :
    loadedValue kind value ≠ .top ∧ (loadedValue kind value).size = kind.size := by
  unfold loadedValue
  split
  · rename_i h
    simp only [Bool.or_eq_true, decide_eq_true_eq, Bool.and_eq_true] at h
    rcases h with h | ⟨rfl, h⟩
    · exact ⟨Value.ne_top_of_kind? h, Value.size_of_kind? h⟩
    · cases value <;> simp [Value.returnAddresses?] at h
      exact ⟨by simp, rfl⟩
  · have h : (Value.unknown kind).kind? = some kind := by cases kind <;> rfl
    exact ⟨Value.ne_top_of_kind? h, Value.size_of_kind? h⟩

section Folds

variable {a b value : Value}

theorem kind?_foldArithmetic {operator : Arithmetic} {kind : Numeric}
    (h : foldArithmetic operator kind a b = .ok (some value)) : value.kind? = some kind.kind := by
  unfold foldArithmetic at h
  cases kind
  all_goals
    obtain ⟨x, -, h⟩ := Except.bind_eq_ok.mp h
    obtain ⟨y, -, h⟩ := Except.bind_eq_ok.mp h
    split at h
  · obtain ⟨number, -, rfl⟩ := Option.map_eq_some_iff.mp (Except.ok.inj h)
    rfl
  · split at h <;> cases h
    rfl
  · obtain ⟨number, -, rfl⟩ := Option.map_eq_some_iff.mp (Except.ok.inj h)
    rfl
  · split at h <;> cases h
    rfl
  all_goals
    cases h
    try rfl

theorem kind?_foldBitwise {operator : Bitwise} {kind : Integral}
    (h : foldBitwise operator kind a b = .ok (some value)) : value.kind? = some kind.kind := by
  unfold foldBitwise at h
  cases kind
  all_goals
    obtain ⟨x, -, h⟩ := Except.bind_eq_ok.mp h
    obtain ⟨y, -, h⟩ := Except.bind_eq_ok.mp h
    split at h
  · cases h
    rfl
  · split at h <;> cases h
    rfl
  · cases h
    rfl
  · split at h <;> cases h
    rfl

theorem kind?_foldShift {operator : Shift} {kind : Integral}
    (h : foldShift operator kind a b = .ok (some value)) : value.kind? = some kind.kind := by
  unfold foldShift at h
  cases kind
  all_goals
    obtain ⟨x, -, h⟩ := Except.bind_eq_ok.mp h
    obtain ⟨y, -, h⟩ := Except.bind_eq_ok.mp h
    split at h <;> cases h
    rfl

theorem kind?_foldNegation {kind : Numeric} (h : foldNegation kind a = .ok (some value)) :
    value.kind? = some kind.kind := by
  unfold foldNegation at h
  cases kind
  all_goals
    obtain ⟨x, -, h⟩ := Except.bind_eq_ok.mp h
    obtain ⟨number, -, rfl⟩ := Option.map_eq_some_iff.mp (Except.ok.inj h)
    rfl

theorem kind?_foldConversion {source target : Numeric}
    (h : foldConversion source target a = .ok (some value)) : value.kind? = some target.kind := by
  unfold foldConversion at h
  cases source
  all_goals
    obtain ⟨x, -, h⟩ := Except.bind_eq_ok.mp h
    obtain ⟨number, -, rfl⟩ := Option.map_eq_some_iff.mp (Except.ok.inj h)
    cases target <;> rfl

theorem kind?_foldCompareLong (h : foldCompareLong a b = .ok (some value)) :
    value.kind? = some .int := by
  obtain ⟨x, -, h⟩ := Except.bind_eq_ok.mp h
  obtain ⟨y, -, h⟩ := Except.bind_eq_ok.mp h
  split at h
  · cases h
    rfl
  · split at h <;> cases h
    rfl

theorem kind?_foldCompareFloating {kind : Floating} {unordered : Int32}
    (h : foldCompareFloating kind unordered a b = .ok (some value)) :
    value.kind? = some .int := by
  unfold foldCompareFloating at h
  cases kind
  all_goals
    obtain ⟨x, -, h⟩ := Except.bind_eq_ok.mp h
    obtain ⟨y, -, h⟩ := Except.bind_eq_ok.mp h
    split at h <;> cases h
    rfl

theorem kind?_narrowed {target : Narrow}
    (h : (do return (← a.expectInt).map fun number => Value.ofInt (narrowInt target number)) =
      Except.ok (ε := Failure) (some value)) : value.kind? = some .int := by
  obtain ⟨number, -, h⟩ := Except.bind_eq_ok.mp h
  obtain ⟨_, -, rfl⟩ := Option.map_eq_some_iff.mp (Except.ok.inj h)
  rfl

/-- Null is an instance of nothing, which is the one answer that is known. -/
theorem kind?_instanceOf (h : (if a.isNull then some (Value.ofInt 0) else none) = some value) :
    value.kind? = some .int := by
  split at h <;> cases h
  rfl

end Folds

/-! ## Instructions -/

theorem Instruction.shuffle?_eq_some_iff {instruction : Instruction} {move : Shuffle} :
    instruction.shuffle? = some move ↔ instruction.operation = .shuffle move := by
  unfold shuffle?
  split
  · rename_i found hop
    rw [hop, Option.some.injEq, Operation.shuffle.injEq]
  · rename_i hop
    exact ⟨fun h => absurd h (by simp), fun h => absurd h (hop move)⟩

theorem Instruction.isShuffle_eq_false {instruction : Instruction}
    (h : ∀ move, instruction.operation ≠ .shuffle move) : instruction.isShuffle = false := by
  unfold isShuffle
  cases hmove : instruction.shuffle? with
  | none => rfl
  | some move => exact absurd (Instruction.shuffle?_eq_some_iff.mp hmove) (h move)

/-- Number of words that loading a constant pushes; none if it cannot be loaded. -/
def ConstantPool.loadedSize? (pool : ConstantPool) : Constant → Option Nat
  | .integer _ | .float _ | .string _ | .class _ | .methodType _ | .methodHandle .. => some 1
  | .long _ | .double _ => some 2
  | .dynamic _ nameAndType =>
    match pool.nameAndType nameAndType with
    | .ok (_, descriptor) => (FieldType.parse descriptor).toOption.map (·.size)
    | .error _ => none
  | _ => none

/-- Whether a constant load is the one for constants of the size of the constant that it names. -/
def Instruction.loadFits (pool : ConstantPool) (instruction : Instruction) : Bool :=
  match instruction.operation, instruction.constantIndex? with
  | .loadConstant wide, some index =>
    match pool.get index with
    | .ok constant => (pool.loadedSize? constant).all (· == if wide then 2 else 1)
    | .error _ => true
  | _, _ => true

/-- Whether an instruction writes a variable. -/
def Instruction.Stores (instruction : Instruction) : Prop :=
  (∃ kind slot, instruction.operation = .store kind slot) ∨ instruction.operation = .increment

theorem Instruction.Stores.pushes_eq_zero {instruction : Instruction} {pool : ConstantPool}
    {effect : StackEffect} (h : instruction.Stores)
    (he : instruction.stackEffect pool = .ok effect) : effect.pushes = 0 := by
  unfold stackEffect at he
  rcases h with ⟨kind, slot, hop⟩ | hop
  all_goals
    simp only [hop] at he
    cases he
    rfl

theorem MethodDescriptor.sum_parameters (descriptor : MethodDescriptor) :
    (descriptor.parameters.reverse.map FieldType.size).sum = descriptor.parameterSlots := by
  rw [List.map_reverse, List.sum_reverse, List.sum_eq_foldr, List.foldr_map]
  rfl

namespace Context

open Transfer

variable {context : Context} {stores : Prop} {offset : Nat} {instruction : Instruction}

theorem takes_fresh (kind : Kind) (notNull : Bool) :
    Takes stores offset 0 (fun value => value.kind? = some kind)
      (context.fresh offset kind notNull) := by
  have hnamed (detail : Detail) : Takes stores offset 0 (fun value => value.kind? = some kind)
      (pure (detail.named kind (.instruction offset) notNull)) :=
    takes_pure (Detail.kind?_named detail kind _ notNull)
  unfold fresh
  cases context.detail with
  | precise => exact (takes_forget _).bind (fun _ _ => hnamed .precise) rfl
  | simple => exact hnamed .simple

theorem gives_pushFresh (kind : Kind) (notNull : Bool) :
    Gives stores offset 0 kind.size (context.pushFresh offset kind notNull) :=
  (takes_fresh kind notNull).gives (fun _ hvalue => gives_push_kind hvalue) rfl

theorem gives_pushConstant {value : Value} {kind : Kind} (h : value.kind? = some kind) :
    Gives stores offset 0 kind.size (context.pushConstant offset value) :=
  gives_push_kind (by rw [Detail.kind?_constant, h])

theorem takes_computed {kind : Kind} {value : Option Value}
    (h : ∀ known, value = some known → known.kind? = some kind) :
    Takes stores offset 0 (fun result => result.kind? = some kind)
      (context.computed offset kind value) := by
  unfold computed
  cases value with
  | none => exact takes_fresh kind false
  | some known => exact takes_pure (by rw [Detail.kind?_constant, h known rfl])

theorem gives_unary {source target : Kind} {fold : Value → Except Failure (Option Value)}
    (h : ∀ a known, fold a = .ok (some known) → known.kind? = some target) :
    Gives stores offset source.size target.size (context.unary offset source target fold) := by
  refine (takes_popKind source).gives (n := 0) (fun a _ => ?_) rfl
  refine (takes_lift fun _ hfold => hfold).gives (n := 0) (fun result hfold => ?_) rfl
  refine (takes_computed fun known hknown => h a known ?_).gives
    (fun _ hk => gives_push_kind hk) rfl
  rw [hfold, hknown]

theorem gives_binary {first second target : Kind}
    {fold : Value → Value → Except Failure (Option Value)}
    (h : ∀ a b known, fold a b = .ok (some known) → known.kind? = some target) :
    Gives stores offset (second.size + first.size) target.size
      (context.binary offset first second target fold) := by
  refine (takes_popKind second).gives (n := first.size) (fun b _ => ?_) rfl
  refine (takes_popKind first).gives (n := 0) (fun a _ => ?_) rfl
  refine (takes_lift fun _ hfold => hfold).gives (n := 0) (fun result hfold => ?_) rfl
  refine (takes_computed fun known hknown => h a b known ?_).gives
    (fun _ hk => gives_push_kind hk) rfl
  rw [hfold, hknown]

theorem gives_pushSupplied (kind : Kind) (assumed : Option Value) :
    Gives stores offset 0 kind.size (context.pushSupplied offset kind assumed) := by
  unfold pushSupplied
  split
  · rename_i value hvalue
    exact gives_push_kind (Detail.kind?_of_supplied? hvalue)
  · exact gives_pushFresh kind false

theorem gives_loadConstant {wide : Bool} (hop : instruction.operation = .loadConstant wide)
    (hfits : instruction.loadFits context.pool = true) :
    Gives stores offset 0 (if wide then 2 else 1) (context.loadConstant offset instruction) := by
  refine (takes_lift fun index hi => orDefect_eq_ok.mp hi).gives (n := 0) (fun index hi => ?_) rfl
  refine (takes_lift fun constant hc => hc).gives (n := 0) (fun constant hc => ?_) rfl
  have hsize : ∀ size, context.pool.loadedSize? constant = some size →
      size = if wide then 2 else 1 := by
    intro size hs
    unfold Instruction.loadFits at hfits
    simp only [hop, hi, hc, hs, Option.all_some, beq_iff_eq] at hfits
    exact hfits
  cases constant with
  | integer value =>
    rw [← hsize 1 rfl]
    exact gives_pushConstant (show (Value.ofInt value).kind? = some .int from rfl)
  | float bits =>
    rw [← hsize 1 rfl]
    exact gives_pushConstant (show (Value.ofFloat bits).kind? = some .float from rfl)
  | long value =>
    rw [← hsize 2 rfl]
    exact gives_pushConstant (show (Value.ofLong value).kind? = some .long from rfl)
  | double bits =>
    rw [← hsize 2 rfl]
    exact gives_pushConstant (show (Value.ofDouble bits).kind? = some .double from rfl)
  | string _ | «class» _ | methodType _ | methodHandle _ _ =>
    rw [← hsize 1 rfl]
    exact gives_pushFresh .reference true
  | dynamic bootstrap nameAndType =>
    refine (takes_lift fun named hn => hn).gives (n := 0) (fun named hn => ?_) rfl
    refine (takes_lift fun type ht => ht).gives (n := 0) (fun type ht => ?_) rfl
    rw [← hsize type.size (by simp [ConstantPool.loadedSize?, hn, ht, Except.toOption])]
    exact gives_pushFresh type.kind false
  | _ =>
    intro frame result frame' h
    cases h

theorem takes_increment (hstores : stores) :
    Takes stores offset 0 (fun _ => True) (context.increment offset instruction) := by
  unfold increment
  split
  · rename_i slot delta _
    refine (takes_load slot).bind (n := 0) (fun current _ => ?_) rfl
    refine Takes.bind (n := 0) (takes_computed fun known hk => ?_)
      (fun value _ => takes_store slot value hstores) rfl
    obtain ⟨number, -, rfl⟩ := Option.map_eq_some_iff.mp hk
    rfl
  · intro frame result frame' h
    cases h

theorem gives_getField (static : Bool) {type : FieldType}
    (htype : instruction.fieldType context.pool = .ok type) :
    Gives stores offset (if static then 0 else 1) type.size
      (context.getField offset static instruction) := by
  obtain ⟨member, hmember, hparse⟩ := Except.bind_eq_ok.mp htype
  have hread : Gives stores offset 0 type.size (context.pushField offset instruction) := by
    refine (takes_lift fun field hf => hf).gives (n := 0) (fun field hf => ?_) rfl
    cases hmember.symm.trans hf
    refine (takes_lift fun parsed hp => hp).gives (n := 0) (fun parsed hp => ?_) rfl
    cases hparse.symm.trans hp
    exact gives_pushSupplied type.kind _
  unfold getField
  cases static
  · exact (takes_pop Nat.one_pos).gives (n := 0) (fun _ _ => hread) rfl
  · exact hread

theorem takes_putField (static : Bool) {type : FieldType}
    (htype : instruction.fieldType context.pool = .ok type) :
    Takes stores offset (if static then type.size else 1 + type.size) (fun _ => True)
      (context.putField static instruction) := by
  unfold putField
  refine (takes_lift fun parsed hp => hp).bind (n := if static then type.size else 1 + type.size)
    (fun parsed hp => ?_) (Nat.zero_add _).symm
  cases htype.symm.trans hp
  cases static
  · exact (takes_pop type.kind.size_pos).bind (fun _ _ => (takes_pop Nat.one_pos).bind
      (fun _ _ => takes_pure trivial) rfl) (Nat.add_comm _ _)
  · exact (takes_pop type.kind.size_pos).bind (fun _ _ => takes_pure trivial) rfl

theorem takes_parameters (types : List FieldType) :
    Takes stores offset (types.map FieldType.size).sum (fun _ => True)
      (types.forM fun parameter => do let _ ← pop parameter.size) := by
  induction types with
  | nil => exact takes_pure trivial
  | cons type rest ih =>
    refine Takes.bind (P := fun _ => True) (m := type.size) ?_ (fun _ _ => ih) rfl
    exact (takes_pop type.kind.size_pos).bind (fun _ _ => takes_pure trivial) rfl

theorem takes_takeReceiver (mode : Invocation) (member : Option MemberRef) :
    Takes stores offset (if mode.hasReceiver then 1 else 0) (fun _ => True)
      (takeReceiver mode member) := by
  unfold takeReceiver
  split
  · exact (takes_pop Nat.one_pos).bind (fun _ _ => takes_pure trivial) rfl
  · exact takes_pure trivial

theorem takes_callee (mode : Invocation) :
    Takes stores offset 0 (fun _ => True) (context.callee mode instruction) := by
  unfold callee
  split
  · exact takes_pure trivial
  · exact (takes_lift (P := fun _ => True) fun _ _ => trivial).map

theorem gives_pushResult (descriptor : MethodDescriptor) (member : Option MemberRef) :
    Gives stores offset 0 descriptor.resultSlots
      (context.pushResult offset descriptor member) := by
  unfold pushResult MethodDescriptor.resultSlots
  cases descriptor.result with
  | some type => exact gives_pushSupplied type.kind _
  | none => exact (takes_pure (P := fun _ => True) trivial).gives_nothing

theorem gives_invoke (mode : Invocation) {descriptor : MethodDescriptor}
    (hdescriptor : instruction.methodDescriptor context.pool = .ok descriptor) :
    Gives stores offset (descriptor.parameterSlots + if mode.hasReceiver then 1 else 0)
      descriptor.resultSlots (context.invoke offset mode instruction) := by
  rw [invoke_eq]
  refine (takes_lift fun found hf => hf).gives
    (n := descriptor.parameterSlots + if mode.hasReceiver then 1 else 0) (fun found hf => ?_)
    (Nat.zero_add _).symm
  cases hdescriptor.symm.trans hf
  refine (takes_parameters _).gives (n := if mode.hasReceiver then 1 else 0) (fun _ _ => ?_)
    (by rw [descriptor.sum_parameters])
  refine (takes_callee mode).gives (fun member _ => ?_) (Nat.zero_add _).symm
  refine (takes_takeReceiver mode member).gives (n := 0) (fun event _ => ?_) rfl
  exact (gives_pushResult descriptor member).bind_pure fun _ => event

/-- An instruction whose only exit is the next one takes and pushes what its stack effect says. -/
theorem gives_perform {effect : StackEffect}
    (heffect : instruction.stackEffect context.pool = .ok effect)
    (hfits : instruction.loadFits context.pool = true) (hshuffle : instruction.isShuffle = false) :
    Gives instruction.Stores offset effect.pops effect.pushes
      (context.perform offset instruction) := by
  unfold Instruction.stackEffect at heffect
  unfold perform
  cases hop : instruction.operation
  all_goals simp only [hop] at heffect ⊢
  case nop | returnVoid =>
    cases heffect
    exact (takes_pure (P := fun _ => True) trivial).gives_nothing
  case pushNull =>
    cases heffect
    exact gives_pushConstant (show Value.null.kind? = some .reference from rfl)
  case pushInt value =>
    cases heffect
    exact gives_pushConstant (show (Value.ofInt value).kind? = some .int from rfl)
  case pushLong value =>
    cases heffect
    exact gives_pushConstant (show (Value.ofLong value).kind? = some .long from rfl)
  case pushFloat bits =>
    cases heffect
    exact gives_pushConstant (show (Value.ofFloat bits).kind? = some .float from rfl)
  case pushDouble bits =>
    cases heffect
    exact gives_pushConstant (show (Value.ofDouble bits).kind? = some .double from rfl)
  case pushImmediate =>
    cases heffect
    cases instruction.operand with
    | byte value => exact gives_pushConstant (show (Value.ofInt _).kind? = some .int from rfl)
    | short value => exact gives_pushConstant (show (Value.ofInt _).kind? = some .int from rfl)
    | _ =>
      intro frame result frame' h
      cases h
  case loadConstant wide =>
    have hload : Gives instruction.Stores offset 0 (if wide then 2 else 1)
        (context.loadConstant offset instruction) := gives_loadConstant hop hfits
    cases wide
    all_goals
      cases heffect
      exact hload
  case load kind slot =>
    cases heffect
    refine (takes_load _).gives (n := 0) (fun value _ => ?_) rfl
    rw [← (loadedValue_shape kind value).2]
    exact gives_push (loadedValue_shape kind value).1
  case store kind slot =>
    cases heffect
    exact ((takes_pop kind.size_pos).bind (fun value _ => takes_store _ _ (.inl ⟨kind, slot, hop⟩))
      rfl).gives_nothing
  case arrayLoad element =>
    cases heffect
    exact (takes_popEach 2).gives (fun _ _ => gives_pushFresh element.kind false) rfl
  case arrayStore element =>
    cases heffect
    exact ((takes_pop element.kind.size_pos).bind (fun _ _ => takes_popEach 2)
      (Nat.add_comm _ _)).gives_nothing
  case shuffle move =>
    rw [Instruction.isShuffle, Instruction.shuffle?_eq_some_iff.mpr hop] at hshuffle
    cases hshuffle
  case arithmetic operator kind =>
    cases heffect
    simp only [Nat.two_mul]
    exact gives_binary fun _ _ _ => kind?_foldArithmetic
  case negate kind =>
    cases heffect
    exact gives_unary fun _ _ => kind?_foldNegation
  case shift operator kind =>
    cases heffect
    simp only [Nat.add_comm kind.kind.size]
    exact gives_binary fun _ _ _ => kind?_foldShift
  case bitwise operator kind =>
    cases heffect
    simp only [Nat.two_mul]
    exact gives_binary fun _ _ _ => kind?_foldBitwise
  case increment =>
    cases heffect
    exact (takes_increment (.inr hop)).gives_nothing
  case convert source target =>
    cases heffect
    exact gives_unary fun _ _ => kind?_foldConversion
  case narrow target =>
    cases heffect
    exact gives_unary fun _ _ => kind?_narrowed
  case compareLong =>
    cases heffect
    exact gives_binary fun _ _ _ => kind?_foldCompareLong
  case compareFloating kind unordered =>
    cases heffect
    simp only [Nat.two_mul]
    exact gives_binary fun _ _ _ => kind?_foldCompareFloating
  case returnValue kind =>
    cases heffect
    exact ((takes_pop kind.size_pos).bind (fun _ _ => takes_pure (P := fun _ => True) trivial)
      rfl).gives_nothing
  case getField static =>
    obtain ⟨type, htype, heffect⟩ := Except.bind_eq_ok.mp heffect
    cases heffect
    exact gives_getField static htype
  case putField static =>
    obtain ⟨type, htype, heffect⟩ := Except.bind_eq_ok.mp heffect
    cases heffect
    exact (takes_putField static htype).gives_nothing
  case newObject =>
    cases heffect
    exact gives_pushFresh .reference true
  case newArray =>
    cases heffect
    exact (takes_popEach 1).gives (fun _ _ => gives_pushFresh .reference true) rfl
  case newMultiArray =>
    cases hoperand : instruction.operand with
    | multiArray index dimensions =>
      simp only [hoperand] at heffect ⊢
      cases heffect
      exact (takes_popEach _).gives (fun _ _ => gives_pushFresh .reference true) rfl
    | _ =>
      simp only [hoperand] at heffect
      cases heffect
  case arrayLength =>
    cases heffect
    exact (takes_popEach 1).gives (fun _ _ => gives_pushFresh .int false) rfl
  case raise | monitor =>
    cases heffect
    exact (takes_popEach 1).gives_nothing
  case checkCast =>
    cases heffect
    refine (takes_pop Nat.one_pos).gives (n := 0) (fun value _ => ?_) rfl
    split
    · rename_i hnull
      refine gives_push_kind (show value.kind? = some .reference from ?_)
      cases value <;> simp_all [Value.isNull, Value.kind?]
    · exact gives_pushFresh .reference _
  case instanceOf =>
    cases heffect
    refine (takes_pop Nat.one_pos).gives (n := 0) (fun value _ => ?_) rfl
    exact (takes_computed fun _ => kind?_instanceOf).gives (fun _ hk => gives_push_kind hk) rfl
  all_goals
    intro frame result frame' h
    cases h

theorem stackEffect_of_perform {frame frame' : Frame}
    (h : context.perform offset instruction frame = .ok ((), frame')) :
    ∃ effect, instruction.stackEffect context.pool = .ok effect := by
  unfold perform at h
  unfold Instruction.stackEffect
  cases hop : instruction.operation
  all_goals simp only [hop] at h ⊢
  case getField static =>
    have hfield : ∃ middle, context.pushField offset instruction middle = .ok ((), frame') := by
      unfold getField at h
      cases static
      · obtain ⟨_, middle, -, h⟩ := StateT.bind_eq_ok.mp h
        exact ⟨middle, h⟩
      · exact ⟨frame, h⟩
    obtain ⟨middle, hread⟩ := hfield
    obtain ⟨member, _, hlift, hrest⟩ := StateT.bind_eq_ok.mp hread
    obtain ⟨hmember, rfl⟩ := StateT.liftM_eq_ok.mp hlift
    obtain ⟨type, _, hlift', -⟩ := StateT.bind_eq_ok.mp hrest
    obtain ⟨htype, -⟩ := StateT.liftM_eq_ok.mp hlift'
    have hfieldType : instruction.fieldType context.pool = .ok type :=
      Except.bind_eq_ok.mpr ⟨member, hmember, htype⟩
    exact ⟨_, Except.bind_eq_ok.mpr ⟨type, hfieldType, rfl⟩⟩
  case putField static =>
    obtain ⟨type, _, hlift, -⟩ := StateT.bind_eq_ok.mp h
    obtain ⟨htype, -⟩ := StateT.liftM_eq_ok.mp hlift
    exact ⟨_, Except.bind_eq_ok.mpr ⟨type, htype, rfl⟩⟩
  case newMultiArray =>
    cases hoperand : instruction.operand with
    | multiArray index dimensions => exact ⟨_, rfl⟩
    | _ =>
      simp only [hoperand] at h
      cases h
  case loadConstant wide => cases wide <;> exact ⟨_, rfl⟩
  case invoke mode => cases h
  case undefined => cases h
  all_goals exact ⟨_, rfl⟩

theorem takes_condition (comparison : Operation) {pops : Nat}
    (hpops : (∃ c, comparison = .branchZero c) ∧ pops = 1 ∨
      (∃ c, comparison = .branchInt c) ∧ pops = 2 ∨
      (∃ e, comparison = .branchReference e) ∧ pops = 2 ∨
      (∃ n, comparison = .branchNull n) ∧ pops = 1) :
    Takes stores offset pops (fun _ => True) (condition comparison) := by
  rcases hpops with ⟨⟨c, rfl⟩, rfl⟩ | ⟨⟨c, rfl⟩, rfl⟩ | ⟨⟨e, rfl⟩, rfl⟩ | ⟨⟨n, rfl⟩, rfl⟩
  · exact (takes_popKind .int).bind (fun a _ => (takes_lift (P := fun _ => True)
      fun _ _ => trivial).bind (fun _ _ => takes_pure trivial) rfl) rfl
  · refine (takes_popKind .int).bind (n := 1) (fun b _ => ?_) rfl
    refine (takes_popKind .int).bind (n := 0) (fun a _ => ?_) rfl
    refine (takes_lift (P := fun _ => True) fun _ _ => trivial).bind (n := 0) (fun x _ => ?_) rfl
    refine (takes_lift (P := fun _ => True) fun _ _ => trivial).bind (n := 0) (fun y _ => ?_) rfl
    split <;> exact takes_pure trivial
  · exact (takes_pop Nat.one_pos).bind (fun b _ => (takes_pop Nat.one_pos).bind
      (fun a _ => takes_pure trivial) rfl) rfl
  · exact (takes_pop Nat.one_pos).bind (fun a _ => takes_pure trivial) rfl

theorem gives_run {next : Nat} {effect : StackEffect}
    (heffect : instruction.stackEffect context.pool = .ok effect)
    (hfits : instruction.loadFits context.pool = true) (hshuffle : instruction.isShuffle = false) :
    Gives instruction.Stores offset effect.pops effect.pushes
      (context.run offset next instruction) := by
  have hperform : Gives instruction.Stores offset effect.pops effect.pushes
      (context.perform offset instruction) := gives_perform heffect hfits hshuffle
  have hcondition {stores : Prop} {pops : Nat} {exit : Option Bool → Nat → Exit}
      (hc : Takes stores offset pops (fun _ => True) (condition instruction.operation)) :
      Gives stores offset pops 0 (do
        let decision ← condition instruction.operation
        let target ← firstTarget offset instruction (.missingTarget offset)
        return exit decision target) := by
    refine (hc.bind (Q := fun _ => True) (n := 0) (fun decision _ => ?_) rfl).gives_nothing
    exact (takes_lift (P := fun _ => True) fun _ _ => trivial).bind
      (fun _ _ => takes_pure trivial) rfl
  unfold Instruction.stackEffect at heffect
  unfold run
  cases hop : instruction.operation
  all_goals simp only [hop] at heffect ⊢
  case branchZero comparison =>
    cases heffect
    simp only [hop] at hcondition
    exact hcondition (takes_condition _ (.inl ⟨⟨_, rfl⟩, rfl⟩))
  case branchInt comparison =>
    cases heffect
    simp only [hop] at hcondition
    exact hcondition (takes_condition _ (.inr (.inl ⟨⟨_, rfl⟩, rfl⟩)))
  case branchReference equal =>
    cases heffect
    simp only [hop] at hcondition
    exact hcondition (takes_condition _ (.inr (.inr (.inl ⟨⟨_, rfl⟩, rfl⟩))))
  case branchNull null =>
    cases heffect
    simp only [hop] at hcondition
    exact hcondition (takes_condition _ (.inr (.inr (.inr ⟨⟨_, rfl⟩, rfl⟩))))
  case jump =>
    cases heffect
    exact ((takes_lift (P := fun _ => True) fun _ _ => trivial).bind (Q := fun _ => True)
      (fun _ _ => takes_pure trivial) rfl).gives_nothing
  case subroutine =>
    cases heffect
    refine (takes_lift (P := fun _ => True) fun _ _ => trivial).gives (n := 0)
      (fun target _ => ?_) rfl
    exact (gives_push (show Value.returnAddress (OffsetSet.single next) ≠ .top by simp)).bind_pure _
  case ret =>
    cases heffect
    refine (Takes.bind (Q := fun _ => True) (n := 0)
      (takes_lift (P := fun _ => True) fun _ _ => trivial) (fun slot _ => ?_) rfl).gives_nothing
    refine (takes_load slot).bind (n := 0) (fun value _ => ?_) rfl
    exact (takes_lift (P := fun _ => True) fun _ _ => trivial).bind
      (fun _ _ => takes_pure trivial) rfl
  case switch =>
    cases heffect
    refine ((takes_popKind .int).bind (Q := fun _ => True) (n := 0) (fun value _ => ?_)
      rfl).gives_nothing
    refine (takes_lift (P := fun _ => True) fun _ _ => trivial).bind (n := 0) (fun key _ => ?_) rfl
    refine (takes_lift (P := fun _ => True) fun _ _ => trivial).bind (n := 0)
      (fun targets _ => ?_) rfl
    cases key with
    | none => exact takes_pure trivial
    | some key =>
      exact (takes_lift (P := fun _ => True) fun _ _ => trivial).bind
        (fun _ _ => takes_pure trivial) rfl
  case invoke mode =>
    obtain ⟨descriptor, hdescriptor, heffect⟩ := Except.bind_eq_ok.mp heffect
    cases heffect
    exact (gives_invoke mode hdescriptor).bind_pure _
  all_goals exact hperform.bind_pure _

theorem stackEffect_of_run {next : Nat} {frame frame' : Frame} {exit : Exit}
    (h : context.run offset next instruction frame = .ok (exit, frame')) :
    ∃ effect, instruction.stackEffect context.pool = .ok effect := by
  unfold run at h
  cases hop : instruction.operation
  all_goals simp only [hop] at h
  case branchZero | branchInt | branchReference | branchNull | jump | subroutine | ret | switch =>
    unfold Instruction.stackEffect
    simp only [hop]
    exact ⟨_, rfl⟩
  case invoke mode =>
    obtain ⟨_, _, hinvoke, -⟩ := StateT.bind_eq_ok.mp h
    obtain ⟨descriptor, _, hlift, -⟩ := StateT.bind_eq_ok.mp hinvoke
    obtain ⟨hdescriptor, -⟩ := StateT.liftM_eq_ok.mp hlift
    unfold Instruction.stackEffect
    simp only [hop]
    exact ⟨_, Except.bind_eq_ok.mpr ⟨descriptor, hdescriptor, rfl⟩⟩
  all_goals
    obtain ⟨_, _, hperform, -⟩ := StateT.bind_eq_ok.mp h
    exact stackEffect_of_perform hperform

/-- **An instruction takes and pushes what its stack effect says**, and what it pushes are the words
of a single value. -/
theorem execute_moves {next : Nat} {frame : Frame} {step : Step}
    (h : context.execute offset next instruction frame = .ok step)
    (hfits : instruction.loadFits context.pool = true) (hshuffle : instruction.isShuffle = false) :
    ∃ effect pushed, instruction.stackEffect context.pool = .ok effect ∧
      PushedBy offset effect.pushes pushed ∧
      Moves instruction.Stores offset effect.pops pushed frame step.frame := by
  obtain ⟨⟨exit, frame'⟩, hrun, hstep⟩ := Except.bind_eq_ok.mp h
  cases hstep
  obtain ⟨effect, heffect⟩ := stackEffect_of_run hrun
  obtain ⟨pushed, hpushed, hmoves⟩ := gives_run heffect hfits hshuffle frame exit frame' hrun
  exact ⟨effect, pushed, heffect, hpushed, hmoves⟩

/-- **A stack manipulation pushes copies** of the words that it takes, and is legal. -/
theorem execute_shuffle {next : Nat} {frame : Frame} {step : Step} {move : Shuffle}
    (h : context.execute offset next instruction frame = .ok step)
    (hmove : instruction.operation = .shuffle move) :
    move.fits (frame.stack.words.map (·.value.isWide)) = true ∧
      ∃ copies, move.copied? frame.stack.view = some copies ∧
        step.frame.stack.view =
          copies.map (fun word => ⟨word.value, OriginSet.ofInstruction offset⟩) ++
            frame.stack.view.drop move.pops ∧
        step.frame.locals = frame.locals := by
  have hperform := perform_of_execute h (congrArg Operation.flow hmove)
    fun mode hcall => by cases hmove.symm.trans hcall
  unfold perform at hperform
  simp only [hmove] at hperform
  refine ⟨?_, shuffle_eq_ok hperform⟩
  unfold shuffle at hperform
  dsimp only at hperform
  split at hperform
  · assumption
  · cases hperform

/-- Every instruction takes and pushes as many words as its stack effect says. -/
theorem execute_effect {next : Nat} {frame : Frame} {step : Step}
    (h : context.execute offset next instruction frame = .ok step)
    (hfits : instruction.loadFits context.pool = true) :
    ∃ effect pushed, instruction.stackEffect context.pool = .ok effect ∧
      pushed.length = effect.pushes ∧
      (∀ word ∈ pushed, word.producers = OriginSet.ofInstruction offset) ∧
      Moves instruction.Stores offset effect.pops pushed frame step.frame := by
  by_cases hshuffle : instruction.isShuffle = true
  · obtain ⟨move, hm⟩ := Option.isSome_iff_exists.mp hshuffle
    have hmove := Instruction.shuffle?_eq_some_iff.mp hm
    obtain ⟨-, copies, hcopies, hview, hlocals⟩ := execute_shuffle h hmove
    obtain ⟨hle, hsources⟩ := Shuffle.copied?_eq_some hcopies
    refine ⟨⟨move.pops, move.outputs.length⟩, _, ?_, ?_, ?_, ?_, ⟨_, hview, ?_⟩, ?_⟩
    · unfold Instruction.stackEffect
      simp only [hmove]
    · rw [List.length_map, ← hsources.length_eq, List.length_reverse]
    · simp only [List.mem_map]
      rintro _ ⟨word, -, rfl⟩
      rfl
    · rwa [Stack.length_view] at hle
    · exact List.forall₂_same.mpr fun _ _ => .refl _
    · rw [hlocals]
      exact fun _ slot hs => .inl ⟨slot, hs, rfl⟩
  · obtain ⟨effect, pushed, heffect, hpushed, hmoves⟩ :=
      execute_moves h hfits (by simpa using hshuffle)
    exact ⟨effect, pushed, heffect, hpushed.length_eq, hpushed.producers, hmoves⟩

/-- The words that a stack manipulation pushes, by their positions. -/
theorem get?_execute_shuffle {next : Nat} {frame : Frame} {step : Step} {move : Shuffle}
    (h : context.execute offset next instruction frame = .ok step)
    (hmove : instruction.operation = .shuffle move) {k source : Nat}
    (hk : move.outputs[k]? = some source) :
    ∃ word, frame.stack.get? (frame.stack.height - move.pops + source) = some word ∧
      step.frame.stack.get? (frame.stack.height - move.pops + k) =
        some ⟨word.value, OriginSet.ofInstruction offset⟩ := by
  obtain ⟨-, copies, hcopies, hview, -⟩ := execute_shuffle h hmove
  obtain ⟨hle, hsources⟩ := Shuffle.copied?_eq_some hcopies
  rw [Stack.length_view] at hle
  have hlt := (List.getElem?_eq_some_iff.mp hk).1
  have hsource := Shuffle.lt_pops_of_mem_outputs (List.mem_of_getElem? hk)
  have hlength : copies.length = move.outputs.length := by
    rw [← hsources.length_eq, List.length_reverse]
  have hheight : step.frame.stack.height =
      move.outputs.length + (frame.stack.height - move.pops) := by
    rw [← Stack.length_view, hview, List.length_append, List.length_map, hlength, List.length_drop,
      Stack.length_view]
  obtain ⟨word, hword⟩ : ∃ word, copies[move.outputs.length - 1 - k]? = some word :=
    ⟨_, List.getElem?_eq_getElem (by omega)⟩
  have hreversed : move.outputs.reverse[move.outputs.length - 1 - k]? = some source := by
    rw [List.getElem?_reverse (by omega),
      show move.outputs.length - 1 - (move.outputs.length - 1 - k) = k by omega, hk]
  have hcopied := rel_of_forall₂ hsources hreversed hword
  refine ⟨word, ?_, ?_⟩
  · rw [Stack.get?, Stack.getElem?_words _ (by omega), ← hcopied,
      show frame.stack.height - 1 - (frame.stack.height - move.pops + source) =
        move.pops - 1 - source by omega]
  · rw [Stack.get?, Stack.getElem?_words _ (by omega), hview,
      List.getElem?_append_left (by rw [List.length_map]; omega), List.getElem?_map,
      show step.frame.stack.height - 1 - (frame.stack.height - move.pops + k) =
        move.outputs.length - 1 - k by omega, hword]
    rfl

end Context

end JvmTrim
