import JvmTrim.Evaluation.Folding
import JvmTrim.Instruction.StackEffect
import JvmTrim.Proofs.Boundaries

/-!
# Computations without faults

A fault is a contract between two parts of the library that was not kept; no class file is to blame
for it. `Faultless` says of a computation that it does not fail with one, whatever other failures it
may end in, and passes from the steps of a computation to the whole.

Reading instructions and constants never faults. It fails with ordinary failures only, which say
what is wrong with a class file, so no bound on an analysis shows up in it either. Folding asks
values for their numbers, which is safe for values of the kinds that it expects.

## Main definitions

* `FailsOnly`: a computation all of whose failures have a property
* `Faultless`: a computation that does not fail with a fault
* `Ordinary`: a computation that fails with what is wrong with a class file only
* `Yields`: a computation without faults, with a property of its results
* `AlwaysOrdinary`: a computation with a state that does so from any state

## Main results

* `Listing.ordinary_ofCode`: reading a body
* `Instruction.ordinary_stackEffect`: reading what an instruction refers to
-/

namespace JvmTrim

/-- Whether a computation fails, if it does, with a failure that has a property. -/
def FailsOnly {α : Type} (p : Failure → Prop) (x : Except Failure α) : Prop :=
  ∀ failure, x = .error failure → p failure

namespace FailsOnly

variable {α β σ : Type} {p q : Failure → Prop}

theorem ok (a : α) : FailsOnly p (.ok a) := by
  intro failure h
  cases h

theorem pure (a : α) : FailsOnly p (Pure.pure a) := ok a

theorem error {failure : Failure} (h : p failure) :
    FailsOnly p (.error failure : Except Failure α) := by
  intro failure' h'
  cases h'
  exact h

theorem mono {x : Except Failure α} (hx : FailsOnly p x) (h : ∀ failure, p failure → q failure) :
    FailsOnly q x :=
  fun failure hfailure => h failure (hx failure hfailure)

theorem orFail {failure : Failure} (h : p failure) (value : Option α) :
    FailsOnly p (JvmTrim.orFail failure value) := by
  cases value with
  | none => exact error h
  | some a => exact ok a

/-- A look-up that cannot miss does not fail, however its failure is called. -/
theorem orFail_of_isSome {failure : Failure} {value : Option α} (h : value.isSome = true) :
    FailsOnly p (JvmTrim.orFail failure value) := by
  obtain ⟨a, rfl⟩ := Option.isSome_iff_exists.mp h
  exact ok a

theorem bind {x : Except Failure α} {f : α → Except Failure β} (hx : FailsOnly p x)
    (hf : ∀ a, x = .ok a → FailsOnly p (f a)) : FailsOnly p (x >>= f) := by
  intro failure h
  cases x with
  | error cause =>
    cases h
    exact hx _ rfl
  | ok a => exact hf a rfl failure h

theorem map {x : Except Failure α} (hx : FailsOnly p x) (f : α → β) : FailsOnly p (f <$> x) :=
  hx.bind fun a _ => ok (f a)

theorem ite {c : Prop} [Decidable c] {x y : Except Failure α} (hx : c → FailsOnly p x)
    (hy : ¬ c → FailsOnly p y) : FailsOnly p (if c then x else y) := by
  split
  · exact hx ‹_›
  · exact hy ‹_›

theorem mapM {f : α → Except Failure β} {list : List α} (h : ∀ a ∈ list, FailsOnly p (f a)) :
    FailsOnly p (list.mapM f) := by
  induction list with
  | nil => exact pure []
  | cons head tail ih =>
    rw [List.mapM_cons]
    refine (h head List.mem_cons_self).bind fun b _ => ?_
    refine (ih fun a ha => h a (List.mem_cons_of_mem _ ha)).bind fun bs _ => pure _

theorem forM {f : α → Except Failure Unit} {list : List α} (h : ∀ a ∈ list, FailsOnly p (f a)) :
    FailsOnly p (list.forM f) := by
  induction list with
  | nil => exact pure ()
  | cons head tail ih =>
    exact (h head List.mem_cons_self).bind fun _ _ =>
      ih fun a ha => h a (List.mem_cons_of_mem _ ha)

theorem foldlM {step : σ → α → Except Failure σ} {list : List α} {s : σ}
    (h : ∀ s a, a ∈ list → FailsOnly p (step s a)) : FailsOnly p (list.foldlM step s) := by
  induction list generalizing s with
  | nil => exact pure s
  | cons head tail ih =>
    rw [List.foldlM_cons]
    exact (h s head List.mem_cons_self).bind fun _ _ =>
      ih fun s a ha => h s a (List.mem_cons_of_mem _ ha)

theorem filterM {f : α → Except Failure Bool} {list : List α}
    (h : ∀ a ∈ list, FailsOnly p (f a)) : FailsOnly p (list.filterM f) := by
  have hgo (found : List α) : FailsOnly p (list.filterAuxM f found) := by
    induction list generalizing found with
    | nil => exact pure found
    | cons head tail ih =>
      exact (h head List.mem_cons_self).bind fun _ _ =>
        ih (fun a ha => h a (List.mem_cons_of_mem _ ha)) _
  exact (hgo []).bind fun _ _ => pure _

end FailsOnly

/-! ## Faults -/

/-- Whether a failure is a fault, or was one inside a method. -/
def Failure.isFault : Failure → Bool
  | .fault _ | .abandoned .. => true
  | _ => false

/-- Whether a computation does not fail with a fault. -/
def Faultless {α : Type} (x : Except Failure α) : Prop :=
  ∀ failure, x = .error failure → failure.isFault = false

namespace Faultless

variable {α β σ : Type}

theorem ok (a : α) : Faultless (.ok a) := FailsOnly.ok a

theorem pure (a : α) : Faultless (Pure.pure a) := ok a

theorem error {failure : Failure} (h : failure.isFault = false) :
    Faultless (.error failure : Except Failure α) := FailsOnly.error h

theorem defect (cause : Defect) : Faultless (JvmTrim.defect cause : Except Failure α) := error rfl

theorem orFail {failure : Failure} (h : failure.isFault = false) (value : Option α) :
    Faultless (JvmTrim.orFail failure value) := FailsOnly.orFail h value

theorem orDefect (cause : Defect) (value : Option α) : Faultless (JvmTrim.orDefect cause value) :=
  orFail rfl value

theorem orFail_of_isSome {failure : Failure} {value : Option α} (h : value.isSome = true) :
    Faultless (JvmTrim.orFail failure value) := FailsOnly.orFail_of_isSome h

theorem bind {x : Except Failure α} {f : α → Except Failure β} (hx : Faultless x)
    (hf : ∀ a, x = .ok a → Faultless (f a)) : Faultless (x >>= f) := FailsOnly.bind hx hf

theorem map {x : Except Failure α} (hx : Faultless x) (f : α → β) : Faultless (f <$> x) :=
  FailsOnly.map hx f

theorem ite {p : Prop} [Decidable p] {x y : Except Failure α} (hx : p → Faultless x)
    (hy : ¬ p → Faultless y) : Faultless (if p then x else y) := FailsOnly.ite hx hy

/-- A check in front of a computation. -/
theorem check {p : Prop} [Decidable p] {cause : Defect} {x : Except Failure α} (h : Faultless x) :
    Faultless (if p then (JvmTrim.defect cause : Except Failure Unit) >>= fun _ => x else x) :=
  .ite (fun _ => (Faultless.defect cause).bind fun _ _ => h) fun _ => h

theorem mapM {f : α → Except Failure β} {list : List α} (h : ∀ a ∈ list, Faultless (f a)) :
    Faultless (list.mapM f) := FailsOnly.mapM h

theorem forM {f : α → Except Failure Unit} {list : List α} (h : ∀ a ∈ list, Faultless (f a)) :
    Faultless (list.forM f) := FailsOnly.forM h

theorem foldlM {step : σ → α → Except Failure σ} {list : List α} {s : σ}
    (h : ∀ s a, a ∈ list → Faultless (step s a)) : Faultless (list.foldlM step s) :=
  FailsOnly.foldlM h

theorem filterM {f : α → Except Failure Bool} {list : List α} (h : ∀ a ∈ list, Faultless (f a)) :
    Faultless (list.filterM f) := FailsOnly.filterM h

end Faultless

/-! ## Ordinary failures -/

/-- Whether a failure says what is wrong with a class file. -/
def Failure.isOrdinary : Failure → Bool
  | .malformed _ | .invalidOpcode _ | .invalidBranch .. | .poolIndex .. | .invalidDescriptor _ =>
    true
  | _ => false

/-- Whether a computation fails, if it does, because something is wrong with a class file. -/
def Ordinary {α : Type} (x : Except Failure α) : Prop :=
  FailsOnly (fun failure => failure.isOrdinary = true) x

namespace Ordinary

variable {α : Type}

theorem error {failure : Failure} (h : failure.isOrdinary = true) :
    Ordinary (.error failure : Except Failure α) := FailsOnly.error h

theorem defect (cause : Defect) : Ordinary (JvmTrim.defect cause : Except Failure α) := error rfl

theorem orFail {failure : Failure} (h : failure.isOrdinary = true) (value : Option α) :
    Ordinary (JvmTrim.orFail failure value) := FailsOnly.orFail h value

theorem orDefect (cause : Defect) (value : Option α) : Ordinary (JvmTrim.orDefect cause value) :=
  orFail rfl value

theorem faultless {x : Except Failure α} (h : Ordinary x) : Faultless x := by
  intro failure hfailure
  have hordinary := h failure hfailure
  cases failure <;> first | rfl | cases hordinary

end Ordinary

/-- Whether a computation does not fail with a fault, and gives only results with a property. -/
def Yields {α : Type} (x : Except Failure α) (Q : α → Prop) : Prop :=
  Faultless x ∧ ∀ a, x = .ok a → Q a

namespace Yields

variable {α β σ : Type} {Q : α → Prop} {R : β → Prop}

theorem ok {a : α} (h : Q a) : Yields (.ok a) Q := by
  refine ⟨.ok a, fun b hb => ?_⟩
  cases hb
  exact h

theorem pure {a : α} (h : Q a) : Yields (Pure.pure a) Q := ok h

theorem error {failure : Failure} (h : failure.isFault = false) :
    Yields (.error failure : Except Failure α) Q := by
  refine ⟨.error h, fun a ha => ?_⟩
  cases ha

theorem bind {x : Except Failure α} {f : α → Except Failure β} (hx : Yields x Q)
    (hf : ∀ a, Q a → Yields (f a) R) : Yields (x >>= f) R := by
  refine ⟨hx.1.bind fun a ha => (hf a (hx.2 a ha)).1, fun b hb => ?_⟩
  obtain ⟨a, ha, hb⟩ := Except.bind_eq_ok.mp hb
  exact (hf a (hx.2 a ha)).2 b hb

theorem mono {P : α → Prop} {x : Except Failure α} (hx : Yields x P) (h : ∀ a, P a → Q a) :
    Yields x Q :=
  ⟨hx.1, fun a ha => h a (hx.2 a ha)⟩

theorem and {P : α → Prop} {x : Except Failure α} (hx : Yields x P) (h : ∀ a, x = .ok a → Q a) :
    Yields x fun a => P a ∧ Q a :=
  ⟨hx.1, fun a ha => ⟨hx.2 a ha, h a ha⟩⟩

theorem ite {p : Prop} [Decidable p] {x y : Except Failure α} (hx : p → Yields x Q)
    (hy : ¬ p → Yields y Q) : Yields (if p then x else y) Q := by
  split
  · exact hx ‹_›
  · exact hy ‹_›

theorem mapM {f : α → Except Failure β} {list : List α} (h : ∀ a ∈ list, Yields (f a) R) :
    Yields (list.mapM f) fun results => ∀ b ∈ results, R b := by
  refine ⟨.mapM fun a ha => (h a ha).1, fun results hresults b hb => ?_⟩
  obtain ⟨a, ha, hfa⟩ := (mem_of_mapM hresults).2 b hb
  exact (h a ha).2 b hfa

/-- A fold keeps an invariant that its steps keep. -/
theorem foldlM {step : σ → α → Except Failure σ} {list : List α} {motive : σ → Prop}
    (hstep : ∀ s a, a ∈ list → motive s → Yields (step s a) motive) {s : σ} (hs : motive s) :
    Yields (list.foldlM step s) motive := by
  induction list generalizing s with
  | nil => exact pure hs
  | cons head tail ih =>
    rw [List.foldlM_cons]
    exact (hstep s head List.mem_cons_self hs).bind fun s' hs' =>
      ih (fun s a ha => hstep s a (List.mem_cons_of_mem _ ha)) hs'

end Yields

/-- A computation that does not fault, together with what is known of its results. -/
theorem Faultless.yields {α : Type} {x : Except Failure α} {Q : α → Prop} (h : Faultless x)
    (hq : ∀ a, x = .ok a → Q a) : Yields x Q := ⟨h, hq⟩

/-! ## What is left to do -/

/-- How many members of a list are still to be done. A loop that does one more of them in every step
ends within that many steps. -/
def remaining {α : Type} (done : α → Bool) (list : List α) : Nat := list.countP (!done ·)

section Remaining

variable {α : Type} {done done' : α → Bool} {list : List α}

theorem remaining_le_length : remaining done list ≤ list.length := List.countP_le_length

theorem remaining_le (h : ∀ a, done a = true → done' a = true) :
    remaining done' list ≤ remaining done list := by
  refine List.countP_mono_left fun a _ hleft => ?_
  cases hdone : done a with
  | false => rfl
  | true => simp [h a hdone] at hleft

theorem remaining_lt (h : ∀ a, done a = true → done' a = true) {a : α} (ha : a ∈ list)
    (hleft : done a = false) (hdone : done' a = true) :
    remaining done' list < remaining done list := by
  obtain ⟨front, back, rfl⟩ := List.append_of_mem ha
  have hfront : remaining done' front ≤ remaining done front := remaining_le h
  have hback : remaining done' back ≤ remaining done back := remaining_le h
  unfold remaining at hfront hback ⊢
  simp only [List.countP_append, List.countP_cons, hleft, hdone]
  simp only [Bool.not_true, Bool.not_false, if_true, Bool.false_eq_true, if_false]
  omega

end Remaining

/-- Whether a computation with a state fails with ordinary failures only, from any state. -/
def AlwaysOrdinary {σ α : Type} (x : StateT σ (Except Failure) α) : Prop :=
  ∀ state, Ordinary (x state)

namespace AlwaysOrdinary

variable {σ α β : Type}

theorem pure (a : α) : AlwaysOrdinary (Pure.pure a : StateT σ (Except Failure) α) :=
  fun _ => .ok _

theorem lift {x : Except Failure α} (h : Ordinary x) :
    AlwaysOrdinary (liftM x : StateT σ (Except Failure) α) := by
  intro state
  cases x with
  | error failure => exact .error (h failure rfl)
  | ok a => exact .ok _

theorem bind {x : StateT σ (Except Failure) α} {f : α → StateT σ (Except Failure) β}
    (hx : AlwaysOrdinary x) (hf : ∀ a, AlwaysOrdinary (f a)) : AlwaysOrdinary (x >>= f) :=
  fun state => (hx state).bind fun (a, state') _ => hf a state'

theorem ite {p : Prop} [Decidable p] {x y : StateT σ (Except Failure) α} (hx : AlwaysOrdinary x)
    (hy : AlwaysOrdinary y) : AlwaysOrdinary (if p then x else y) := by
  split
  · exact hx
  · exact hy

/-- A check in front of a computation. -/
theorem check {p : Prop} [Decidable p] {cause : Defect} {x : StateT σ (Except Failure) α}
    (h : AlwaysOrdinary x) :
    AlwaysOrdinary (if p then (liftM (defect cause : Except Failure Unit) :
      StateT σ (Except Failure) Unit) >>= fun _ => x else x) :=
  .ite ((AlwaysOrdinary.lift (.defect cause)).bind fun _ => h) h

end AlwaysOrdinary

/-! ## Reading instructions -/

namespace Read

theorem ordinary_short {α : Type} (cursor : Cursor) (need : Nat) :
    Ordinary (cursor.short need : Except Failure α) := .defect _

theorem ordinary_uint8 : AlwaysOrdinary uint8 := by
  intro cursor
  unfold uint8
  split
  · exact .ok _
  · exact ordinary_short _ _

theorem ordinary_uint16 : AlwaysOrdinary uint16 := by
  intro cursor
  unfold uint16
  split
  · exact .ok _
  · exact ordinary_short _ _

theorem ordinary_int32 : AlwaysOrdinary int32 := by
  intro cursor
  unfold int32
  split
  · exact .ok _
  · exact ordinary_short _ _

theorem ordinary_int8 : AlwaysOrdinary int8 := ordinary_uint8.bind fun _ => .pure _

theorem ordinary_int16 : AlwaysOrdinary int16 := ordinary_uint16.bind fun _ => .pure _

theorem ordinary_align {alignment : Nat} (h : alignment ≠ 0) :
    AlwaysOrdinary (align alignment) := by
  intro cursor
  rw [align, if_neg h, skip]
  exact .ite (fun _ => ordinary_short _ _) fun _ => .ok _

theorem ordinary_remaining : AlwaysOrdinary remaining := fun _ => .ok _

theorem ordinary_repeated {α : Type} {item : Read α} (h : AlwaysOrdinary item) (count : Nat)
    (acc : List α) : AlwaysOrdinary (repeated item count acc) := by
  induction count generalizing acc with
  | zero => exact .pure _
  | succ count ih => exact h.bind fun _ => ih _

end Read

namespace Instruction

open Read

theorem ordinary_readTable (offset : Nat) : AlwaysOrdinary (readTable offset) := by
  refine (ordinary_align (by decide)).bind fun _ => ordinary_int32.bind fun default =>
    ordinary_int32.bind fun low => ordinary_int32.bind fun high => ?_
  exact .check (ordinary_remaining.bind fun left =>
    .check ((ordinary_repeated ordinary_int32 _ _).bind fun _ => .pure _))

theorem ordinary_readCase : AlwaysOrdinary readCase :=
  ordinary_int32.bind fun _ => ordinary_int32.bind fun _ => .pure _

theorem ordinary_readLookup (offset : Nat) : AlwaysOrdinary (readLookup offset) := by
  refine (ordinary_align (by decide)).bind fun _ => ordinary_int32.bind fun default =>
    ordinary_int32.bind fun count => ?_
  exact .check (ordinary_remaining.bind fun left =>
    .check ((ordinary_repeated ordinary_readCase _ _).bind fun _ => .pure _))

theorem ordinary_readWide (offset : Nat) : AlwaysOrdinary (readWide offset) := by
  refine ordinary_uint8.bind fun opcode => ?_
  split
  · exact ordinary_uint16.bind fun _ => .pure _
  · exact ordinary_uint16.bind fun _ => ordinary_int16.bind fun _ => .pure _
  · exact .lift (.defect _)

theorem ordinary_readOperand (offset : Nat) (opcode : Opcode) (layout : Layout) :
    AlwaysOrdinary (readOperand offset opcode layout) := by
  cases layout with
  | bare => exact .pure _
  | byte => exact ordinary_int8.bind fun _ => .pure _
  | short => exact ordinary_int16.bind fun _ => .pure _
  | shortConstant | slot | arrayType => exact ordinary_uint8.bind fun _ => .pure _
  | constant => exact ordinary_uint16.bind fun _ => .pure _
  | increment => exact ordinary_uint8.bind fun _ => ordinary_int8.bind fun _ => .pure _
  | branch => exact ordinary_int16.bind fun _ => .pure _
  | wideBranch => exact ordinary_int32.bind fun _ => .pure _
  | table => exact (ordinary_readTable offset).bind fun _ => .pure _
  | lookup => exact (ordinary_readLookup offset).bind fun _ => .pure _
  | interfaceCall =>
    exact ordinary_uint16.bind fun _ => ordinary_uint8.bind fun _ =>
      ordinary_uint8.bind fun _ => .pure _
  | dynamicCall => exact ordinary_uint16.bind fun _ => ordinary_uint16.bind fun _ => .pure _
  | multiArray => exact ordinary_uint16.bind fun _ => ordinary_uint8.bind fun _ => .pure _
  | wide => exact ordinary_readWide offset

theorem ordinary_decode (offset : Nat) : AlwaysOrdinary (decode offset) := by
  refine ordinary_uint8.bind fun opcode => ?_
  split
  · exact ordinary_readOperand offset opcode _
  · exact fun _ => .error rfl

end Instruction

/-- Every instruction takes a byte, so reading a body ends before its bound is used up. -/
theorem ordinary_decodeLoop {bound : Nat} {cursor : Cursor}
    (h : cursor.rest.length ≤ bound) (decoded : List (Nat × Instruction)) :
    Ordinary (decodeLoop bound cursor decoded) := by
  induction bound generalizing cursor decoded with
  | zero =>
    obtain ⟨position, rest⟩ := cursor
    obtain rfl := List.eq_nil_of_length_eq_zero (Nat.le_zero.mp h)
    exact .ok _
  | succ bound ih =>
    obtain ⟨position, rest⟩ := cursor
    cases rest with
    | nil => exact .ok _
    | cons byte rest =>
      refine (Instruction.ordinary_decode position _).bind fun (instruction, next) hdecode => ?_
      have hlt := Instruction.lt_of_decode hdecode
      refine ih ?_ _
      simp only at h hlt
      omega

theorem ordinary_decodeAll (code : List UInt8) : Ordinary (decodeAll code) := by
  have hle : (Cursor.start code).rest.length ≤ code.length := Nat.le_refl _
  exact ordinary_decodeLoop hle []

/-- **Reading a body fails only because the body is malformed.** -/
theorem Listing.ordinary_ofCode (code : List UInt8) : Ordinary (ofCode code) :=
  (ordinary_decodeAll code).map _

theorem Instruction.ordinary_branchTargets (instruction : Instruction) (offset : Nat) :
    Ordinary (instruction.branchTargets offset) :=
  .mapM fun _ _ => .ite (fun _ => .error rfl) fun _ => .ok _

/-! ## Reading constants -/

namespace ConstantPool

variable (pool : ConstantPool) (index : UInt16)

theorem ordinary_get : Ordinary (pool.get index) := .orFail rfl _

theorem ordinary_utf8 : Ordinary (pool.utf8 index) := by
  refine (pool.ordinary_get index).bind fun constant _ => ?_
  cases constant <;> first | exact .ok _ | exact .error rfl

theorem ordinary_className : Ordinary (pool.className index) := by
  refine (pool.ordinary_get index).bind fun constant _ => ?_
  cases constant <;> first | exact pool.ordinary_utf8 _ | exact .error rfl

theorem ordinary_nameAndType : Ordinary (pool.nameAndType index) := by
  refine (pool.ordinary_get index).bind fun constant hget => ?_
  clear hget
  cases constant
  case nameAndType name descriptor =>
    exact (pool.ordinary_utf8 name).bind fun _ _ =>
      (pool.ordinary_utf8 descriptor).bind fun _ _ => .ok _
  all_goals exact .error rfl

theorem ordinary_memberRef : Ordinary (pool.memberRef index) := by
  have hmember (owner nameAndType : UInt16) (kind : MemberKind) : Ordinary (do
      let named ← pool.nameAndType nameAndType
      return (⟨← pool.className owner, named.1, named.2, kind⟩ : MemberRef)) :=
    (pool.ordinary_nameAndType nameAndType).bind fun _ _ =>
      (pool.ordinary_className owner).bind fun _ _ => .ok _
  refine (pool.ordinary_get index).bind fun constant _ => ?_
  cases constant <;> first | exact hmember _ _ _ | exact .error rfl

theorem ordinary_callSiteDescriptor : Ordinary (pool.callSiteDescriptor index) := by
  refine (pool.ordinary_get index).bind fun constant hget => ?_
  clear hget
  cases constant
  case invokeDynamic bootstrap nameAndType =>
    exact (pool.ordinary_nameAndType nameAndType).bind fun _ _ => .ok _
  all_goals exact .error rfl

end ConstantPool

theorem FieldType.ordinary_parse (descriptor : String) : Ordinary (parse descriptor) := by
  unfold parse
  split
  · exact .ok _
  · exact .error rfl

theorem MethodDescriptor.ordinary_parse (descriptor : String) : Ordinary (parse descriptor) :=
  .orFail rfl _

namespace Instruction

variable (instruction : Instruction) (pool : ConstantPool)

theorem ordinary_member : Ordinary (instruction.member pool) :=
  (Ordinary.orDefect _ _).bind fun index _ => pool.ordinary_memberRef index

theorem ordinary_fieldType : Ordinary (instruction.fieldType pool) :=
  (instruction.ordinary_member pool).bind fun _ _ => FieldType.ordinary_parse _

theorem ordinary_methodDescriptor : Ordinary (instruction.methodDescriptor pool) := by
  refine (Ordinary.orDefect _ _).bind fun index _ => .ite (fun _ => ?_) fun _ => ?_
  · exact (pool.ordinary_callSiteDescriptor index).bind fun _ _ =>
      MethodDescriptor.ordinary_parse _
  · exact (pool.ordinary_memberRef index).bind fun _ _ => MethodDescriptor.ordinary_parse _

/-- The stack effect of an instruction is known or the class file is to blame. -/
theorem ordinary_stackEffect : Ordinary (instruction.stackEffect pool) := by
  unfold stackEffect
  cases hop : instruction.operation
  case getField | putField =>
    exact (instruction.ordinary_fieldType pool).bind fun _ _ => .ok _
  case invoke => exact (instruction.ordinary_methodDescriptor pool).bind fun _ _ => .ok _
  case loadConstant wide => cases wide <;> exact .ok _
  case newMultiArray =>
    simp only
    split
    · exact .ok _
    · exact .defect _
  case undefined => exact .error rfl
  all_goals exact .ok _

end Instruction

/-! ## Values of known kinds -/

namespace Value

variable {a b : Value}

theorem ordinary_expectInt (h : a.kind? = some .int) : Ordinary a.expectInt := by
  cases a <;> first | exact .ok _ | cases h

theorem ordinary_expectLong (h : a.kind? = some .long) : Ordinary a.expectLong := by
  cases a <;> first | exact .ok _ | cases h

theorem ordinary_expectFloat (h : a.kind? = some .float) : Ordinary a.expectFloat := by
  cases a <;> first | exact .ok _ | cases h

theorem ordinary_expectDouble (h : a.kind? = some .double) : Ordinary a.expectDouble := by
  cases a <;> first | exact .ok _ | cases h

end Value

section Folds

variable {a b : Value}

/-- Two operands are looked at before they are combined. -/
theorem ordinary_operands {α β γ : Type} {x : Except Failure α} {y : Except Failure β}
    {f : α → β → Except Failure γ} (hx : Ordinary x) (hy : Ordinary y)
    (hf : ∀ first second, Ordinary (f first second)) : Ordinary (do f (← x) (← y)) :=
  FailsOnly.bind hx fun first _ => FailsOnly.bind hy fun second _ => hf first second

theorem ordinary_foldArithmetic (operator : Arithmetic) {kind : Numeric}
    (ha : a.kind? = some kind.kind) (hb : b.kind? = some kind.kind) :
    Ordinary (foldArithmetic operator kind a b) := by
  cases kind
  case int =>
    refine ordinary_operands (Value.ordinary_expectInt ha) (Value.ordinary_expectInt hb) fun _ _ => ?_
    split <;> exact .ok _
  case long =>
    refine ordinary_operands (Value.ordinary_expectLong ha) (Value.ordinary_expectLong hb) fun _ _ => ?_
    split <;> exact .ok _
  case float =>
    refine ordinary_operands (Value.ordinary_expectFloat ha) (Value.ordinary_expectFloat hb) fun _ _ => ?_
    split <;> exact .ok _
  case double =>
    refine ordinary_operands (Value.ordinary_expectDouble ha) (Value.ordinary_expectDouble hb) fun _ _ => ?_
    split <;> exact .ok _

theorem ordinary_foldBitwise (operator : Bitwise) {kind : Integral}
    (ha : a.kind? = some kind.kind) (hb : b.kind? = some kind.kind) :
    Ordinary (foldBitwise operator kind a b) := by
  cases kind
  case int =>
    refine ordinary_operands (Value.ordinary_expectInt ha) (Value.ordinary_expectInt hb) fun _ _ => ?_
    split <;> exact .ok _
  case long =>
    refine ordinary_operands (Value.ordinary_expectLong ha) (Value.ordinary_expectLong hb) fun _ _ => ?_
    split <;> exact .ok _

theorem ordinary_foldShift (operator : Shift) {kind : Integral}
    (ha : a.kind? = some kind.kind) (hb : b.kind? = some .int) :
    Ordinary (foldShift operator kind a b) := by
  cases kind
  case int =>
    refine ordinary_operands (Value.ordinary_expectInt ha) (Value.ordinary_expectInt hb) fun _ _ => ?_
    split <;> exact .ok _
  case long =>
    refine ordinary_operands (Value.ordinary_expectLong ha) (Value.ordinary_expectInt hb) fun _ _ => ?_
    split <;> exact .ok _

theorem ordinary_foldNegation {kind : Numeric} (ha : a.kind? = some kind.kind) :
    Ordinary (foldNegation kind a) := by
  cases kind
  case int => exact (Value.ordinary_expectInt ha).bind fun _ _ => .ok _
  case long => exact (Value.ordinary_expectLong ha).bind fun _ _ => .ok _
  case float => exact (Value.ordinary_expectFloat ha).bind fun _ _ => .ok _
  case double => exact (Value.ordinary_expectDouble ha).bind fun _ _ => .ok _

theorem ordinary_foldConversion {source : Numeric} (target : Numeric)
    (ha : a.kind? = some source.kind) : Ordinary (foldConversion source target a) := by
  cases source
  case int => exact (Value.ordinary_expectInt ha).bind fun _ _ => .ok _
  case long => exact (Value.ordinary_expectLong ha).bind fun _ _ => .ok _
  case float => exact (Value.ordinary_expectFloat ha).bind fun _ _ => .ok _
  case double => exact (Value.ordinary_expectDouble ha).bind fun _ _ => .ok _

theorem ordinary_foldCompareLong (ha : a.kind? = some .long) (hb : b.kind? = some .long) :
    Ordinary (foldCompareLong a b) := by
  refine ordinary_operands (Value.ordinary_expectLong ha) (Value.ordinary_expectLong hb) fun _ _ => ?_
  split <;> exact .ok _

theorem ordinary_foldCompareFloating {kind : Floating} (unordered : Int32)
    (ha : a.kind? = some kind.kind) (hb : b.kind? = some kind.kind) :
    Ordinary (foldCompareFloating kind unordered a b) := by
  cases kind
  case single =>
    refine ordinary_operands (Value.ordinary_expectFloat ha) (Value.ordinary_expectFloat hb) fun _ _ => ?_
    split <;> exact .ok _
  case double =>
    refine ordinary_operands (Value.ordinary_expectDouble ha) (Value.ordinary_expectDouble hb) fun _ _ => ?_
    split <;> exact .ok _

end Folds

end JvmTrim
