import JvmTrim.Proofs.Heights
import JvmTrim.Proofs.TransferSound
import JvmTrim.Proofs.Within

/-!
# Executing an instruction on a coarser frame

A precise and a simple evaluation execute the same instruction on frames within each other. Where
both executions succeed, the resulting frames are within each other again, and control goes on at
some of the offsets that the simple evaluation considers. The simple evaluation decides a branch
only by what it knows of null, and then the precise one decides it in the same way.

One instruction has to be excluded: a store of one word that finds a two-word value on the stack.
It stores what it finds, so it writes two variables; a simple evaluation that has merged the value
with another one by then writes only one of them.

## Main definitions

* `Instruction.splits`: a one-word store that finds a two-word value

## Main results

* `Context.execute_within`: one instruction, on frames within each other
-/

namespace JvmTrim

/-- Whether an instruction stores one word and finds a two-word value on top of the stack. -/
def Instruction.splits (instruction : Instruction) (frame : Frame) : Bool :=
  match instruction.operation with
  | .store kind _ => kind.size = 1 && (frame.stack.peek? 0).any (·.value.isWide)
  | _ => false

theorem Value.kind?_specific (kind : Kind) (symbol : Symbol) (notNull : Bool) :
    (specific kind symbol notNull).kind? = some kind := by
  cases kind <;> rfl

theorem Stack.peek?_zero_eq (stack : Stack) : stack.peek? 0 = stack.view.head? := by
  unfold peek?
  split
  · rename_i hpos
    rw [getElem?_words stack (by omega), List.head?_eq_getElem?]
    congr 1
    omega
  · rename_i hzero
    rw [← length_view] at hzero
    rw [List.length_eq_zero_iff.mp (Nat.eq_zero_of_not_pos hzero)]
    rfl

open Transfer

namespace Context

/-- What a precise evaluation depends on. -/
abbrev precise (pool : ConstantPool) (assumptions : Assumptions) : Context :=
  ⟨pool, .precise, assumptions⟩

/-- What a simple evaluation depends on. -/
abbrev simple (pool : ConstantPool) (assumptions : Assumptions) : Context :=
  ⟨pool, .simple, assumptions⟩

variable (pool : ConstantPool) (assumptions : Assumptions) (offset : Nat)

/-! ## Values that instructions produce -/

theorem withinOf_named (kind : Kind) (symbol : Symbol) {notNull notNull' : Bool}
    (h : notNull' = true → notNull = true) :
    Value.WithinOf kind (Detail.precise.named kind symbol notNull)
      (Detail.simple.named kind symbol notNull') := by
  refine Value.withinOf_constant (Detail.kind?_named _ _ _ _) (Value.kind?_specific _ _ _) ?_
  cases kind <;> first | exact h | exact id

theorem runsWithin_fresh (kind : Kind) {notNull notNull' : Bool}
    (h : notNull' = true → notNull = true) :
    RunsWithin (Value.WithinOf kind)
      ((precise pool assumptions).fresh offset kind notNull)
      ((simple pool assumptions).fresh offset kind notNull') :=
  (runsWithin_forget _).bind fun _ _ _ =>
    .pure (withinOf_named kind _ h)

theorem runsWithin_pushFresh (kind : Kind) {notNull notNull' : Bool}
    (h : notNull' = true → notNull = true) :
    RunsWithin (fun _ _ => True) ((precise pool assumptions).pushFresh offset kind notNull)
      ((simple pool assumptions).pushFresh offset kind notNull') :=
  (runsWithin_fresh pool assumptions offset kind h).bind fun _ _ hab =>
    runsWithin_push hab

theorem runsWithin_pushConstant {value : Value} {kind : Kind} (h : value.kind? = some kind) :
    RunsWithin (fun _ _ => True) ((precise pool assumptions).pushConstant offset value)
      ((simple pool assumptions).pushConstant offset value) :=
  runsWithin_push (Value.withinOf_constant h h id)

/-- Whatever is computed of a number's kind, both sides have a value of that kind. -/
theorem runsWithin_computed {kind : Kind} {result result' : Option Value}
    (hne : kind ≠ .reference) (h : ∀ v, result = some v → v.kind? = some kind)
    (h' : ∀ v, result' = some v → v.kind? = some kind) :
    RunsWithin (Value.WithinOf kind)
      ((precise pool assumptions).computed offset kind result)
      ((simple pool assumptions).computed offset kind result') := by
  have hwithin {a b : Value} (ha : a.kind? = some kind) (hb : b.kind? = some kind) :
      Value.WithinOf kind a (Detail.simple.constant b) :=
    Value.withinOf_constant ha hb fun hn => by
      rw [Value.isNotNull_eq_false_of_kind? hb hne] at hn
      cases hn
  have hspecific := Value.kind?_specific kind (.instruction offset) false
  cases result with
  | some v =>
    cases result' with
    | some v' => exact .pure (hwithin (h v rfl) (h' v' rfl))
    | none => exact .pure (hwithin (h v rfl) hspecific)
  | none =>
    cases result' with
    | some v' =>
      exact (runsWithin_forget _).bind fun _ _ _ => .pure (hwithin hspecific (h' v' rfl))
    | none => exact (runsWithin_forget _).bind fun _ _ _ => .pure (hwithin hspecific hspecific)

theorem runsWithin_unary {source target : Kind} {fold : Value → Except Failure (Option Value)}
    (hne : target ≠ .reference)
    (hfold : ∀ a v, fold a = .ok (some v) → v.kind? = some target) :
    RunsWithin (fun _ _ => True) ((precise pool assumptions).unary offset source target fold)
      ((simple pool assumptions).unary offset source target fold) := by
  refine (runsWithin_popKind source).bind fun a a' _ => ?_
  refine RunsWithin.bind (R := fun r r' => fold a = .ok r ∧ fold a' = .ok r')
    (.lift fun r r' hr hr' => ⟨hr, hr'⟩) fun r r' hr => ?_
  refine (runsWithin_computed pool assumptions offset hne (fun v hv => hfold a v (hv ▸ hr.1))
    fun v hv => hfold a' v (hv ▸ hr.2)).bind fun _ _ hab => runsWithin_push hab

theorem runsWithin_binary {first second target : Kind}
    {fold : Value → Value → Except Failure (Option Value)} (hne : target ≠ .reference)
    (hfold : ∀ a b v, fold a b = .ok (some v) → v.kind? = some target) :
    RunsWithin (fun _ _ => True)
      ((precise pool assumptions).binary offset first second target fold)
      ((simple pool assumptions).binary offset first second target fold) := by
  refine (runsWithin_popKind second).bind fun b b' _ => ?_
  refine (runsWithin_popKind first).bind fun a a' _ => ?_
  refine RunsWithin.bind (R := fun r r' => fold a b = .ok r ∧ fold a' b' = .ok r')
    (.lift fun r r' hr hr' => ⟨hr, hr'⟩) fun r r' hr => ?_
  exact (runsWithin_computed pool assumptions offset hne (fun v hv => hfold a b v (hv ▸ hr.1))
    fun v hv => hfold a' b' v (hv ▸ hr.2)).bind fun _ _ hab => runsWithin_push hab

/-- What is assumed of a value from outside is assumed on both sides. -/
theorem supplied?_within (kind : Kind) (assumed : Option Value) :
    Detail.precise.supplied? kind assumed = none ∧ Detail.simple.supplied? kind assumed = none ∨
      ∃ a b, Detail.precise.supplied? kind assumed = some a ∧
        Detail.simple.supplied? kind assumed = some b ∧ Value.WithinOf kind a b := by
  unfold Detail.supplied?
  cases hknown : assumed.filter fun v => v.kind? == some kind with
  | none => exact .inl ⟨rfl, rfl⟩
  | some v =>
    have hk : v.kind? = some kind := beq_iff_eq.mp (Option.filter_eq_some_iff.mp hknown).2
    exact .inr ⟨_, _, rfl, rfl, Value.withinOf_constant hk hk id⟩

theorem runsWithin_pushSupplied (kind : Kind) (assumed : Option Value) :
    RunsWithin (fun _ _ => True) ((precise pool assumptions).pushSupplied offset kind assumed)
      ((simple pool assumptions).pushSupplied offset kind assumed) := by
  unfold pushSupplied
  rcases supplied?_within kind assumed with ⟨ha, hb⟩ | ⟨a, b, ha, hb, hab⟩
  · simp only [ha, hb]
    exact runsWithin_pushFresh pool assumptions offset kind id
  · simp only [ha, hb]
    exact runsWithin_push hab

/-! ## Groups of instructions -/

variable (instruction : Instruction)

theorem runsWithin_loadConstant :
    RunsWithin (fun _ _ => True) ((precise pool assumptions).loadConstant offset instruction)
      ((simple pool assumptions).loadConstant offset instruction) := by
  refine .bind_lift fun index _ => .bind_lift fun constant _ => ?_
  cases constant with
  | integer value => exact runsWithin_pushConstant pool assumptions offset rfl
  | float bits => exact runsWithin_pushConstant pool assumptions offset rfl
  | long value => exact runsWithin_pushConstant pool assumptions offset rfl
  | double bits => exact runsWithin_pushConstant pool assumptions offset rfl
  | string _ | «class» _ | methodType _ | methodHandle _ _ =>
    exact runsWithin_pushFresh pool assumptions offset .reference id
  | dynamic _ nameAndType =>
    refine .bind_lift fun _ _ => .bind_lift fun type _ => ?_
    exact runsWithin_pushFresh pool assumptions offset _ id
  | _ => exact .of_error

theorem runsWithin_increment :
    RunsWithin (fun _ _ => True) ((precise pool assumptions).increment offset instruction)
      ((simple pool assumptions).increment offset instruction) := by
  unfold increment
  cases instruction.operand with
  | increment slot delta =>
    have hint (current v : Value)
        (h : (current.int?.map fun x => Value.ofInt (x + delta.toInt32)) = some v) :
        v.kind? = some .int := by
      obtain ⟨number, -, rfl⟩ := Option.map_eq_some_iff.mp h
      rfl
    refine (runsWithin_load slot).bind fun current current' _ => ?_
    refine (runsWithin_computed pool assumptions offset (by decide) (hint current)
      (hint current')).bind fun a b hab => ?_
    exact runsWithin_store slot hab.1.toWithin hab.isWide_eq
  | _ => exact .of_error

theorem runsWithin_getField (static : Bool) :
    RunsWithin (fun _ _ => True) ((precise pool assumptions).getField offset static instruction)
      ((simple pool assumptions).getField offset static instruction) := by
  have hrest : RunsWithin (fun _ _ => True)
      ((precise pool assumptions).pushField offset instruction)
      ((simple pool assumptions).pushField offset instruction) :=
    .bind_lift fun field _ => .bind_lift fun type _ =>
      runsWithin_pushSupplied pool assumptions offset type.kind _
  cases static with
  | false => exact (runsWithin_pop 1).bind fun _ _ _ => hrest
  | true => exact hrest

theorem runsWithin_putField (static : Bool) :
    RunsWithin (fun _ _ => True) ((precise pool assumptions).putField static instruction)
      ((simple pool assumptions).putField static instruction) := by
  refine .bind_lift fun type _ => (runsWithin_pop type.size).bind fun _ _ _ => ?_
  cases static with
  | false => exact (runsWithin_pop 1).bind fun _ _ _ => .pure trivial
  | true => exact .pure trivial

theorem runsWithin_parameters (types : List FieldType) :
    RunsWithin (fun _ _ => True)
      (types.forM fun parameter => do let _ ← Transfer.pop parameter.size)
      (types.forM fun parameter => do let _ ← Transfer.pop parameter.size) := by
  induction types with
  | nil => exact .pure trivial
  | cons type rest ih =>
    refine RunsWithin.bind (R := fun _ _ => True) ?_ fun _ _ _ => ih
    exact (runsWithin_pop type.size).bind fun _ _ _ => .pure trivial

theorem runsWithin_callee (mode : Invocation) :
    RunsWithin Eq ((precise pool assumptions).callee mode instruction)
      ((simple pool assumptions).callee mode instruction) := by
  unfold callee
  split
  · exact .pure rfl
  · exact .bind_lift fun _ _ => .pure rfl

theorem runsWithin_takeReceiver (mode : Invocation) (member : Option MemberRef) :
    RunsWithin (fun _ _ => True) (takeReceiver mode member) (takeReceiver mode member) := by
  unfold takeReceiver
  split
  · exact (runsWithin_pop 1).bind fun _ _ _ => .pure trivial
  · exact .pure trivial

theorem runsWithin_pushResult (descriptor : MethodDescriptor) (member : Option MemberRef) :
    RunsWithin (fun _ _ => True) ((precise pool assumptions).pushResult offset descriptor member)
      ((simple pool assumptions).pushResult offset descriptor member) := by
  unfold pushResult
  cases descriptor.result with
  | none => exact .pure trivial
  | some type => exact runsWithin_pushSupplied pool assumptions offset _ _

theorem runsWithin_invoke (mode : Invocation) :
    RunsWithin (fun _ _ => True) ((precise pool assumptions).invoke offset mode instruction)
      ((simple pool assumptions).invoke offset mode instruction) := by
  rw [invoke_eq, invoke_eq]
  refine .bind_lift fun descriptor _ => (runsWithin_parameters _).bind fun _ _ _ => ?_
  refine (runsWithin_callee pool assumptions instruction mode).bind fun member _ hsame => ?_
  cases hsame
  exact (runsWithin_takeReceiver mode member).bind fun _ _ _ =>
    (runsWithin_pushResult pool assumptions offset descriptor member).bind fun _ _ _ =>
      .pure trivial

/-! ## Instructions -/

theorem withinOf_loadedValue (kind : Kind) {a b : Value} (h : a.Within b) :
    Value.WithinOf kind (loadedValue kind a) (loadedValue kind b) := by
  have hloaded {value : Value} (hfree : value.returnAddresses? = none) :
      loadedValue kind value = if value.kind? = some kind then value else .unknown kind := by
    simp [loadedValue, hfree]
  have hkind {value : Value} (hfree : value.returnAddresses? = none) :
      (loadedValue kind value).kind? = some kind := by
    rw [hloaded hfree]
    split
    · assumption
    · cases kind <;> rfl
  have hb := hkind h.plain.2
  refine ⟨⟨⟨?_, Value.returnAddresses?_of_kind? (hkind h.noAddress), fun hn => ?_⟩,
    fun k hk => ?_⟩, hb⟩
  · rw [hloaded h.plain.2]
    split
    · exact h.plain
    · exact Value.isPlain_unknown kind
  · rw [hloaded h.plain.2] at hn
    split at hn
    · rename_i hk
      have hnotNull := h.notNull hn
      have hsame : kind = .reference :=
        Option.some.inj (hk.symm.trans (Value.kind?_eq_reference_of_isNotNull hn))
      rw [hloaded h.noAddress, if_pos (hsame ▸ Value.kind?_eq_reference_of_isNotNull hnotNull)]
      exact hnotNull
    · cases kind <;> cases hn
  · rw [hkind h.noAddress, ← hb, hk]

/-- A store of two words stores a two-word value on both sides. -/
theorem within_storedValue {kind : Kind} (hsize : kind.size = 2) {a b : Value}
    (h : a.WithinKind b) : (storedValue kind a).Within (storedValue kind b) ∧
      (storedValue kind a).isWide = (storedValue kind b).isWide := by
  have hstored (value : Value) : (storedValue kind value).isWide = true ∧
      (value.IsPlain → (storedValue kind value).IsPlain) ∧
      (value.returnAddresses? = none → (storedValue kind value).returnAddresses? = none) := by
    unfold storedValue
    cases hwide : value.isWide with
    | true => simpa using hwide
    | false =>
      simp only [hsize, decide_true, Bool.not_false, Bool.and_self, if_true]
      refine ⟨?_, fun _ => Value.isPlain_unknown kind, fun _ => ?_⟩
      · cases kind <;> first | rfl | cases hsize
      · cases kind <;> rfl
  have hkind {value : Value} (hwide : value.isWide = true) : value.isNotNull = false := by
    cases value <;> first | rfl | cases hwide
  refine ⟨⟨(hstored b).2.1 h.plain, (hstored a).2.2 h.noAddress, fun hn => ?_⟩, ?_⟩
  · rw [hkind (hstored b).1] at hn
    cases hn
  · rw [(hstored a).1, (hstored b).1]

/-- A cast leaves null as it is; the simple side does not know null, and then it knows nothing of
null. -/
theorem runsWithin_checkCast : RunsWithin (fun _ _ => True)
    (do
      let value ← pop 1
      if value.isNull then push offset value
      else (precise pool assumptions).pushFresh offset .reference value.isNotNull)
    (do
      let value ← pop 1
      if value.isNull then push offset value
      else (simple pool assumptions).pushFresh offset .reference value.isNotNull) := by
  refine (runsWithin_pop 1).bind fun a b hab => ?_
  rw [hab.plain.isNull_eq_false, if_neg Bool.false_ne_true]
  by_cases hnull : a.isNull = true
  · rw [if_pos hnull]
    obtain rfl : a = .null := by
      cases a with
      | reference r => cases r <;> first | rfl | cases hnull
      | _ => cases hnull
    change RunsWithin _ (push offset .null)
      (push offset (Detail.simple.named .reference (.instruction offset) b.isNotNull))
    exact runsWithin_push (Value.withinOf_constant rfl rfl hab.notNull)
  · rw [if_neg hnull]
    exact runsWithin_pushFresh pool assumptions offset .reference hab.notNull

/-- An instruction with the next one as its only exit, stores of one word apart. -/
theorem runsWithin_perform
    (hwide : ∀ kind slot, instruction.operation = .store kind slot → kind.size = 2) :
    RunsWithin (fun _ _ => True) ((precise pool assumptions).perform offset instruction)
      ((simple pool assumptions).perform offset instruction) := by
  unfold perform
  cases hop : instruction.operation
  case pushImmediate =>
    cases instruction.operand with
    | byte value => exact runsWithin_pushConstant pool assumptions offset rfl
    | short value => exact runsWithin_pushConstant pool assumptions offset rfl
    | _ => exact .of_error
  case loadConstant => exact runsWithin_loadConstant pool assumptions offset instruction
  case load kind slot =>
    exact (runsWithin_load _).bind fun _ _ hab => runsWithin_push (withinOf_loadedValue kind hab)
  case store kind slot =>
    refine (runsWithin_pop _).bind fun a b hab => ?_
    obtain ⟨hwithin, hsame⟩ := within_storedValue (hwide kind slot hop) hab
    exact runsWithin_store _ hwithin hsame
  case arrayLoad =>
    exact (runsWithin_popEach 2).bind fun _ _ _ =>
      runsWithin_pushFresh pool assumptions offset _ id
  case arrayStore => exact (runsWithin_pop _).bind fun _ _ _ => runsWithin_popEach 2
  case shuffle move => exact runsWithin_shuffle instruction move
  case arithmetic operator kind =>
    exact runsWithin_binary pool assumptions offset (by cases kind <;> decide)
      fun _ _ _ => kind?_foldArithmetic
  case negate kind =>
    exact runsWithin_unary pool assumptions offset (by cases kind <;> decide)
      fun _ _ => kind?_foldNegation
  case shift operator kind =>
    exact runsWithin_binary pool assumptions offset (by cases kind <;> decide)
      fun _ _ _ => kind?_foldShift
  case bitwise operator kind =>
    exact runsWithin_binary pool assumptions offset (by cases kind <;> decide)
      fun _ _ _ => kind?_foldBitwise
  case increment => exact runsWithin_increment pool assumptions offset instruction
  case convert source target =>
    exact runsWithin_unary pool assumptions offset (by cases target <;> decide)
      fun _ _ => kind?_foldConversion
  case narrow target =>
    exact runsWithin_unary pool assumptions offset (by decide) fun _ _ => kind?_narrowed
  case compareLong =>
    exact runsWithin_binary pool assumptions offset (by decide) fun _ _ _ => kind?_foldCompareLong
  case compareFloating kind unordered =>
    exact runsWithin_binary pool assumptions offset (by decide)
      fun _ _ _ => kind?_foldCompareFloating
  case returnValue => exact (runsWithin_pop _).bind fun _ _ _ => .pure trivial
  case getField static => exact runsWithin_getField pool assumptions offset instruction static
  case putField static => exact runsWithin_putField pool assumptions instruction static
  case newObject => exact runsWithin_pushFresh pool assumptions offset _ id
  case newArray | arrayLength =>
    exact (runsWithin_popEach 1).bind fun _ _ _ =>
      runsWithin_pushFresh pool assumptions offset _ id
  case newMultiArray =>
    cases instruction.operand with
    | multiArray index dimensions =>
      exact (runsWithin_popEach _).bind fun _ _ _ =>
        runsWithin_pushFresh pool assumptions offset _ id
    | _ => exact .of_error
  case raise | monitor => exact runsWithin_popEach 1
  case checkCast => exact runsWithin_checkCast pool assumptions offset
  case instanceOf =>
    exact (runsWithin_pop 1).bind fun _ _ _ =>
      (runsWithin_computed pool assumptions offset (by decide) (fun _ => kind?_instanceOf)
        fun _ => kind?_instanceOf).bind fun _ _ hab => runsWithin_push hab
  all_goals first
    | exact runsWithin_pushConstant pool assumptions offset rfl
    | exact .pure trivial
    | exact .of_error

theorem perform_store {offset : Nat} {instruction : Instruction} {kind : Kind}
    {slot : Option UInt16} (hop : instruction.operation = .store kind slot) (context : Context) :
    context.perform offset instruction = (do
      let value ← pop kind.size
      store offset (slot.getD instruction.operandSlot) (storedValue kind value)) := by
  unfold perform
  rw [hop]

/-- A store of one word that finds a value of one word. -/
theorem store_within {fine coarse fine' coarse' : Frame} {kind : Kind} {slot : UInt16}
    (h : fine.Within coarse) (hsize : kind.size = 1)
    (hnarrow : (fine.stack.peek? 0).any (·.value.isWide) = false)
    (hfine : (pop kind.size >>= fun value => store offset slot (storedValue kind value)) fine
      = .ok ((), fine'))
    (hcoarse : (pop kind.size >>= fun value => store offset slot (storedValue kind value)) coarse
      = .ok ((), coarse')) : fine'.Within coarse' := by
  obtain ⟨a, middle, hpop, hstore⟩ := StateT.bind_eq_ok.mp hfine
  obtain ⟨b, middle', hpop', hstore'⟩ := StateT.bind_eq_ok.mp hcoarse
  obtain ⟨hmiddle, hab⟩ := runsWithin_pop kind.size h hpop hpop'
  have hstored (value : Value) : storedValue kind value = value := by simp [storedValue, hsize]
  rw [hstored] at hstore hstore'
  have ha : a.isWide = false := by
    obtain ⟨-, -, -, top, rest, htop, rfl⟩ := pop_eq_ok hpop
    rwa [Stack.peek?_zero_eq, htop] at hnarrow
  have hb : b.isWide = false := by
    cases hkind : b.kind? with
    | none => cases b <;> first | rfl | cases hkind
    | some k =>
      rw [Value.isWide_of_kind? hkind, ← Value.isWide_of_kind? (hab.kind k hkind)]
      exact ha
  exact (runsWithin_store slot hab.toWithin (ha.trans hb.symm) hmiddle hstore hstore').1

theorem perform_within {fine coarse fine' coarse' : Frame} (h : fine.Within coarse)
    (hsplits : instruction.splits fine = false)
    (hfine : (precise pool assumptions).perform offset instruction fine = .ok ((), fine'))
    (hcoarse : (simple pool assumptions).perform offset instruction coarse = .ok ((), coarse')) :
    fine'.Within coarse' := by
  rcases Classical.em (∃ kind slot, instruction.operation = .store kind slot ∧ kind.size = 1) with
    ⟨kind, slot, hop, hsize⟩ | hwide
  · rw [perform_store hop] at hfine hcoarse
    refine store_within offset h hsize ?_ hfine hcoarse
    unfold Instruction.splits at hsplits
    rw [hop] at hsplits
    change (decide (kind.size = 1) && _) = false at hsplits
    rwa [hsize] at hsplits
  · refine (runsWithin_perform pool assumptions offset instruction (fun kind slot hop => ?_) h hfine
      hcoarse).1
    have hpos := kind.size_pos
    have hle := kind.size_le_two
    have hne : kind.size ≠ 1 := fun hone => hwide ⟨kind, slot, hop, hone⟩
    omega

/-! ## Branches -/

/-- Whatever the simple side knows of a branch, the precise side knows. -/
theorem runsWithin_condition (operation : Operation) :
    RunsWithin (fun d d' => ∀ b, d' = some b → d = some b) (condition operation)
      (condition operation) := by
  have hidentity {b : Value} (hplain : b.IsPlain) (a : Value) : b.sameIdentity a = false := by
    simp [Value.sameIdentity, hplain.symbol?_eq_none]
  unfold condition
  cases operation with
  | branchZero comparison =>
    refine (runsWithin_popKind .int).bind fun a a' ha => ?_
    refine RunsWithin.bind (R := fun _ n => n = none)
      (.lift fun _ n _ hn => ha.1.plain.expectInt hn) fun m n hn => .pure ?_
    rw [hn]
    rintro b ⟨⟩
  | branchInt comparison =>
    refine (runsWithin_popKind .int).bind fun b b' hb => (runsWithin_popKind .int).bind
      fun a a' ha => ?_
    refine RunsWithin.bind (R := fun _ n => n = none)
      (.lift fun _ n _ hn => ha.1.plain.expectInt hn) fun m n hn => ?_
    refine RunsWithin.bind (R := fun _ n => n = none)
      (.lift fun _ n _ hn => hb.1.plain.expectInt hn) fun k l hl => ?_
    subst hn hl
    simp only [hidentity ha.1.plain]
    cases m <;> cases k <;> exact .pure (by simp)
  | branchReference equal =>
    refine (runsWithin_pop 1).bind fun b b' hb => (runsWithin_pop 1).bind fun a a' ha => .pure ?_
    simp [sameReference?, ha.plain.isNull_eq_false, hb.plain.isNull_eq_false,
      hidentity ha.plain]
  | branchNull null =>
    refine (runsWithin_pop 1).bind fun a a' ha => .pure fun b hb => ?_
    simp only [nullness?, ha.plain.isNull_eq_false, Bool.false_eq_true, if_false] at hb
    split at hb
    · rename_i hn
      have ha' := ha.notNull hn
      have hnull : a.isNull = false := by
        cases a with
        | reference r => cases r <;> first | rfl | cases ha'
        | _ => rfl
      simpa [nullness?, hnull, ha'] using hb
    · cases hb
  | _ => exact .pure fun _ h => h

/-- Whether one exit goes on at no other offsets than another one. -/
def ExitsWithin (exit exit' : Exit) : Prop :=
  ∀ successor ∈ exit.successors, successor ∈ exit'.successors

theorem runsWithin_branch (operation : Operation) (target : Except Failure Nat) (next : Nat) :
    RunsWithin ExitsWithin
      (do
        let decision ← condition operation
        let target ← target
        return ({
          successors :=
            match decision with
            | some true => [target]
            | some false => [next]
            | none => if target = next then [next] else [target, next]
          event := none } : Exit))
      (do
        let decision ← condition operation
        let target ← target
        return ({
          successors :=
            match decision with
            | some true => [target]
            | some false => [next]
            | none => if target = next then [next] else [target, next]
          event := none } : Exit)) := by
  refine (runsWithin_condition operation).bind fun decision decision' hd => ?_
  refine .bind_lift fun target _ => .pure fun successor hs => ?_
  cases decision' with
  | some b =>
    rw [hd b rfl] at hs
    exact hs
  | none =>
    have hall : successor = target ∨ successor = next := by
      revert hs
      simp only
      split
      · simp +contextual
      · simp +contextual
      · split <;> simp +contextual
    simp only
    split
    · rename_i heq
      simpa [heq] using hall
    · simpa using hall

/-- Without a known key, the simple side goes on at all targets of a switch. -/
theorem runsWithin_switch :
    RunsWithin ExitsWithin
      (do
        let value ← popKind .int
        let key ← value.expectInt
        let targets ← instruction.branchTargets offset
        match key with
        | some key => return ⟨[← switchTarget instruction.operand targets key], none⟩
        | none => return ⟨ascending targets, none⟩ : Transfer Exit)
      (do
        let value ← popKind .int
        let key ← value.expectInt
        let targets ← instruction.branchTargets offset
        match key with
        | some key => return ⟨[← switchTarget instruction.operand targets key], none⟩
        | none => return ⟨ascending targets, none⟩ : Transfer Exit) := by
  refine (runsWithin_popKind .int).bind fun a a' ha => ?_
  refine RunsWithin.bind (R := fun _ n => n = none)
    (.lift fun _ n _ hn => ha.1.plain.expectInt hn) fun key key' hkey => ?_
  subst hkey
  refine .bind_lift fun targets _ => ?_
  cases key with
  | none => exact .pure fun _ hs => hs
  | some key =>
    intro fine coarse fine' coarse' exit exit' h hfine hcoarse
    dsimp only at hfine
    obtain ⟨chosen, middle, hlift, hend⟩ := StateT.bind_eq_ok.mp hfine
    obtain ⟨hchosen, rfl⟩ := StateT.liftM_eq_ok.mp hlift
    obtain ⟨rfl, rfl⟩ := StateT.pure_eq_ok.mp hend
    obtain ⟨rfl, rfl⟩ := StateT.pure_eq_ok.mp hcoarse
    refine ⟨h, fun successor hs => ?_⟩
    obtain rfl := List.mem_singleton.mp hs
    rw [switchTarget_eq, orFail_eq_ok] at hchosen
    exact mem_ascending.mpr (List.mem_of_getElem? hchosen)

/-- **An instruction on a coarser frame.** Where a precise and a simple evaluation both execute an
instruction on frames within each other, so are the frames afterwards, and the precise side goes on
at some of the offsets at which the simple side does. -/
theorem execute_within {next : Nat} {fine coarse : Frame} {step step' : Step}
    (h : fine.Within coarse) (hsplits : instruction.splits fine = false)
    (hroutine : instruction.usesSubroutine = false)
    (hfine : (precise pool assumptions).execute offset next instruction fine = .ok step)
    (hcoarse : (simple pool assumptions).execute offset next instruction coarse = .ok step') :
    step.frame.Within step'.frame ∧
      ∀ successor ∈ step.successors, successor ∈ step'.successors := by
  obtain ⟨⟨exit, fine'⟩, hrun, hstep⟩ := Except.bind_eq_ok.mp hfine
  obtain ⟨⟨exit', coarse'⟩, hrun', hstep'⟩ := Except.bind_eq_ok.mp hcoarse
  cases hstep
  cases hstep'
  change fine'.Within coarse' ∧ ExitsWithin exit exit'
  unfold run at hrun hrun'
  unfold Instruction.usesSubroutine at hroutine
  cases hop : instruction.operation
  all_goals simp only [hop] at hrun hrun' hroutine
  case subroutine | ret => cases hroutine
  case branchZero | branchInt | branchReference | branchNull =>
    exact runsWithin_branch _ _ next h hrun hrun'
  case switch => exact runsWithin_switch offset instruction h hrun hrun'
  case jump =>
    refine RunsWithin.bind_lift (S := ExitsWithin) (fun targets _ => ?_) h hrun hrun'
    exact .pure fun _ hs => hs
  case invoke mode =>
    refine (runsWithin_invoke pool assumptions offset instruction mode).bind (S := ExitsWithin)
      (fun _ _ _ => ?_) h hrun hrun'
    exact .pure fun _ hs => hs
  all_goals
    obtain ⟨_, middle, hperform, hend⟩ := StateT.bind_eq_ok.mp hrun
    obtain ⟨_, middle', hperform', hend'⟩ := StateT.bind_eq_ok.mp hrun'
    obtain ⟨rfl, rfl⟩ := StateT.pure_eq_ok.mp hend
    obtain ⟨rfl, rfl⟩ := StateT.pure_eq_ok.mp hend'
    exact ⟨perform_within pool assumptions offset instruction h hsplits hperform hperform',
      fun _ hs => hs⟩

end Context

end JvmTrim
