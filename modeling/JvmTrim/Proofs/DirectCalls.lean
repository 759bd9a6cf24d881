import JvmTrim.Proofs.Exchange
import JvmTrim.Proofs.Locality
import JvmTrim.Tighten.Private

/-!
# Calls that become direct

A call of a private method need not look the method up in the class of the receiver. Making such calls
direct exchanges their opcode and keeps their operand, so the body keeps its layout but for the width
of jumps that could have been narrower all along. Afterwards no such call is left.

## Main definitions

* `Instruction.isVirtualCall`, `Instruction.madeDirect`: the calls, and what they become
* `Code.MadeDirect`: a body in which such calls became direct
* `ConstantPool.callsMade`: the references to private methods of a class

## Main results

* `Code.MadeDirect.not_isVirtualCall`: no call is left that should have become direct
* `Method.callDirectly_eq_ok`: making calls direct changes nothing else
-/

namespace JvmTrim

namespace Instruction

variable {isCall : UInt16 → Bool} {instruction : Instruction}

/-- Whether the instruction is a call by the class of the receiver, through one of some references. -/
def isVirtualCall (isCall : UInt16 → Bool) (instruction : Instruction) : Bool :=
  match instruction.operation, instruction.constantIndex? with
  | .invoke .virtual, some index => isCall index
  | _, _ => false

/-- The instruction, as a direct call if it is a call by the class of the receiver through one of the
references that are to be changed. -/
def madeDirect (isCall : UInt16 → Bool) (instruction : Instruction) : Instruction :=
  if instruction.isVirtualCall isCall then ⟨Opcode.invokespecial, instruction.operand⟩
  else instruction

theorem isVirtualCall_iff : instruction.isVirtualCall isCall = true ↔
    instruction.operation = .invoke .virtual ∧
      ∃ index, instruction.constantIndex? = some index ∧ isCall index = true := by
  unfold isVirtualCall
  split
  · rename_i index hop hindex
    simp [hop, hindex]
  · rename_i hnone
    constructor
    · exact fun h => absurd h (by decide)
    · rintro ⟨hop, index, hindex, -⟩
      exact absurd hindex (hnone index hop)

/-- An instruction that is no call through some references is none through fewer of them. -/
theorem not_isVirtualCall_of_imp {other : UInt16 → Bool}
    (himp : ∀ index, other index = true → isCall index = true)
    (h : instruction.isVirtualCall isCall = false) : instruction.isVirtualCall other = false := by
  refine Bool.eq_false_iff.mpr fun hcall => Bool.eq_false_iff.mp h ?_
  obtain ⟨hop, index, hindex, hother⟩ := isVirtualCall_iff.mp hcall
  exact isVirtualCall_iff.mpr ⟨hop, index, hindex, himp index hother⟩

theorem opcode_of_virtual (h : instruction.operation = .invoke .virtual) :
    instruction.opcode = Opcode.invokevirtual := by
  have hall : ∀ opcode : Opcode,
      (opcode.operation != .invoke .virtual || opcode == Opcode.invokevirtual) = true :=
    Opcode.of_all (by decide +kernel)
  have hopcode := hall instruction.opcode
  unfold operation at h
  rw [h] at hopcode
  simpa using hopcode

/-- Neither the width of a jump nor displacements decide what is a call. -/
theorem isVirtualCall_form : instruction.form.isVirtualCall isCall = instruction.isVirtualCall isCall := by
  have hop : instruction.form.operation = instruction.operation := by
    rw [form, Machine.operation_mapDisplacements, Machine.operation_narrowed]
  have hindex : instruction.form.constantIndex? = instruction.constantIndex? := by
    have hoperand := instruction.operand_narrowed
    rw [form, mapDisplacements]
    split <;> simp_all [constantIndex?]
  rw [Bool.eq_iff_iff, isVirtualCall_iff, isVirtualCall_iff, hop, hindex]

theorem madeDirect_of_not_isVirtualCall (h : instruction.isVirtualCall isCall = false) :
    instruction.madeDirect isCall = instruction := by
  rw [madeDirect, if_neg (by rw [h]; decide)]

theorem isVirtualCall_madeDirect :
    (instruction.madeDirect isCall).isVirtualCall isCall = false := by
  unfold madeDirect
  split
  · refine Bool.eq_false_iff.mpr fun h => ?_
    have hopcode : Opcode.invokespecial = Opcode.invokevirtual :=
      opcode_of_virtual (isVirtualCall_iff.mp h).1
    exact absurd hopcode (by decide)
  · rename_i h
    exact Bool.eq_false_iff.mpr h

/-- **Making calls direct is an exchange of instructions.** -/
theorem exchange_madeDirect (isCall : UInt16 → Bool) : Exchange (madeDirect isCall) := by
  have hspecial : Opcode.invokespecial.layout? = some .constant := by decide +kernel
  have hvirtual : Opcode.invokevirtual.layout? = some .constant := by decide +kernel
  constructor
  · intro instruction
    unfold madeDirect
    split <;> rfl
  · intro instruction hwf
    unfold madeDirect
    split
    · rename_i hcall
      have hopcode := opcode_of_virtual (isVirtualCall_iff.mp hcall).1
      obtain ⟨layout, hlayout, hadmits⟩ := hwf
      rw [hopcode, hvirtual] at hlayout
      cases hlayout
      exact ⟨.constant, hspecial, hadmits⟩
    · exact hwf
  · intro instruction hfits
    unfold madeDirect
    split
    · exact stored_of_ne_ldc (show Opcode.invokespecial ≠ Opcode.ldc by decide)
    · exact stored_of_fits hfits
  · intro instruction offset
    unfold madeDirect
    split
    · rename_i hcall
      have hopcode := opcode_of_virtual (isVirtualCall_iff.mp hcall).1
      obtain ⟨opcode, operand⟩ := instruction
      cases hopcode
      cases operand <;> exact Nat.le_refl _
    · exact Nat.le_refl _

end Instruction

/-- Whether a body is another one in which calls became direct: in the place of every such call there
is a direct one, and without such calls nothing changed at all. -/
structure Code.MadeDirect (isCall : UInt16 → Bool) (code changed : Code) : Prop where
  decodes : ∃ body, decodeAll code.bytes = .ok body
  exchanged : Code.Exchanged (Instruction.madeDirect isCall) code changed
  unchanged : ∀ body, decodeAll code.bytes = .ok body →
    (∀ entry ∈ body, entry.2.isVirtualCall isCall = false) → changed = code

/-- **No call is left that should have become direct.** -/
theorem Code.MadeDirect.not_isVirtualCall {isCall : UInt16 → Bool} {code changed : Code}
    (h : Code.MadeDirect isCall code changed) : ∃ body, decodeAll changed.bytes = .ok body ∧
      ∀ entry ∈ body, entry.2.isVirtualCall isCall = false := by
  obtain ⟨before, hbefore⟩ := h.decodes
  obtain ⟨body, hbody, hforms, -⟩ := h.exchanged before hbefore
  refine ⟨body, hbody, forall_mem_of_forall₂ (hforms.imp fun source result hform => ?_)⟩
  rw [← Instruction.isVirtualCall_form, hform, Instruction.isVirtualCall_form]
  exact Instruction.isVirtualCall_madeDirect

/-! ## Calls of private methods -/

/-- Whether the member that is referred to at an index is one of some methods of a class. -/
def ConstantPool.callsMade (pool : ConstantPool) (owner : String) (made : List (String × String))
    (index : UInt16) : Bool :=
  match pool.memberRef index with
  | .ok member => member.owner == owner && made.contains (member.name, member.descriptor)
  | .error _ => false

variable {pool : ConstantPool} {owner : String} {made : List (String × String)}

theorem ConstantPool.callsMade_mono {fewer : List (String × String)} (hsubset : fewer ⊆ made)
    {index : UInt16} (h : pool.callsMade owner fewer index = true) :
    pool.callsMade owner made index = true := by
  unfold callsMade at h ⊢
  cases hmember : pool.memberRef index with
  | error => simp [hmember] at h
  | ok member =>
    simp only [hmember, Bool.and_eq_true, List.contains_iff_mem] at h ⊢
    exact ⟨h.1, hsubset h.2⟩

theorem Instruction.isVirtualCall_of_memberRef {instruction : Instruction} {index : UInt16}
    {member : MemberRef} (hop : instruction.operation = .invoke .virtual)
    (hindex : instruction.constantIndex? = some index) (hmember : pool.memberRef index = .ok member) :
    instruction.isVirtualCall (pool.callsMade owner made) =
      (member.owner == owner && made.contains (member.name, member.descriptor)) := by
  rw [Bool.eq_iff_iff, isVirtualCall_iff, hop, hindex]
  simp [ConstantPool.callsMade, hmember]

/-- Exchanging a call by the class of the receiver replaces it. -/
theorem Edit.exchangeAt_madeDirect {isCall : UInt16 → Bool} {edit : Edit} {offset : Nat}
    {instruction : Instruction} : exchangeAt (Instruction.madeDirect isCall) edit (offset, instruction) =
      if instruction.isVirtualCall isCall then
        edit.replace offset [⟨Opcode.invokespecial, instruction.operand⟩]
      else edit := by
  unfold exchangeAt Instruction.madeDirect
  by_cases hcall : instruction.isVirtualCall isCall = true
  · have hopcode := Instruction.opcode_of_virtual (Instruction.isVirtualCall_iff.mp hcall).1
    have hne : (⟨Opcode.invokespecial, instruction.operand⟩ : Instruction) ≠ instruction := by
      intro heq
      have hsame : Opcode.invokespecial = instruction.opcode := congrArg Instruction.opcode heq
      rw [hopcode] at hsame
      exact absurd hsame (by decide)
    simp only [hcall, if_true, if_neg hne]
  · simp only [hcall, if_true, Bool.false_eq_true, if_false]

/-- The edit that makes calls direct. -/
theorem directCalls_eq_ok {code : Code} {edit : Edit}
    (h : directCalls pool owner made code = .ok edit) :
    ∃ body, decodeAll code.bytes = .ok body ∧ edit = body.foldl (Edit.exchangeAt
      (Instruction.madeDirect (pool.callsMade owner made))) (Edit.ofSize code.size) := by
  obtain ⟨body, hbody, h⟩ := Except.bind_eq_ok.mp h
  refine ⟨body, hbody, foldlM_eq_ok ?_ h⟩
  rintro edit ⟨offset, instruction⟩ edit' hstep
  rw [Edit.exchangeAt_madeDirect]
  simp only at hstep
  split at hstep
  · rename_i index hop hindex
    obtain ⟨member, hmember, hstep⟩ := Except.bind_eq_ok.mp hstep
    rw [Instruction.isVirtualCall_of_memberRef hop hindex hmember, ← Except.ok.inj hstep]
    simp only [beq_eq_decide]
  · rename_i hnone
    cases hstep
    rw [if_neg]
    intro hcall
    obtain ⟨hop, index, hindex, -⟩ := Instruction.isVirtualCall_iff.mp hcall
    exact hnone index hop hindex

/-- **Making calls direct changes nothing else.** -/
theorem Method.callDirectly_eq_ok {method changed : Method}
    (h : method.callDirectly pool owner made = .ok changed) :
    changed = { method with code := changed.code } ∧
      Option.Rel (Code.MadeDirect (pool.callsMade owner made)) method.code changed.code := by
  obtain ⟨access, name, descriptor, code?⟩ := method
  cases code? with
  | none =>
    cases h
    exact ⟨rfl, .none⟩
  | some code =>
    obtain ⟨edit, hedit, h⟩ := Except.bind_eq_ok.mp h
    obtain ⟨body, hbody, hfold⟩ := directCalls_eq_ok hedit
    have hemission : edit.emission body = body.map fun entry =>
        (entry.1, entry.2.madeDirect (pool.callsMade owner made)) := by
      rw [hfold]
      exact Edit.emission_foldl_exchangeAt (ascending_of_decodeAll hbody) fun _ _ => rfl
    cases hmodified : edit.isModified with
    | true =>
      rw [if_pos hmodified] at h
      obtain ⟨edited, hedited, h⟩ := Except.bind_eq_ok.mp h
      cases h
      refine ⟨rfl, .some ⟨⟨body, hbody⟩, ?_, fun other hother hnone => ?_⟩⟩
      · exact Code.exchanged_of_apply (Instruction.exchange_madeDirect _) hedited hbody hemission
      · cases hbody.symm.trans hother
        rw [hfold, Edit.foldl_exchangeAt_of_forall fun entry hentry =>
          Instruction.madeDirect_of_not_isVirtualCall (hnone entry hentry)] at hmodified
        cases hmodified
    | false =>
      rw [if_neg (by simp [hmodified])] at h
      cases h
      refine ⟨rfl, .some ⟨⟨body, hbody⟩, ?_, fun _ _ _ => rfl⟩⟩
      refine Code.exchanged_of_bytes_eq rfl fun other hother => ?_
      cases hbody.symm.trans hother
      exact Edit.change_eq_of_not_isModified hemission hmodified

end JvmTrim
