import JvmTrim.Instruction.StackEffect
import JvmTrim.Proofs.Descriptors

/-!
# Substituting a class in a descriptor

Whether a descriptor is rewritten at all is decided on its text: it has to contain the written object
type of the class. The text of another class can contain that too, and then the descriptor is written
again as it was; it can never be missing where the class is named. So what becomes of a descriptor is
what substituting the class in its types gives, and a substitution changes neither the number of words
that arguments and results take nor what an instruction does to the operand stack.

## Main definitions

* `FieldType.Substitutes`, `MethodDescriptor.Substitutes`: types in which one class takes the place of
  another one
* `Instruction.Names`: an instruction names a descriptor
* `ReplacedIn`: a descriptor and what becomes of it

## Main results

* `Instruction.stackEffect_of_names`: descriptors of the same size have the same effect on the stack
* `retargetDescriptor?_substitutes`: replacing a class in a descriptor is substituting it in its types
-/

namespace JvmTrim

/-! ## Types -/

/-- Whether a type is another one in which the class `target` takes the place of `source`. -/
inductive FieldType.Substitutes (source target : String) : FieldType → FieldType → Prop where
  | source : Substitutes source target (.object source) (.object target)
  | other {name : String} (h : name ≠ source) :
      Substitutes source target (.object name) (.object name)
  | array {component replaced : FieldType} (h : Substitutes source target component replaced) :
      Substitutes source target (.array component) (.array replaced)
  | unnamed {type : FieldType} (h : type.className? = none) : Substitutes source target type type

namespace FieldType

variable {source target : String} {type replaced : FieldType}

theorem substitutes_retarget (source target : String) (type : FieldType) :
    Substitutes source target type (type.retarget source target) := by
  induction type with
  | object name =>
    rw [retarget]
    split
    · rename_i hname
      exact hname ▸ .source
    · rename_i hname
      exact .other hname
  | array component ih => exact .array ih
  | _ => exact .unnamed rfl

/-- Classes, and arrays of anything, are references. -/
theorem Substitutes.kind_eq (h : Substitutes source target type replaced) :
    replaced.kind = type.kind := by
  cases h <;> rfl

theorem Substitutes.size_eq (h : Substitutes source target type replaced) :
    replaced.size = type.size :=
  congrArg Kind.size h.kind_eq

end FieldType

/-! ## Descriptors of methods -/

/-- Whether a method descriptor is another one in which the class `target` takes the place of
`source`, in every parameter and in the result. -/
structure MethodDescriptor.Substitutes (source target : String)
    (descriptor replaced : MethodDescriptor) : Prop where
  parameters : List.Forall₂ (FieldType.Substitutes source target) descriptor.parameters
    replaced.parameters
  result : Option.Rel (FieldType.Substitutes source target) descriptor.result replaced.result

namespace MethodDescriptor

variable {source target : String} {descriptor replaced : MethodDescriptor}

theorem substitutes_retarget (source target : String) (descriptor : MethodDescriptor) :
    Substitutes source target descriptor (descriptor.retarget source target) where
  parameters := List.forall₂_map_right_iff.mpr
    (List.forall₂_same.mpr fun type _ => FieldType.substitutes_retarget source target type)
  result := by
    obtain ⟨parameters, result⟩ := descriptor
    cases result with
    | none => exact .none
    | some type => exact .some (FieldType.substitutes_retarget source target type)

theorem Substitutes.parameterSlots_eq (h : descriptor.Substitutes source target replaced) :
    replaced.parameterSlots = descriptor.parameterSlots := by
  obtain ⟨parameters, result⟩ := descriptor
  obtain ⟨parameters', result'⟩ := replaced
  have hparameters : List.Forall₂ (FieldType.Substitutes source target) parameters parameters' :=
    h.parameters
  unfold parameterSlots
  clear h
  induction hparameters with
  | nil => rfl
  | cons hhead _ ih => rw [List.foldr_cons, List.foldr_cons, hhead.size_eq, ih]

theorem Substitutes.resultSlots_eq (h : descriptor.Substitutes source target replaced) :
    replaced.resultSlots = descriptor.resultSlots := by
  obtain ⟨parameters, result⟩ := descriptor
  obtain ⟨parameters', result'⟩ := replaced
  have hresult : Option.Rel (FieldType.Substitutes source target) result result' := h.result
  unfold resultSlots
  cases hresult with
  | none => rfl
  | some htype => exact htype.size_eq

end MethodDescriptor

/-! ## Instructions -/

/-- Whether an instruction names a descriptor: that of its call site, or of the member it refers to. -/
inductive Instruction.Names (instruction : Instruction) (pool : ConstantPool) (text : String) :
    Prop where
  | callSite {index : UInt16} (hop : instruction.operation = .invoke .dynamic)
      (hindex : instruction.requireConstant = .ok index)
      (htext : pool.callSiteDescriptor index = .ok text) : Names instruction pool text
  | member {member : MemberRef} (hop : instruction.operation ≠ .invoke .dynamic)
      (hmember : instruction.member pool = .ok member) (htext : member.descriptor = text) :
      Names instruction pool text

namespace Instruction

variable {instruction : Instruction} {pool pool' : ConstantPool} {text text' : String}

theorem Names.fieldType_eq (h : instruction.Names pool text)
    (hop : instruction.operation ≠ .invoke .dynamic) :
    instruction.fieldType pool = FieldType.parse text := by
  cases h with
  | callSite hdynamic => exact absurd hdynamic hop
  | member _ hmember htext =>
    rw [fieldType, hmember, ← htext]
    rfl

theorem Names.methodDescriptor_eq (h : instruction.Names pool text) :
    instruction.methodDescriptor pool = MethodDescriptor.parse text := by
  rw [methodDescriptor]
  cases h with
  | callSite hop hindex htext => simp only [hindex, hop, if_true, htext, bind, Except.bind]
  | member hop hmember htext =>
    obtain ⟨index, hindex, hmember⟩ := Except.bind_eq_ok.mp hmember
    simp only [hindex, hop, if_false, hmember, htext, bind, Except.bind]

/-- **Descriptors of the same size have the same effect on the operand stack.** -/
theorem stackEffect_of_names (h : instruction.Names pool text) (h' : instruction.Names pool' text')
    (hfield : ∀ type, FieldType.parse text = .ok type →
      ∃ type', FieldType.parse text' = .ok type' ∧ type'.size = type.size)
    (hmethod : ∀ descriptor, MethodDescriptor.parse text = .ok descriptor →
      ∃ descriptor', MethodDescriptor.parse text' = .ok descriptor' ∧
        descriptor'.parameterSlots = descriptor.parameterSlots ∧
        descriptor'.resultSlots = descriptor.resultSlots)
    {effect : StackEffect} (heffect : instruction.stackEffect pool = .ok effect) :
    instruction.stackEffect pool' = .ok effect := by
  unfold stackEffect at heffect ⊢
  cases hop : instruction.operation
  case getField static | putField static =>
    simp only [hop] at heffect ⊢
    rw [h.fieldType_eq (by simp [hop]), Except.bind_eq_ok] at heffect
    obtain ⟨type, htype, heffect⟩ := heffect
    obtain ⟨type', htype', hsize⟩ := hfield type htype
    rw [h'.fieldType_eq (by simp [hop]), htype', ← heffect, ← hsize]
    rfl
  case invoke mode =>
    simp only [hop] at heffect ⊢
    rw [h.methodDescriptor_eq, Except.bind_eq_ok] at heffect
    obtain ⟨descriptor, hdescriptor, heffect⟩ := heffect
    obtain ⟨descriptor', hdescriptor', hparameters, hresult⟩ := hmethod descriptor hdescriptor
    rw [h'.methodDescriptor_eq, hdescriptor', ← heffect, ← hparameters, ← hresult]
    rfl
  case loadConstant wide => cases wide <;> simpa only [hop] using heffect
  all_goals simpa only [hop] using heffect

end Instruction

/-! ## Descriptors -/

/-- What replacing the class `source` by `target` means for a descriptor and what becomes of it. -/
structure ReplacedIn (source target text changed : String) : Prop where
  /-- The descriptor of a field is the descriptor of the same type with the class replaced, which takes
  as many words. -/
  field : ∀ type, FieldType.parse text = .ok type →
    ∃ replaced, FieldType.parse changed = .ok replaced ∧
      type.Substitutes source target replaced ∧ replaced.size = type.size
  /-- The descriptor of a method is that of the same types with the class replaced, and parameters and
  result take as many words. -/
  method : ∀ descriptor, MethodDescriptor.parse text = .ok descriptor →
    ∃ replaced, MethodDescriptor.parse changed = .ok replaced ∧
      descriptor.Substitutes source target replaced ∧
      replaced.parameterSlots = descriptor.parameterSlots ∧
      replaced.resultSlots = descriptor.resultSlots
  /-- An instruction that names the one has the same effect on the operand stack as if it names the
  other. -/
  effect : ∀ instruction pool pool' effect, Instruction.Names instruction pool text →
    Instruction.Names instruction pool' changed → instruction.stackEffect pool = .ok effect →
    instruction.stackEffect pool' = .ok effect

/-- **Replacing a class in a descriptor is substituting it in its types.** Nothing else changes, and a
descriptor in which there is nothing to replace stands for itself. -/
theorem retargetDescriptor?_substitutes {target : String} (htarget : IsClassName target)
    (source text : String) :
    ReplacedIn source target text ((retargetDescriptor? text source target).getD text) := by
  have hfield (type : FieldType) (h : FieldType.parse text = .ok type) :
      FieldType.parse (Replacement.descriptor ⟨source, target⟩ text) =
        .ok (type.retarget source target) :=
    Replacement.parse_descriptor_field htarget h
  have hmethod (descriptor : MethodDescriptor) (h : MethodDescriptor.parse text = .ok descriptor) :
      MethodDescriptor.parse (Replacement.descriptor ⟨source, target⟩ text) =
        .ok (descriptor.retarget source target) :=
    Replacement.parse_descriptor htarget h
  have hsize (type : FieldType) := FieldType.substitutes_retarget source target type
  have hslots (descriptor : MethodDescriptor) :=
    MethodDescriptor.substitutes_retarget source target descriptor
  refine ⟨fun type h => ⟨_, hfield type h, hsize type, (hsize type).size_eq⟩,
    fun descriptor h => ⟨_, hmethod descriptor h, hslots descriptor,
      (hslots descriptor).parameterSlots_eq, (hslots descriptor).resultSlots_eq⟩,
    fun instruction pool pool' effect hnames hnames' => ?_⟩
  refine Instruction.stackEffect_of_names hnames hnames' (fun type h => ?_) fun descriptor h => ?_
  · exact ⟨_, hfield type h, (hsize type).size_eq⟩
  · exact ⟨_, hmethod descriptor h, (hslots descriptor).parameterSlots_eq,
      (hslots descriptor).resultSlots_eq⟩

/-- The text of the first class ends like that of the class that is replaced, and the name of the last
one begins like it; neither is changed. -/
theorem retargetDescriptor?_substitutes_overlap :
    let text := "(LxLa/I;[[La/I;J)La/IX;"
    let changed := "(LxLa/I;[[La/Impl;J)La/IX;"
    IsClassName "a/Impl" ∧ retargetDescriptor? text "a/I" "a/Impl" = some changed ∧
      ReplacedIn "a/I" "a/Impl" text changed := by
  intro text changed
  have htarget : IsClassName "a/Impl" := by decide
  have hchanged : retargetDescriptor? text "a/I" "a/Impl" = some changed := by decide +kernel
  have hreplaced := retargetDescriptor?_substitutes htarget "a/I" text
  rw [hchanged, Option.getD_some] at hreplaced
  exact ⟨htarget, hchanged, hreplaced⟩

end JvmTrim
