import JvmTrim.Proofs.OrdinaryCalls
import JvmTrim.Proofs.Retargeting
import Mathlib.Tactic.MkIffOfInductiveProp

/-!
# Mentions of an interface

A class mentions another one in its list of interfaces, in the descriptors of its members and of the
variables of its bodies, and in constants. Replacing an interface in a class reaches all of them: the
interface is not mentioned afterwards, and no class is that was not mentioned before, apart from the
one in its place.

## Main definitions

* `ClassFile.Mentions`: whether a class mentions another one
* `ClassFile.WellDescribed`: whether all descriptors of a class can be read
* `Replacement.ChangesClass`: what replacing an interface makes of a class

## Main results

* `Replacement.changesClass_of_apply`: what replacing an interface does to a class
* `Replacement.ChangesClass.wellDescribed`: descriptors can be read afterwards
* `Replacement.ChangesClass.mentions`: what a class mentions afterwards
-/

namespace JvmTrim

/-! ## Descriptors and mentions -/

instance Except.decidableExistsOk {ε α : Type} (x : Except ε α) : Decidable (∃ a, x = .ok a) :=
  match x with
  | .ok a => .isTrue ⟨a, rfl⟩
  | .error _ => .isFalse nofun

instance (text : String) : Decidable (IsDescriptor text) := inferInstanceAs (Decidable (_ ∨ _))

/-- Whether a constant is a text that is a descriptor. -/
def ConstantPool.HasDescriptor (pool : ConstantPool) (index : UInt16) : Prop :=
  ∃ text, pool.utf8 index = .ok text ∧ IsDescriptor text

instance (pool : ConstantPool) (index : UInt16) : Decidable (pool.HasDescriptor index) :=
  match h : pool.utf8 index with
  | .ok text => decidable_of_iff (IsDescriptor text) (by simp [ConstantPool.HasDescriptor, h])
  | .error _ => .isFalse (by simp [ConstantPool.HasDescriptor, h])

namespace ClassFile

/-- Whether all descriptors of a class can be read: those of its fields and methods, those of the
variables of its bodies, and those that its constants refer to. -/
@[mk_iff]
structure WellDescribed (file : ClassFile) : Prop where
  fields : ∀ field ∈ file.fields, IsDescriptor field.descriptor
  methods : ∀ method ∈ file.methods, IsDescriptor method.descriptor
  localRanges : ∀ method ∈ file.methods, ∀ code ∈ method.code, ∀ entry ∈ code.localRanges,
    file.pool.HasDescriptor entry.descriptor
  constants : ∀ entry ∈ file.pool.toList, ∀ descriptor ∈ entry.2.descriptor?,
    file.pool.HasDescriptor descriptor

instance (file : ClassFile) : Decidable file.WellDescribed :=
  decidable_of_iff
    ((∀ field ∈ file.fields, IsDescriptor field.descriptor) ∧
      (∀ method ∈ file.methods, IsDescriptor method.descriptor) ∧
      (∀ method ∈ file.methods, ∀ code ∈ method.code, ∀ entry ∈ code.localRanges,
        file.pool.HasDescriptor entry.descriptor) ∧
      ∀ entry ∈ file.pool.toList,
        (entry.2.descriptor?.all fun descriptor => file.pool.HasDescriptor descriptor) = true) <| by
    simp only [wellDescribed_iff, Option.all_eq_true, decide_eq_true_iff]
    exact Iff.rfl

/-- Whether a class mentions another one. -/
inductive Mentions (file : ClassFile) (name : String) : Prop where
  | interface (h : name ∈ file.interfaces)
  | field {field : Field} (hfield : field ∈ file.fields)
      (h : name ∈ descriptorNames field.descriptor)
  | method {method : Method} (hmethod : method ∈ file.methods)
      (h : name ∈ descriptorNames method.descriptor)
  | «variable» {method : Method} {code : Code} {entry : VariableEntry} {text : String}
      (hmethod : method ∈ file.methods) (hcode : method.code = some code)
      (hentry : entry ∈ code.localRanges) (htext : file.pool.utf8 entry.descriptor = .ok text)
      (h : name ∈ descriptorNames text)
  | «class» {index : UInt16} {text : String} (htext : file.pool.className index = .ok text)
      (h : name ∈ constantNames text)
  | descriptor {index descriptor : UInt16} {constant : Constant} {text : String}
      (hconstant : file.pool.get index = .ok constant)
      (hdescriptor : constant.descriptor? = some descriptor)
      (htext : file.pool.utf8 descriptor = .ok text) (h : name ∈ descriptorNames text)

end ClassFile

/-! ## Bodies -/

namespace Edit

/-- The variables of an edited body are variables of the body before, with other live ranges. -/
theorem localRanges_of_apply {edit : Edit} {code edited : Code} {pool : ConstantPool}
    (h : edit.apply code pool = .ok edited) : ∀ entry ∈ edited.localRanges,
      ∃ original ∈ code.localRanges, entry.descriptor = original.descriptor := by
  obtain ⟨listing, groups, placement, happlies⟩ := applies_of_apply h
  obtain ⟨images, himages, hfound⟩ := Except.bind_eq_ok.mp happlies.localRanges
  intro entry hentry
  rw [← Except.ok.inj hfound] at hentry
  obtain ⟨image, himage, hsome⟩ := List.mem_filterMap.mp hentry
  obtain ⟨original, horiginal, hmove⟩ := (mem_of_mapM himages).2 image himage
  refine ⟨original, horiginal, ?_⟩
  cases hsome
  obtain ⟨start, -, hmove⟩ := Except.bind_eq_ok.mp hmove
  obtain ⟨stop, -, hmove⟩ := Except.bind_eq_ok.mp hmove
  split at hmove
  · split at hmove <;> cases hmove
    rfl
  · cases hmove

end Edit

namespace Replacement

variable {replacement : Replacement} {references : List UInt16} {pool after : ConstantPool}

/-- Whether the text at one index is the one at another index with the interface replaced. -/
def Redescribes (replacement : Replacement) (pool : ConstantPool) (index changed : UInt16) : Prop :=
  ∃ text, pool.utf8 index = .ok text ∧ pool.utf8 changed = .ok (replacement.descriptor text)

/-- What replacing an interface makes of a body. -/
structure ChangesCode (replacement : Replacement) (references : List UInt16) (pool : ConstantPool)
    (code changed : Code) : Prop where
  localRanges : ∀ entry ∈ changed.localRanges, ∃ original ∈ code.localRanges,
    replacement.Redescribes pool original.descriptor entry.descriptor
  body : ∀ {first : Code} {isCall : UInt16 → Bool}, first.size < 2 ^ 30 →
    Code.Follows isCall first code →
    Code.Follows (fun index => isCall index || references.contains index) first changed

/-- What replacing an interface makes of a method. -/
structure ChangesMethod (replacement : Replacement) (references : List UInt16)
    (pool : ConstantPool) (method changed : Method) : Prop where
  access : changed.access = method.access
  name : changed.name = method.name
  descriptor : changed.descriptor = replacement.descriptor method.descriptor
  code : Option.Rel (replacement.ChangesCode references pool) method.code changed.code

section Grow

variable {P : String → Prop} (hgrows : ConstantPool.GrowsBy P pool after)

include hgrows

theorem Redescribes.grow {index changed : UInt16} (h : replacement.Redescribes pool index changed) :
    replacement.Redescribes after index changed := by
  obtain ⟨text, hold, hnew⟩ := h
  exact ⟨text, hgrows.utf8 hold, hgrows.utf8 hnew⟩

theorem ChangesCode.grow {code changed : Code}
    (h : replacement.ChangesCode references pool code changed) :
    replacement.ChangesCode references after code changed where
  localRanges entry hentry := by
    obtain ⟨original, horiginal, hchanged⟩ := h.localRanges entry hentry
    exact ⟨original, horiginal, hchanged.grow hgrows⟩
  body := h.body

theorem ChangesMethod.grow {method changed : Method}
    (h : replacement.ChangesMethod references pool method changed) :
    replacement.ChangesMethod references after method changed where
  access := h.access
  name := h.name
  descriptor := h.descriptor
  code := by
    have hcode := h.code
    generalize method.code = code, changed.code = code' at hcode ⊢
    cases hcode with
    | none => exact .none
    | some hcode => exact .some (hcode.grow hgrows)

end Grow

/-- Replacing the interface in the descriptor of a variable. -/
theorem redescribes_of_changeVariable {entry changed : VariableEntry}
    (h : replacement.changeVariable.apply (pool, entry) = (.ok (), after, changed))
    (hlength : pool.length ≤ 65535) :
    ConstantPool.GrowsBy (fun _ => True) pool after ∧
      replacement.Redescribes after entry.descriptor changed.descriptor := by
  obtain ⟨_, _, hget, h⟩ := Change.apply_bind_eq_ok h
  cases hget
  obtain ⟨result, _, hfirst, h⟩ := Change.apply_bind_eq_ok h
  rw [Change.onFirst, Change.apply_ofEffect] at hfirst
  dsimp only at hfirst
  generalize hrun :
    (textIndex? replacement.descriptor? entry.descriptor).apply pool = answer at hfirst
  obtain ⟨found, middle⟩ := answer
  cases hfirst
  obtain ⟨text, htext, hgrows, hnew⟩ := runs_textIndex? hrun hlength
  have hafter : after = middle ∧ changed.descriptor = result.getD entry.descriptor := by
    cases result <;> cases h <;> exact ⟨rfl, rfl⟩
  rw [hafter.1, hafter.2]
  exact ⟨hgrows.mono fun _ _ => trivial, text, hgrows.utf8 htext, hnew⟩

/-- Replacing the interface in a body. -/
theorem changesCode_of_apply {code changed : Code}
    (h : (replacement.changeCode references).apply (pool, code) = (.ok (), after, changed))
    (hlength : pool.length ≤ 65535) :
    ConstantPool.GrowsBy (fun _ => True) pool after ∧
      replacement.ChangesCode references after code changed := by
  obtain ⟨_, _, hvariables, h⟩ := Change.apply_bind_eq_ok h
  rw [Change.apply_ofEffect] at hvariables
  dsimp only at hvariables
  generalize hrun :
    Change.eachOf replacement.changeVariable pool code.localRanges = answer at hvariables
  obtain ⟨result, middle, ranges⟩ := answer
  cases hvariables
  obtain ⟨hgrows, hranges⟩ := Change.eachOf_eq_ok
    (R := ConstantPool.GrowsBy fun _ => True)
    (T := fun pool entry changed => replacement.Redescribes pool entry.descriptor changed.descriptor)
    .refl .trans (fun hgrows => Redescribes.grow hgrows)
    (fun hreached hstep => redescribes_of_changeVariable hstep (hreached.length hlength)) hrun
  obtain ⟨_, _, hget, h⟩ := Change.apply_bind_eq_ok h
  cases hget
  obtain ⟨edit, _, hedit, h⟩ := Change.apply_bind_eq_ok h
  rw [Change.apply_liftM, Prod.mk.injEq] at hedit
  obtain ⟨hedit, rfl⟩ := hedit
  have hchanged : after = middle ∧ (∀ entry ∈ changed.localRanges, ∃ original ∈ ranges,
      entry.descriptor = original.descriptor) ∧
      (edit.isModified = false ∧ changed.bytes = code.bytes ∨
        edit.apply { code with localRanges := ranges } middle = .ok changed) := by
    split at h
    · obtain ⟨edited, _, happly, h⟩ := Change.apply_bind_eq_ok h
      rw [Change.apply_liftM, Prod.mk.injEq] at happly
      obtain ⟨happly, rfl⟩ := happly
      cases h
      exact ⟨rfl, Edit.localRanges_of_apply happly, .inr happly⟩
    · rename_i hmodified
      cases h
      exact ⟨rfl, fun entry hentry => ⟨entry, hentry, rfl⟩, .inl ⟨by simpa using hmodified, rfl⟩⟩
  obtain ⟨rfl, hdescriptors, hbody⟩ := hchanged
  refine ⟨hgrows, fun entry hentry => ?_, fun hsize hfirst => ?_⟩
  · obtain ⟨moved, hmoved, heq⟩ := hdescriptors entry hentry
    obtain ⟨original, horiginal, hredescribes⟩ := exists_mem_of_forall₂ hranges.flip hmoved
    exact ⟨original, horiginal, heq ▸ hredescribes⟩
  · have hfirst : Code.Follows _ _ { code with localRanges := ranges } := hfirst
    exact follows_of_ordinaryCalls hfirst hsize hedit hbody

/-- Replacing the interface in a method. -/
theorem changesMethod_of_apply {method changed : Method}
    (h : (replacement.changeMethod references).apply (pool, method) = (.ok (), after, changed))
    (hlength : pool.length ≤ 65535) :
    ConstantPool.GrowsBy (fun _ => True) pool after ∧
      replacement.ChangesMethod references after method changed := by
  obtain ⟨_, _, hmodify, h⟩ := Change.apply_bind_eq_ok h
  cases hmodify
  rw [Change.apply_ofEffect] at h
  dsimp only at h
  split at h
  · rename_i hnone
    cases h
    exact ⟨.refl _, rfl, rfl, rfl, by rw [hnone]; exact .none⟩
  · rename_i code hsome
    generalize hrun : (replacement.changeCode references).apply (pool, code) = answer at h
    obtain ⟨result, middle, code'⟩ := answer
    cases h
    obtain ⟨hgrows, hcode⟩ := changesCode_of_apply hrun hlength
    exact ⟨hgrows, rfl, rfl, rfl, by rw [hsome]; exact .some hcode⟩

/-! ## Classes -/

/-- What replacing an interface makes of a class. -/
structure ChangesClass (replacement : Replacement) (file changed : ClassFile) : Prop where
  name : changed.name = file.name
  interfaces : changed.interfaces = file.interfaces.filter (· != replacement.source)
  fields : changed.fields = file.fields.map fun field =>
    { field with descriptor := replacement.descriptor field.descriptor }
  members : ∃ references, replacement.ChangesConstants references file.pool changed.pool ∧
    List.Forall₂ (replacement.ChangesMethod references changed.pool) file.methods changed.methods

/-- **What replacing an interface does to a class.** -/
theorem changesClass_of_apply {file changed : ClassFile}
    (h : replacement.changeClass.apply file = (.ok (), changed))
    (hlength : file.pool.length ≤ 65535) : replacement.ChangesClass file changed := by
  obtain ⟨references, constants, pool, methods, hconstants, hmethods, rfl⟩ := changeClass_eq_ok h
  have hchanges := changeConstants_eq_ok hconstants hlength
  obtain ⟨hgrows, hmethods⟩ := Change.eachOf_eq_ok
    (R := ConstantPool.GrowsBy fun _ => True) (T := replacement.ChangesMethod references)
    .refl .trans (fun hgrows => ChangesMethod.grow hgrows)
    (fun hreached hstep => changesMethod_of_apply hstep (hreached.length hchanges.length)) hmethods
  exact ⟨rfl, rfl, rfl, references, hchanges.grow hgrows, hmethods⟩

namespace ChangesClass

variable {file changed : ClassFile} (h : replacement.ChangesClass file changed)

include h

theorem length_le : changed.pool.length ≤ 65535 := by
  obtain ⟨references, hconstants, -⟩ := h.members
  exact hconstants.length

/-- The descriptor of a variable comes from a variable of the method in the same place. -/
theorem exists_variable {method : Method} {code : Code} {entry : VariableEntry}
    (hmethod : method ∈ changed.methods) (hcode : method.code = some code)
    (hentry : entry ∈ code.localRanges) :
    ∃ original ∈ file.methods, ∃ code', original.code = some code' ∧
      ∃ entry' ∈ code'.localRanges,
        replacement.Redescribes changed.pool entry'.descriptor entry.descriptor := by
  obtain ⟨references, -, hmethods⟩ := h.members
  obtain ⟨original, horiginal, hchanges⟩ := exists_mem_of_forall₂ hmethods.flip hmethod
  refine ⟨original, horiginal, ?_⟩
  have hrel := hchanges.code
  rw [hcode] at hrel
  generalize original.code = before at hrel
  cases hrel with
  | some hchanged => exact ⟨_, rfl, hchanged.localRanges entry hentry⟩

/-- The descriptor that a constant refers to comes from the constant in the same place. -/
theorem exists_descriptor {index place : UInt16} {constant : Constant}
    (hget : changed.pool.get index = .ok constant) (hplace : constant.descriptor? = some place) :
    ∃ original place', file.pool.get index = .ok original ∧ original.descriptor? = some place' ∧
      replacement.Redescribes changed.pool place' place := by
  obtain ⟨references, hconstants, -⟩ := h.members
  obtain ⟨original, horiginal⟩ | ⟨text, rfl⟩ := hconstants.added _ _ hget
  · obtain ⟨found, hfound, hreplaces⟩ := hconstants.changed _ _ horiginal
    cases hfound.symm.trans hget
    refine ⟨original, ?_⟩
    cases hreplaces with
    | nameAndType hold hnew =>
      cases hplace
      exact ⟨_, horiginal, rfl, _, hold, hnew⟩
    | methodType hold hnew =>
      cases hplace
      exact ⟨_, horiginal, rfl, _, hold, hnew⟩
    | fixed hfixed =>
      rw [Constant.descriptor?_of_isFixed hfixed] at hplace
      cases hplace
    | _ => cases hplace
  · cases hplace

/-- A descriptor that comes from one that could be read. -/
theorem redescribed {index place : UInt16} {text : String}
    (hread : replacement.Redescribes changed.pool index place)
    (htext : file.pool.utf8 index = .ok text) :
    changed.pool.utf8 place = .ok (replacement.descriptor text) := by
  obtain ⟨references, hconstants, -⟩ := h.members
  obtain ⟨found, hold, hnew⟩ := hread
  cases hold.symm.trans (hconstants.utf8 htext)
  exact hnew

/-- **Descriptors can still be read** after an interface was replaced in a class. -/
theorem wellDescribed (htarget : IsClassName replacement.target)
    (hlength : file.pool.length ≤ 65535) (hdescribed : file.WellDescribed) :
    changed.WellDescribed := by
  have hread {index place : UInt16} (hplace : replacement.Redescribes changed.pool index place)
      (hindex : file.pool.HasDescriptor index) : changed.pool.HasDescriptor place := by
    obtain ⟨text, htext, hdescriptor⟩ := hindex
    exact ⟨_, h.redescribed hplace htext, isDescriptor_descriptor htarget hdescriptor⟩
  refine ⟨fun field hfield => ?_, fun method hmethod => ?_, fun method hmethod code hcode entry
    hentry => ?_, fun entry hentry place hplace => ?_⟩
  · rw [h.fields] at hfield
    obtain ⟨original, horiginal, rfl⟩ := List.mem_map.mp hfield
    exact isDescriptor_descriptor htarget (hdescribed.fields original horiginal)
  · obtain ⟨references, -, hmethods⟩ := h.members
    obtain ⟨original, horiginal, hchanges⟩ := exists_mem_of_forall₂ hmethods.flip hmethod
    rw [hchanges.descriptor]
    exact isDescriptor_descriptor htarget (hdescribed.methods original horiginal)
  · obtain ⟨original, horiginal, before, hbefore, entry', hentry', hplace⟩ :=
      h.exists_variable hmethod hcode hentry
    exact hread hplace (hdescribed.localRanges original horiginal before hbefore entry' hentry')
  · have hget := (ConstantPool.mem_toList (h.length_le.trans (by omega))).mp hentry
    obtain ⟨original, index, horiginal, hindex, hredescribes⟩ := h.exists_descriptor hget hplace
    exact hread hredescribes (hdescribed.constants (entry.1, original)
      ((ConstantPool.mem_toList (hlength.trans (by omega))).mpr horiginal) index hindex)

/-- What a class constant mentions afterwards. Its name may be a text that was only appended on the
way, in the place of another name or of a descriptor. -/
theorem mentions_of_class (htarget : IsClassName replacement.target)
    (hne : replacement.target ≠ replacement.source) (hlength : file.pool.length ≤ 65535)
    (hdescribed : file.WellDescribed) {name : String} (hname : IsClassName name) {index : UInt16}
    {text : String} (htext : changed.pool.className index = .ok text)
    (hmem : name ∈ constantNames text) :
    name ≠ replacement.source ∧ (name = replacement.target ∨ file.Mentions name) := by
  have hchanged {index place : UInt16} {constant : Constant}
      (hconstant : file.pool.get index = .ok constant) (hplace : constant.descriptor? = some place) :
      ∃ text, file.pool.utf8 place = .ok text ∧
        ∀ changed, replacement.descriptor? text = some changed → name ∈ constantNames changed →
          name = replacement.target ∨ file.Mentions name := by
    obtain ⟨text, htext, -⟩ := hdescribed.constants (index, constant)
      ((ConstantPool.mem_toList (hlength.trans (by omega))).mpr hconstant) place hplace
    refine ⟨text, htext, fun changed hchanged hmem => ?_⟩
    have hdescriptor : replacement.descriptor text = changed := by
      rw [Replacement.descriptor, hchanged, Option.getD_some]
    rw [constantNames, List.mem_cons] at hmem
    rcases hmem with rfl | hmem
    · exact absurd (semicolon_mem_of_descriptor? htarget hchanged) hname.2
    · split at hmem
      · rw [← hdescriptor] at hmem
        exact (mem_descriptorNames_descriptor htarget hne hmem).2.imp_right
          (.descriptor hconstant hplace htext)
      · cases hmem
  obtain ⟨references, hconstants, -⟩ := h.members
  obtain ⟨place, hget, hplace⟩ := ConstantPool.className_eq_ok.mp htext
  obtain ⟨original, horiginal⟩ | ⟨_, habsurd⟩ := hconstants.added _ _ hget
  · obtain ⟨found, hfound, hreplaces⟩ := hconstants.changed _ _ horiginal
    cases hfound.symm.trans hget
    cases hreplaces with
    | @«class» before _ old hold hnew =>
      cases hplace.symm.trans hnew
      obtain ⟨hother, hmem⟩ := mem_constantNames_className htarget hne hname hmem
      refine ⟨hother, hmem.elim .inl fun hmem => ?_⟩
      obtain ⟨found, hread, hgood⟩ := hconstants.names
        (fun text => name ∈ constantNames text → name = replacement.target ∨ file.Mentions name)
        (fun text hgood hmem => (mem_constantNames_className htarget hne hname hmem).2.elim .inl hgood)
        (fun index place text hclass htext hmem =>
          .inr (.class (ConstantPool.className_eq_ok.mpr ⟨place, hclass, htext⟩) hmem))
        (fun index constant place => hchanged) index before horiginal
      cases hold.symm.trans hread
      exact hgood hmem
    | fixed hfixed => cases hfixed
  · cases habsurd

/-- **What a class mentions after an interface was replaced in it**: not the interface, and apart from
the class in its place nothing that it did not mention before. -/
theorem mentions (htarget : IsClassName replacement.target)
    (hne : replacement.target ≠ replacement.source) (hlength : file.pool.length ≤ 65535)
    (hdescribed : file.WellDescribed) {name : String} (hname : IsClassName name)
    (hmentions : changed.Mentions name) :
    name ≠ replacement.source ∧ (name = replacement.target ∨ file.Mentions name) := by
  have hread {index place : UInt16} {text : String}
      (hplace : replacement.Redescribes changed.pool index place)
      (hindex : file.pool.HasDescriptor index) (htext : changed.pool.utf8 place = .ok text)
      (hmem : name ∈ descriptorNames text) :
      ∃ original, file.pool.utf8 index = .ok original ∧ name ≠ replacement.source ∧
        (name = replacement.target ∨ name ∈ descriptorNames original) := by
    obtain ⟨original, horiginal, -⟩ := hindex
    cases htext.symm.trans (h.redescribed hplace horiginal)
    exact ⟨original, horiginal, mem_descriptorNames_descriptor htarget hne hmem⟩
  cases hmentions with
  | interface hmem =>
    rw [h.interfaces, List.mem_filter, bne_iff_ne] at hmem
    exact ⟨hmem.2, .inr (.interface hmem.1)⟩
  | field hfield hmem =>
    rw [h.fields] at hfield
    obtain ⟨original, horiginal, rfl⟩ := List.mem_map.mp hfield
    exact (mem_descriptorNames_descriptor htarget hne hmem).imp_right (.imp_right (.field horiginal))
  | method hmethod hmem =>
    obtain ⟨references, -, hmethods⟩ := h.members
    obtain ⟨original, horiginal, hchanges⟩ := exists_mem_of_forall₂ hmethods.flip hmethod
    rw [hchanges.descriptor] at hmem
    exact (mem_descriptorNames_descriptor htarget hne hmem).imp_right (.imp_right (.method horiginal))
  | «variable» hmethod hcode hentry htext hmem =>
    obtain ⟨original, horiginal, before, hbefore, entry', hentry', hplace⟩ :=
      h.exists_variable hmethod hcode hentry
    obtain ⟨text, hold, hother, hmem⟩ := hread hplace
      (hdescribed.localRanges original horiginal before hbefore entry' hentry') htext hmem
    exact ⟨hother, hmem.imp_right (.variable horiginal hbefore hentry' hold)⟩
  | «class» htext hmem => exact h.mentions_of_class htarget hne hlength hdescribed hname htext hmem
  | descriptor hget hplace htext hmem =>
    obtain ⟨original, index, horiginal, hindex, hredescribes⟩ := h.exists_descriptor hget hplace
    obtain ⟨text, hold, hother, hmem⟩ := hread hredescribes (hdescribed.constants (_, original)
      ((ConstantPool.mem_toList (hlength.trans (by omega))).mpr horiginal) index hindex) htext hmem
    exact ⟨hother, hmem.imp_right (.descriptor horiginal hindex hold)⟩

end ChangesClass

end Replacement

end JvmTrim
