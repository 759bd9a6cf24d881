import JvmTrim.Proofs.DirectCalls
import JvmTrim.Proofs.HierarchyShape
import JvmTrim.Proofs.Merging

/-!
# What making methods private changes

A class of the program hides those of its methods that no other class refers to and that take no part
in overriding. If it hides any, the calls of the hidden methods in its bodies become direct; all else
stays. In particular the hierarchy keeps its shape, so references lead to the same classes as before.

## Main definitions

* `ClassFile.hides`, `ClassFile.hidden`: the methods of a class that become private
* `ClassFile.TightensTo`: a class whose methods became private

## Main results

* `privatizeMethods_eq_ok`: what a successful run did to the classes of a pool
* `sameShape_of_tightensTo`: the hierarchy keeps its shape
* `ClassFile.TightensTo.offers_eq`: what overrides another method is not hidden
-/

namespace JvmTrim

/-! ## Flags -/

namespace AccessFlags

theorem has_insert (flags mask : AccessFlags) : (flags.insert mask).has mask = true := by
  have hself : (flags ||| mask) &&& mask = mask := by
    apply UInt16.eq_of_toBitVec_eq
    ext i hi
    simp only [UInt16.toBitVec_and, UInt16.toBitVec_or, BitVec.getElem_and, BitVec.getElem_or]
    exact Bool.and_eq_right_iff_imp.mpr fun hset => by simp [hset]
  simp [has, insert, hself]

/-- Flags that include a part of a mask have something in common with the mask. -/
theorem hasAny_of_has {flags mask part : AccessFlags} (hpart : part ≠ 0) (hmask : mask.has part = true)
    (h : flags.has part = true) : flags.hasAny mask = true := by
  simp only [has, beq_iff_eq] at h hmask
  simp only [hasAny, bne_iff_ne, ne_eq]
  intro hnone
  apply hpart
  calc part = flags &&& part := h.symm
    _ = flags &&& (mask &&& part) := by rw [hmask]
    _ = flags &&& mask &&& part := (UInt16.and_assoc ..).symm
    _ = 0 := by rw [hnone, UInt16.zero_and]

end AccessFlags

theorem Method.has_private_madePrivate (method : Method) :
    method.madePrivate.access.has AccessFlags.private = true :=
  AccessFlags.has_insert ..

/-- A private method cannot be overridden. -/
theorem Method.hasAny_madePrivate (method : Method) :
    method.madePrivate.access.hasAny (AccessFlags.private ||| AccessFlags.static) = true :=
  AccessFlags.hasAny_of_has (by decide) (by decide) method.has_private_madePrivate

/-! ## Hidden methods -/

namespace ClassFile

variable (hierarchy : Hierarchy) (keep : KeepSet) (used : List MemberKey) (file : ClassFile)

/-- Whether a class makes one of its methods private. -/
def hides (method : Method) : Bool :=
  !file.isLibrary && !file.isInterface && method.canBePrivate hierarchy keep used file.name

/-- The methods that a class makes private. -/
def hidden : List (String × String) :=
  (file.methods.filter (file.hides hierarchy keep used)).map fun m => (m.name, m.descriptor)

/-- Whether a method is declared as another one in a class that makes methods private. -/
structure Redeclared (method changed : Method) : Prop where
  name : changed.name = method.name
  descriptor : changed.descriptor = method.descriptor
  access : changed.access =
    if file.hides hierarchy keep used method then method.madePrivate.access else method.access

/-- Whether a method became another one in a class that makes methods private. -/
structure Tightened (method changed : Method) : Prop
    extends file.Redeclared hierarchy keep used method changed where
  code : Option.Rel (Code.MadeDirect (file.pool.callsMade file.name (file.hidden hierarchy keep used)))
    method.code changed.code

/-- Whether a class became another one when methods were made private. -/
def TightensTo (changed : ClassFile) : Prop :=
  file.hidden hierarchy keep used = [] ∧ changed = file ∨
    changed = { file with methods := changed.methods } ∧
      List.Forall₂ (file.Tightened hierarchy keep used) file.methods changed.methods

end ClassFile

section

variable {hierarchy : Hierarchy} {keep : KeepSet} {used : List MemberKey}

/-- When a class makes one of its methods private. -/
theorem ClassFile.hides_iff {file : ClassFile} {method : Method} :
    file.hides hierarchy keep used method = true ↔ file.isLibrary = false ∧
      file.isInterface = false ∧ method.name.toList.head? ≠ some '<' ∧
      method.access.hasAny (AccessFlags.private ||| AccessFlags.abstract) = false ∧
      keep.keepsMember ⟨file.name, method.name, method.descriptor⟩ = false ∧
      (⟨file.name, method.name, method.descriptor⟩ : MemberKey) ∉ used ∧
      hierarchy.overrides file.name method.name method.descriptor = false ∧
      hierarchy.isOverridden file.name method.name method.descriptor = false := by
  simp [hides, Method.canBePrivate, and_assoc]

theorem mem_foldl_insert {α β : Type} [BEq β] [LawfulBEq β] {f : α → β} {list : List α}
    {found : List β} {b : β} : b ∈ list.foldl (fun found a => found.insert (f a)) found ↔
      b ∈ found ∨ b ∈ list.map f := by
  induction list generalizing found with
  | nil => simp
  | cons head tail ih =>
    rw [List.foldl_cons, ih, List.mem_insert_iff, List.map_cons, List.mem_cons]
    tauto

/-- Only which methods are private matters for the calls. -/
theorem ConstantPool.callsMade_congr {pool : ConstantPool} {owner : String}
    {first second : List (String × String)} (h : ∀ key, key ∈ first ↔ key ∈ second) :
    pool.callsMade owner first = pool.callsMade owner second := by
  funext index
  rw [Bool.eq_iff_iff]
  constructor
  · exact callsMade_mono fun key => (h key).mp
  · exact callsMade_mono fun key => (h key).mpr

theorem Method.callDirectly_of_apply {pool : ConstantPool} {owner : String}
    {made : List (String × String)} {shared shared' : Unit} {method changed : Method}
    (h : (Method.makeCallsDirect pool owner made).apply (shared, method) = (.ok (), shared', changed)) :
    method.callDirectly pool owner made = .ok changed := by
  rw [makeCallsDirect, Change.apply_ofEffect] at h
  dsimp only at h
  split at h
  · rename_i heq
    cases h
    exact heq
  · cases h

theorem ClassFile.tightened_of_callDirectly {file : ClassFile} {made : List (String × String)}
    (hmade : ∀ key, key ∈ made ↔ key ∈ file.hidden hierarchy keep used) {method changed : Method}
    (h : (if file.hides hierarchy keep used method then method.madePrivate else method).callDirectly
      file.pool file.name made = .ok changed) : file.Tightened hierarchy keep used method changed := by
  obtain ⟨heq, hcode⟩ := Method.callDirectly_eq_ok h
  rw [ConstantPool.callsMade_congr hmade] at hcode
  have hsame : (if file.hides hierarchy keep used method then method.madePrivate else method) =
      { method with access :=
          if file.hides hierarchy keep used method then method.madePrivate.access
          else method.access } := by
    split <;> rfl
  rw [hsame] at heq hcode
  exact ⟨⟨(congrArg Method.name heq :), (congrArg Method.descriptor heq :),
    (congrArg Method.access heq :)⟩, hcode⟩

/-- **What a successful run did to a class.** -/
theorem privatizeClass_eq_ok {total total' : Nat} {file changed : ClassFile}
    (h : (privatizeClass hierarchy keep used).apply (total, file) = (.ok (), total', changed)) :
    file.TightensTo hierarchy keep used changed := by
  obtain ⟨_, _, hget, h⟩ := Change.apply_bind_eq_ok h
  cases hget
  dsimp only at h
  split at h
  · rename_i hexempt
    cases h
    refine .inl ⟨?_, rfl⟩
    rw [ClassFile.hidden, List.map_eq_nil_iff, List.filter_eq_nil_iff]
    intro method _ hhides
    obtain ⟨hlibrary, hinterface, -⟩ := ClassFile.hides_iff.mp hhides
    simp [hlibrary, hinterface] at hexempt
  · rename_i hprogram
    have hhides : file.hides hierarchy keep used =
        Method.canBePrivate hierarchy keep used file.name := by
      funext method
      simp_all [ClassFile.hides]
    generalize hmade : List.foldl _ _ _ = made at h
    have hmem : ∀ key, key ∈ made ↔ key ∈ file.hidden hierarchy keep used := by
      intro key
      rw [← hmade, mem_foldl_insert, ClassFile.hidden, hhides]
      simp
    split at h
    · rename_i hempty
      cases h
      refine .inl ⟨List.eq_nil_iff_forall_not_mem.mpr fun key hkey => ?_, rfl⟩
      rw [← hmem, List.isEmpty_iff.mp hempty] at hkey
      exact List.not_mem_nil hkey
    · rw [Change.apply_ofEffect] at h
      generalize hrun : Change.eachOf _ () _ = answer at h
      obtain ⟨result, _, methods⟩ := answer
      cases h
      have hmethods := Change.forall₂_of_eachOf (T := fun method changed =>
        method.callDirectly file.pool file.name made = .ok changed) Method.callDirectly_of_apply hrun
      rw [List.forall₂_map_left_iff, ← hhides] at hmethods
      exact .inr ⟨rfl, hmethods.imp fun _ _ => ClassFile.tightened_of_callDirectly hmem⟩

/-- **What a successful run did to the classes of a pool.** -/
theorem privatizeMethods_eq_ok {pool after : ClassPool} {count : Nat}
    (h : (privatizeMethods hierarchy keep).apply pool = (.ok count, after)) :
    List.Forall₂ (ClassFile.TightensTo hierarchy keep (foreignReferences hierarchy pool))
      pool.classes after.classes := by
  rw [privatizeMethods, Change.apply_ofEffect] at h
  dsimp only at h
  generalize hrun : Change.eachOf (privatizeClass hierarchy keep (foreignReferences hierarchy pool))
    0 pool.classes = answer at h
  obtain ⟨_ | _, total, classes⟩ := answer
  · cases h
  · cases h
    exact Change.forall₂_of_eachOf privatizeClass_eq_ok hrun

/-! ## What stays -/

namespace ClassFile

variable {file changed : ClassFile} {method : Method}

theorem not_private_of_hides (h : file.hides hierarchy keep used method = true) :
    method.access.has AccessFlags.private = false := by
  obtain ⟨-, -, -, haccess, -⟩ := hides_iff.mp h
  by_contra hprivate
  have hany : method.access.hasAny (AccessFlags.private ||| AccessFlags.abstract) = true :=
    AccessFlags.hasAny_of_has (by decide) (by decide) (Bool.not_eq_false _ ▸ hprivate)
  rw [haccess] at hany
  cases hany

namespace TightensTo

variable (h : file.TightensTo hierarchy keep used changed)

include h

theorem eq_with_methods : changed = { file with methods := changed.methods } := by
  obtain ⟨-, rfl⟩ | ⟨hsame, -⟩ := h
  · rfl
  · exact hsame

theorem name_eq : changed.name = file.name := (congrArg ClassFile.name h.eq_with_methods :)

theorem superName_eq : changed.superName = file.superName :=
  (congrArg ClassFile.superName h.eq_with_methods :)

/-- The methods, apart from their bodies. -/
theorem forall₂_declarations :
    List.Forall₂ (file.Redeclared hierarchy keep used) file.methods changed.methods := by
  obtain ⟨hnone, rfl⟩ | ⟨-, hmethods⟩ := h
  · rw [hidden, List.map_eq_nil_iff, List.filter_eq_nil_iff] at hnone
    exact List.forall₂_same.mpr fun method hmem => ⟨rfl, rfl, by rw [if_neg (hnone method hmem)]⟩
  · exact hmethods.imp fun _ _ htightened => htightened.toRedeclared

/-- The method that is found under a name and descriptor. -/
theorem rel_method? (name descriptor : String) : Option.Rel (file.Redeclared hierarchy keep used)
    (file.method? name descriptor) (changed.method? name descriptor) := by
  refine rel_find?_of_forall₂ (fun method after hsame => ?_) h.forall₂_declarations
  rw [hsame.name, hsame.descriptor]

/-- A class does not start to offer a method. -/
theorem offers_of_offers {name descriptor : String} (hoffers : changed.offers name descriptor = true) :
    file.offers name descriptor = true := by
  have hmethod := h.rel_method? name descriptor
  unfold offers at hoffers ⊢
  generalize file.method? name descriptor = found, changed.method? name descriptor = found' at *
  cases hmethod with
  | none => exact hoffers
  | @some method after hsame =>
    simp only [Option.any_some, Bool.not_eq_true', hsame.access] at hoffers ⊢
    split at hoffers
    · rw [method.hasAny_madePrivate] at hoffers
      cases hoffers
    · exact hoffers

/-- A class goes on to offer a method that it does not hide. -/
theorem offers_eq {name descriptor : String} (hkept : ∀ method ∈ file.methods, method.name = name →
      method.descriptor = descriptor → file.hides hierarchy keep used method = false) :
    changed.offers name descriptor = file.offers name descriptor := by
  have hmethod := h.rel_method? name descriptor
  have hfound : ∀ method ∈ file.method? name descriptor,
      file.hides hierarchy keep used method = false := by
    intro method hfound
    have hnamed := List.find?_some hfound
    simp only [Bool.and_eq_true, beq_iff_eq] at hnamed
    exact hkept method (List.mem_of_find?_eq_some hfound) hnamed.1 hnamed.2
  unfold offers
  generalize file.method? name descriptor = found, changed.method? name descriptor = found' at *
  cases hmethod with
  | none => rfl
  | some hsame => simp [hsame.access, hfound]

/-- What is known of a class stays the same but for flags. -/
theorem sameShape : (ClassInfo.ofClass file).SameShape (ClassInfo.ofClass changed) := by
  have hsame := h.eq_with_methods
  refine ⟨h.name_eq.symm, h.superName_eq.symm, (congrArg ClassFile.interfaces hsame :).symm,
    fun name descriptor => ?_, fun name descriptor => ?_⟩
  · have hmethod := h.rel_method? name descriptor
    rw [ClassInfo.declaresMethod_ofClass, ClassInfo.declaresMethod_ofClass]
    generalize file.method? name descriptor = found, changed.method? name descriptor = found' at *
    cases hmethod <;> rfl
  · have hfields : changed.fields = file.fields := (congrArg ClassFile.fields hsame :)
    simp only [ClassInfo.declaresField, ClassInfo.ofClass, hfields]

end TightensTo

end ClassFile

section Pool

variable {pool after : ClassPool}
  (h : List.Forall₂ (ClassFile.TightensTo hierarchy keep used) pool.classes after.classes)

include h

theorem rel_get?_of_tightensTo (name : String) :
    Option.Rel (ClassFile.TightensTo hierarchy keep used) (pool.get? name) (after.get? name) :=
  rel_find?_of_forall₂ (fun _ _ hsame => by rw [hsame.name_eq]) h

theorem exists_changed_of_get? {name : String} {file : ClassFile} (hget : pool.get? name = some file) :
    ∃ changed, after.get? name = some changed ∧ file.TightensTo hierarchy keep used changed := by
  have hclass := rel_get?_of_tightensTo h name
  generalize pool.get? name = found, after.get? name = found' at *
  cases hclass with
  | none => cases hget
  | some htightens =>
    cases hget
    exact ⟨_, rfl, htightens⟩

theorem exists_original_of_get? {name : String} {changed : ClassFile}
    (hget : after.get? name = some changed) :
    ∃ file, pool.get? name = some file ∧ file.TightensTo hierarchy keep used changed := by
  have hclass := rel_get?_of_tightensTo h name
  generalize pool.get? name = found, after.get? name = found' at *
  cases hclass with
  | none => cases hget
  | some htightens =>
    cases hget
    exact ⟨_, rfl, htightens⟩

/-- **The hierarchy keeps its shape.** -/
theorem sameShape_of_tightensTo : (Hierarchy.ofPool pool).SameShape (Hierarchy.ofPool after) := by
  rw [Hierarchy.SameShape, Hierarchy.ofPool, Hierarchy.ofPool, List.forall₂_map_left_iff,
    List.forall₂_map_right_iff]
  exact h.imp fun _ _ => ClassFile.TightensTo.sameShape

end Pool

end

end JvmTrim
