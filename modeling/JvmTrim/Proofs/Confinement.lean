import JvmTrim.Proofs.Privatizing

/-!
# Private methods are reached from their own class only

A method that becomes private is confined to its class. No reference elsewhere in the program leads to
it, nor does a handle, no class below declares it again, nothing above offers it, and the calls in its
own class are direct. A private method is not looked up in the class of the receiver, so with all this
no caller can tell that it became private.

Library classes are not searched for references, and of two methods of a class with the same name and
descriptor only the first one is known to the hierarchy.

## Main definitions

* `ClassFile.madePrivate`: the methods of a class that became private
* `ClassPool.Confines`: whether a method is reached from its own class only

## Main results

* `privatizeMethods_confines`: what becomes private is confined to its class, and nothing else changes
* `privatizeMethods_leaves_handle`: a handle of a library class and a second declaration above escape
-/

namespace JvmTrim

open Relation

/-- The methods of a class that became private in another version of it. -/
def ClassFile.madePrivate (file changed : ClassFile) : List (String × String) :=
  ((file.methods.zip changed.methods).filter fun (before, after) =>
    after.access.has AccessFlags.private && !before.access.has AccessFlags.private).map
    fun (before, _) => (before.name, before.descriptor)

/-- Whether a constant is a reference to a method. -/
def Constant.isMethodReference : Constant → Bool
  | .methodref .. | .interfaceMethodref .. => true
  | _ => false

/-- Whether a method of a class is reached from that class only. -/
structure ClassPool.Confines (pool : ClassPool) (file : ClassFile) (name descriptor : String) :
    Prop where
  /-- A reference that leads to the method is one of the class to itself. -/
  references : ∀ user ∈ pool.programClasses, ∀ entry ∈ user.pool.toList,
    entry.2.isMethodReference = true → ∀ member, user.pool.memberRef entry.1 = .ok member →
      (Hierarchy.ofPool pool).resolve? member = some ⟨file.name, name, descriptor⟩ →
        user.name = file.name ∧ member.owner = file.name
  /-- No handle leads to the method. -/
  handles : ∀ user ∈ pool.programClasses, ∀ index kind reference,
    (index, Constant.methodHandle kind reference) ∈ user.pool.toList →
      ∀ member, user.pool.memberRef reference = .ok member →
        (Hierarchy.ofPool pool).resolve? member ≠ some ⟨file.name, name, descriptor⟩
  /-- No class below declares the method. -/
  below : ∀ sub, TransGen (Hierarchy.ofPool pool).SubclassOf sub file.name →
    ∀ other, pool.get? sub = some other → other.method? name descriptor = none
  /-- What is above is known, and does not offer the method. -/
  above : ∀ sup, TransGen (Hierarchy.ofPool pool).Extends file.name sup →
    ∃ other, pool.get? sup = some other ∧ other.offers name descriptor = false
  /-- The class itself does not call the method by the class of the receiver. -/
  calls : ∀ method ∈ file.methods, ∀ code, method.code = some code →
    ∃ body, decodeAll code.bytes = .ok body ∧ ∀ entry ∈ body,
      entry.2.isVirtualCall (file.pool.callsMade file.name [(name, descriptor)]) = false

/-- Whether a method is another one that may have become private, and some of whose calls may have
become direct. -/
structure Method.KeptOrHidden (isCall : UInt16 → Bool) (method changed : Method) : Prop where
  name : changed.name = method.name
  descriptor : changed.descriptor = method.descriptor
  access : changed.access = method.access ∨ changed.access = method.madePrivate.access
  code : changed.code = method.code ∨ Option.Rel (Code.MadeDirect isCall) method.code changed.code

section

variable {hierarchy : Hierarchy} {keep : KeepSet} {used : List MemberKey} {file changed : ClassFile}
  {pool after : ClassPool}

/-! ## What becomes private -/

theorem ClassFile.Redeclared.becomes_private_iff {method after : Method}
    (h : file.Redeclared hierarchy keep used method after) :
    (after.access.has AccessFlags.private && !method.access.has AccessFlags.private) =
      file.hides hierarchy keep used method := by
  rw [h.access]
  cases hhides : file.hides hierarchy keep used method with
  | true => simp [method.has_private_madePrivate, ClassFile.not_private_of_hides hhides]
  | false => simp

/-- The methods that become private are those that the class hides. -/
theorem ClassFile.TightensTo.madePrivate_eq (h : file.TightensTo hierarchy keep used changed) :
    file.madePrivate changed = file.hidden hierarchy keep used := by
  rw [ClassFile.madePrivate, ClassFile.hidden]
  have hmethods := h.forall₂_declarations
  generalize file.methods = methods, changed.methods = methods' at hmethods
  induction hmethods with
  | nil => rfl
  | @cons method after _ _ hhead _ ih =>
    rw [List.zip_cons_cons, List.filter_cons, List.filter_cons]
    simp only [hhead.becomes_private_iff]
    cases file.hides hierarchy keep used method with
    | true => exact congrArg _ ih
    | false => exact ih

theorem ClassFile.TightensTo.forall₂_keptOrHidden (h : file.TightensTo hierarchy keep used changed) :
    List.Forall₂ (Method.KeptOrHidden (file.pool.callsMade file.name (file.hidden hierarchy keep used)))
      file.methods changed.methods := by
  have haccess {method after : Method} (hsame : file.Redeclared hierarchy keep used method after) :
      after.access = method.access ∨ after.access = method.madePrivate.access := by
    rw [hsame.access]
    split
    · exact .inr rfl
    · exact .inl rfl
  obtain ⟨-, rfl⟩ | ⟨-, hmethods⟩ := h
  · exact List.forall₂_same.mpr fun _ _ => ⟨rfl, rfl, .inl rfl, .inl rfl⟩
  · exact hmethods.imp fun _ _ hsame =>
      ⟨hsame.name, hsame.descriptor, haccess hsame.toRedeclared, .inr hsame.code⟩

/-! ## What leads to a hidden method -/

theorem Hierarchy.resolve?_eq_some {member : MemberRef} {resolved : ResolvedMember}
    (h : hierarchy.resolve? member = some resolved) :
    resolved.name = member.name ∧ resolved.descriptor = member.descriptor := by
  obtain ⟨_, -, rfl⟩ := Option.map_eq_some_iff.mp h
  exact ⟨rfl, rfl⟩

theorem methodReference?_of_isMethodReference {index : UInt16} {constant : Constant}
    (h : constant.isMethodReference = true) : methodReference? index constant = some (index, false) := by
  cases constant with
  | methodref | interfaceMethodref => rfl
  | _ => cases h

/-- A reference that leads to a method is foreign unless it is one of the class to itself, and no
handle. -/
theorem mem_foreignReferences {user : ClassFile} {entry : UInt16 × Constant} {reference : UInt16}
    {isHandle : Bool} {member : MemberRef} {owner name descriptor : String}
    (huser : user ∈ pool.programClasses) (hentry : entry ∈ user.pool.toList)
    (hreference : methodReference? entry.1 entry.2 = some (reference, isHandle))
    (hmember : user.pool.memberRef reference = .ok member)
    (hresolve : hierarchy.resolve? member = some ⟨owner, name, descriptor⟩)
    (hforeign : isHandle = false → user.name = owner → member.owner ≠ owner) :
    ⟨owner, name, descriptor⟩ ∈ foreignReferences hierarchy pool := by
  obtain ⟨rfl, rfl⟩ := Hierarchy.resolve?_eq_some hresolve
  refine List.mem_flatMap.mpr ⟨user, huser, List.mem_filterMap.mpr ⟨entry, hentry, ?_⟩⟩
  have hcondition : isHandle = false → member.owner = user.name → owner ≠ user.name := by
    rintro hhandle hnamed rfl
    exact hforeign hhandle rfl hnamed
  simpa [foreignReference?, hreference, hmember, hresolve, Except.toOption] using hcondition

/-- The classes of the program are the same before and after, but for their methods. -/
theorem exists_original_of_mem
    (h : List.Forall₂ (ClassFile.TightensTo hierarchy keep used)
      pool.classes after.classes) {user : ClassFile} (huser : user ∈ after.programClasses) :
    ∃ original ∈ pool.programClasses, user.name = original.name ∧ user.pool = original.pool := by
  obtain ⟨hmem, hprogram⟩ := List.mem_filter.mp huser
  obtain ⟨original, horiginal, htightens : original.TightensTo hierarchy keep used user⟩ :=
    exists_mem_of_forall₂ h.flip hmem
  have hsame := htightens.eq_with_methods
  have hlibrary : user.isLibrary = original.isLibrary := (congrArg ClassFile.isLibrary hsame :)
  refine ⟨original, List.mem_filter.mpr ⟨horiginal, hlibrary ▸ hprogram⟩, htightens.name_eq, ?_⟩
  exact (congrArg ClassFile.pool hsame :)

/-! ## Confinement -/

theorem ClassFile.TightensTo.calls (h : file.TightensTo hierarchy keep used changed)
    {key : String × String} (hkey : key ∈ file.hidden hierarchy keep used) :
    ∀ method ∈ changed.methods, ∀ code, method.code = some code →
      ∃ body, decodeAll code.bytes = .ok body ∧ ∀ entry ∈ body,
        entry.2.isVirtualCall (changed.pool.callsMade changed.name [key]) = false := by
  obtain ⟨hnone, -⟩ | ⟨hsame, hmethods⟩ := h
  · rw [hnone] at hkey
    cases hkey
  · have hname : changed.name = file.name := (congrArg ClassFile.name hsame :)
    have hpool : changed.pool = file.pool := (congrArg ClassFile.pool hsame :)
    rw [hname, hpool]
    refine forall_mem_of_forall₂ (hmethods.imp fun method after htightened code hcode => ?_)
    have hcodes := htightened.code
    rw [hcode] at hcodes
    generalize method.code = original at hcodes
    cases hcodes with
    | some hdirect =>
      obtain ⟨body, hbody, hnone⟩ := hdirect.not_isVirtualCall
      refine ⟨body, hbody, fun entry hentry => ?_⟩
      refine Instruction.not_isVirtualCall_of_imp (fun index => ?_) (hnone entry hentry)
      exact ConstantPool.callsMade_mono fun _ hmem => List.mem_singleton.mp hmem ▸ hkey

/-- **A method that a class hides is confined to it.** -/
theorem confines_of_hides
    (h : List.Forall₂ (ClassFile.TightensTo (.ofPool pool) keep
      (foreignReferences (.ofPool pool) pool)) pool.classes after.classes)
    (htightens : file.TightensTo (.ofPool pool) keep (foreignReferences (.ofPool pool) pool) changed)
    {method : Method} (hmem : method ∈ file.methods)
    (hhides : file.hides (.ofPool pool) keep (foreignReferences (.ofPool pool) pool) method = true) :
    after.Confines changed method.name method.descriptor := by
  have hshape := sameShape_of_tightensTo h
  obtain ⟨-, -, -, -, -, hused, hover, hoverridden⟩ := ClassFile.hides_iff.mp hhides
  constructor
  · -- references
    intro user huser entry hentry hmethod member hmember hresolve
    obtain ⟨original, horiginal, hname, hpool⟩ := exists_original_of_mem h huser
    rw [hpool] at hentry hmember
    rw [← hshape.resolve?_eq, htightens.name_eq] at hresolve
    rw [hname, htightens.name_eq]
    by_contra hother
    exact hused (mem_foreignReferences horiginal hentry (methodReference?_of_isMethodReference hmethod)
      hmember hresolve fun _ hself howner => hother ⟨hself, howner⟩)
  · -- method handles
    intro user huser index kind reference hentry member hmember hresolve
    obtain ⟨original, horiginal, hname, hpool⟩ := exists_original_of_mem h huser
    rw [hpool] at hentry hmember
    rw [← hshape.resolve?_eq, htightens.name_eq] at hresolve
    exact hused (mem_foreignReferences horiginal hentry rfl hmember hresolve nofun)
  · -- declarations below
    intro sub hsub other hother
    rw [← hshape.subclassOf_eq, htightens.name_eq] at hsub
    obtain ⟨original, horiginal, hsame⟩ := exists_original_of_get? h hother
    by_contra hdeclares
    refine Bool.eq_false_iff.mp hoverridden (Hierarchy.isOverridden_iff.mpr ?_)
    refine ⟨sub, ClassInfo.ofClass original, hsub, ?_, ?_⟩
    · rw [Hierarchy.get?_ofPool, horiginal, Option.map_some]
    · rw [hsame.sameShape.methods, ClassInfo.declaresMethod_ofClass]
      exact Option.isSome_iff_ne_none.mpr hdeclares
  · -- declarations above
    intro sup hsup
    rw [← hshape.extends_eq, htightens.name_eq] at hsup
    have hnone : (Hierarchy.ofPool pool).mayOffer method.name method.descriptor sup = false := by
      by_contra hmay
      refine Bool.eq_false_iff.mp hover (Hierarchy.overrides_iff.mpr (.inr ⟨sup, hsup, ?_⟩))
      exact Bool.not_eq_false _ ▸ hmay
    obtain ⟨original, horiginal, hsilent⟩ := Hierarchy.exists_of_not_mayOffer hnone
    obtain ⟨other, hother, hsame⟩ := exists_changed_of_get? h horiginal
    refine ⟨other, hother, Bool.eq_false_iff.mpr fun hoffers => ?_⟩
    exact Bool.eq_false_iff.mp hsilent (hsame.offers_of_offers hoffers)
  · exact htightens.calls (List.mem_map.mpr ⟨method, List.mem_filter.mpr ⟨hmem, hhides⟩, rfl⟩)

end

/-- Whether a class is another one some of whose methods became private, and are confined to it in the
pool that holds it now. -/
structure ClassFile.ConfinedIn (after : ClassPool) (file changed : ClassFile) : Prop where
  others : changed = { file with methods := changed.methods }
  methods : List.Forall₂
    (Method.KeptOrHidden (file.pool.callsMade file.name (file.madePrivate changed)))
    file.methods changed.methods
  confined : ∀ key ∈ file.madePrivate changed, after.Confines changed key.1 key.2

/-- **What becomes private is confined to its class, and nothing else changes.** In every class, each
method keeps its name and descriptor, its flags change only if it becomes private, and its body
changes only where it calls, by the class of the receiver, a method of the class that became private:
such a call becomes direct. -/
theorem privatizeMethods_confines {pool after : ClassPool} {keep : KeepSet} {count : Nat}
    (hrun : (privatizeMethods (.ofPool pool) keep).apply pool = (.ok count, after)) :
    List.Forall₂ (ClassFile.ConfinedIn after) pool.classes after.classes := by
  have hclasses := privatizeMethods_eq_ok hrun
  refine hclasses.imp fun file changed htightens => ⟨htightens.eq_with_methods, ?_, ?_⟩
  · rw [htightens.madePrivate_eq]
    exact htightens.forall₂_keptOrHidden
  · rintro ⟨name, descriptor⟩ hkey
    rw [htightens.madePrivate_eq] at hkey
    obtain ⟨method, hmethod, hsame⟩ := List.mem_map.mp hkey
    obtain ⟨hmem, hhides⟩ := List.mem_filter.mp hmethod
    cases hsame
    exact confines_of_hides hclasses htightens hmem hhides

/-- A class with a method that calls another one of its methods, by a given opcode. -/
def caller (access : AccessFlags) (opcode : UInt8) : ClassPool :=
  ⟨[{ name := "java/lang/Object", superName := none, interfaces := [], access := 0x1, pool := .empty
      fields := [], methods := [], isLibrary := true },
    { name := "a/D", superName := some "java/lang/Object", interfaces := [], access := 0x1
      pool := ⟨#[none, some (.utf8 "a/D"), some (.class 1), some (.utf8 "m"), some (.utf8 "()V"),
        some (.nameAndType 3 4), some (.methodref 2 5)]⟩
      fields := []
      methods := [⟨0x1, "run", "()V", some ⟨1, 1, [0x2A, opcode, 0x00, 0x06, 0xB1], [], [], []⟩⟩,
        ⟨access, "m", "()V", none⟩]
      isLibrary := false }]⟩

/-- A kept method calls one that becomes private. -/
theorem privatizeMethods_confines_caller :
    (privatizeMethods (.ofPool (caller 0x101 0xB6)) ⟨[], [⟨"a/D", "run", "()V"⟩], []⟩).apply
        (caller 0x101 0xB6) = (.ok 1, caller 0x102 0xB7) ∧
      ∃ file ∈ (caller 0x102 0xB7).classes,
        file.name = "a/D" ∧ (caller 0x102 0xB7).Confines file "m" "()V" := by
  have hrun : (privatizeMethods (.ofPool (caller 0x101 0xB6))
      ⟨[], [⟨"a/D", "run", "()V"⟩], []⟩).apply (caller 0x101 0xB6) = (.ok 1, caller 0x102 0xB7) := by
    refine Prod.ext (Except.eq_ok_of_toOption ?_) ?_
    · decide +kernel
    · decide +kernel
  obtain _ | ⟨-, _ | ⟨hconfined, -⟩⟩ := privatizeMethods_confines hrun
  exact ⟨hrun, _, .tail _ (.head _), rfl, hconfined.confined ("m", "()V") (by decide +kernel)⟩

/-- A class below one that declares a method twice, first as a private one, and a library class with a
handle to that method. -/
def exposed (access : AccessFlags) : ClassPool :=
  let file (name : String) (parent : Option String) (methods : List Method) : ClassFile :=
    { name, superName := parent, interfaces := [], access := 0x1, pool := .empty, fields := []
      methods, isLibrary := false }
  ⟨[{ file "java/lang/Object" none [] with isLibrary := true },
    file "a/S" (some "java/lang/Object") [⟨0x2, "m", "()V", none⟩, ⟨0x101, "m", "()V", none⟩],
    file "a/D" (some "a/S") [⟨access, "m", "()V", none⟩],
    { file "lib/H" (some "java/lang/Object") [] with
      isLibrary := true
      pool := ⟨#[none, some (.utf8 "a/D"), some (.class 1), some (.utf8 "m"), some (.utf8 "()V"),
        some (.nameAndType 3 4), some (.methodref 2 5), some (.methodHandle 5 6)]⟩ }]⟩

/-- **Not every handle and not every declaration above counts**: the method becomes private, though a
handle of a library class leads to it and the class above declares it a second time, as a public
method. -/
theorem privatizeMethods_leaves_handle :
    (∀ name, ¬ TransGen (Hierarchy.ofPool (exposed 0x101)).Extends name name) ∧
      (privatizeMethods (.ofPool (exposed 0x101)) .empty).apply (exposed 0x101) =
        (.ok 1, exposed 0x102) ∧
      (∃ user ∈ (exposed 0x102).classes, ∃ member,
        (7, Constant.methodHandle 5 6) ∈ user.pool.toList ∧ user.pool.memberRef 6 = .ok member ∧
          (Hierarchy.ofPool (exposed 0x102)).resolve? member = some ⟨"a/D", "m", "()V"⟩) ∧
      ∃ other ∈ (exposed 0x102).classes,
        (Hierarchy.ofPool (exposed 0x102)).Extends "a/D" other.name ∧
          ⟨0x101, "m", "()V", none⟩ ∈ other.methods := by
  refine ⟨?_, ?_, ?_, ?_⟩
  · exact Hierarchy.acyclic_of_rank ["java/lang/Object", "a/S", "a/D", "lib/H"].idxOf
      (by decide +kernel)
  · refine Prod.ext (Except.eq_ok_of_toOption ?_) ?_
    · decide +kernel
    · decide +kernel
  · exact ⟨_, .tail _ (.tail _ (.tail _ (.head _))), ⟨"a/D", "m", "()V", .method⟩,
      by decide +kernel, by decide +kernel, by decide +kernel⟩
  · exact ⟨_, .tail _ (.head _), (by decide +kernel : "a/S" ∈ _), by decide +kernel⟩

end JvmTrim
