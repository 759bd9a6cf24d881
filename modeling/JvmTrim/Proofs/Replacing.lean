import JvmTrim.Proofs.Mentions
import Mathlib.Data.List.Induction
import Mathlib.Data.List.Nodup

/-!
# Interfaces that are merged leave no mention

The interfaces that can be merged are told before the first of them is. They do not get in each
other's way: an interface is merged once, and the class in its place is no interface and stays. One
merge after another therefore replaces all of them, whatever their order: no class mentions any of
them, references to their methods are references to methods of the classes in their places, calls
through them are ordinary calls, and nothing else about a body changes.

## Main definitions

* `Replacement.Independent`: replacements that do not get in each other's way
* `ClassFile.ReplacedBy`: a class in which one interface after another was replaced
* `ClassFile.FreeOf`: a class that no longer mentions interfaces that were replaced

## Main results

* `independent_mergeCandidates`: the interfaces that can be merged do not get in each other's way
* `mergeInterfaces_leaves_no_mention`: merging interfaces replaces all of them everywhere
* `mergeInterfaces_mentions`: a class whose name cannot be written in a descriptor brings a mention
  of the interface back
-/

namespace JvmTrim

/-! ## Replacements one after another -/

/-- A descriptor in which one interface after another is replaced. -/
def replacedDescriptor (replacements : List Replacement) (text : String) : String :=
  replacements.foldl (fun text replacement => replacement.descriptor text) text

/-- The name in a class constant in which one interface after another is replaced. -/
def replacedClassName (replacements : List Replacement) (name : String) : String :=
  replacements.foldl (fun name replacement => replacement.className name) name

theorem replacedDescriptor_append (replacements : List Replacement) (replacement : Replacement)
    (text : String) : replacedDescriptor (replacements ++ [replacement]) text =
      replacement.descriptor (replacedDescriptor replacements text) := by
  simp [replacedDescriptor]

theorem replacedClassName_append (replacements : List Replacement) (replacement : Replacement)
    (name : String) : replacedClassName (replacements ++ [replacement]) name =
      replacement.className (replacedClassName replacements name) := by
  simp [replacedClassName]

/-- A name that is not replaced stays, if it can be written. -/
theorem replacedClassName_of_ne {replacements : List Replacement} {name : String}
    (hname : IsClassName name) (h : ∀ replacement ∈ replacements, name ≠ replacement.source) :
    replacedClassName replacements name = name := by
  induction replacements with
  | nil => rfl
  | cons head tail ih =>
    rw [List.forall_mem_cons] at h
    rw [replacedClassName, List.foldl_cons, Replacement.className_of_ne hname h.1]
    exact ih h.2

namespace Replacement

/-- Replacements that do not get in each other's way: an interface is replaced once, and the class in
its place is not replaced; all names can be written. -/
structure Independent (replacements : List Replacement) : Prop where
  nodup : (replacements.map (·.source)).Nodup
  apart : ∀ first ∈ replacements, ∀ second ∈ replacements, first.target ≠ second.source
  names : ∀ replacement ∈ replacements,
    IsClassName replacement.source ∧ IsClassName replacement.target

namespace Independent

variable {replacements : List Replacement} {replacement : Replacement}
  (h : Independent (replacements ++ [replacement]))

include h

theorem init : Independent replacements where
  nodup := by
    have hnodup := h.nodup
    rw [List.map_append, List.nodup_append] at hnodup
    exact hnodup.1
  apart first hfirst second hsecond :=
    h.apart first (List.mem_append_left _ hfirst) second (List.mem_append_left _ hsecond)
  names other hother := h.names other (List.mem_append_left _ hother)

theorem names_last : IsClassName replacement.source ∧ IsClassName replacement.target :=
  h.names replacement (by simp)

theorem target_ne : replacement.target ≠ replacement.source :=
  h.apart replacement (by simp) replacement (by simp)

/-- The last interface was neither replaced before nor put in the place of another one. -/
theorem source_ne {other : Replacement} (hother : other ∈ replacements) :
    replacement.source ≠ other.source ∧ replacement.source ≠ other.target := by
  have hnodup := h.nodup
  rw [List.map_append, List.nodup_append] at hnodup
  refine ⟨fun heq => ?_, fun heq => ?_⟩
  · exact hnodup.2.2 _ (List.mem_map_of_mem hother) _ (by simp) heq.symm
  · exact h.apart other (List.mem_append_left _ hother) replacement (by simp) heq.symm

end Independent

end Replacement

/-! ## Classes -/

namespace ConstantPool

theorem callsThrough_nil (pool : ConstantPool) : pool.callsThrough [] = fun _ => false := by
  funext index
  rw [← Bool.not_eq_true, callsThrough_iff]
  simp

theorem callsThrough_append (pool : ConstantPool) (first second : List String) :
    pool.callsThrough (first ++ second) = fun index =>
      pool.callsThrough first index || pool.callsThrough second index := by
  funext index
  rw [Bool.eq_iff_iff, Bool.or_eq_true]
  simp only [callsThrough_iff, List.mem_append]
  constructor
  · rintro ⟨owner, nameAndType, name, hget, hname, hmem⟩
    exact hmem.imp (fun hmem => ⟨owner, nameAndType, name, hget, hname, hmem⟩)
      fun hmem => ⟨owner, nameAndType, name, hget, hname, hmem⟩
  · rintro (⟨owner, nameAndType, name, hget, hname, hmem⟩ |
      ⟨owner, nameAndType, name, hget, hname, hmem⟩)
    · exact ⟨owner, nameAndType, name, hget, hname, .inl hmem⟩
    · exact ⟨owner, nameAndType, name, hget, hname, .inr hmem⟩

end ConstantPool

/-- A method in which one interface after another was replaced, where `pool` are the constants
before. -/
structure Method.ReplacedBy (replacements : List Replacement) (pool : ConstantPool)
    (method after : Method) : Prop where
  access : after.access = method.access
  name : after.name = method.name
  descriptor : after.descriptor = replacedDescriptor replacements method.descriptor
  /-- Calls through the interfaces are ordinary calls, and no other instruction changes. -/
  code : Option.Rel (Code.Follows (pool.callsThrough (replacements.map (·.source))))
    method.code after.code

/-- A class in which one interface after another was replaced. -/
structure ClassFile.ReplacedBy (replacements : List Replacement) (file after : ClassFile) :
    Prop where
  name : after.name = file.name
  interfaces : after.interfaces =
    file.interfaces.filter fun name => !(replacements.map (·.source)).contains name
  fields : after.fields = file.fields.map fun field =>
    { field with descriptor := replacedDescriptor replacements field.descriptor }
  methods : List.Forall₂ (Method.ReplacedBy replacements file.pool) file.methods after.methods
  classes : ∀ index name, file.pool.className index = .ok name →
    after.pool.className index = .ok (replacedClassName replacements name)
  types : ∀ index name descriptor, file.pool.nameAndType index = .ok (name, descriptor) →
    after.pool.nameAndType index = .ok (name, replacedDescriptor replacements descriptor)
  /-- References to methods of the interfaces are references to methods of the classes. -/
  calls : ∀ replacement ∈ replacements, ∀ index owner nameAndType,
    file.pool.get index = .ok (.interfaceMethodref owner nameAndType) →
    file.pool.className owner = .ok replacement.source →
    after.pool.get index = .ok (.methodref owner nameAndType) ∧
      after.pool.className owner = .ok replacement.target
  /-- References to methods of other interfaces stay. -/
  others : ∀ index owner nameAndType name,
    file.pool.get index = .ok (.interfaceMethodref owner nameAndType) →
    file.pool.className owner = .ok name → (∀ replacement ∈ replacements, name ≠ replacement.source) →
    after.pool.get index = .ok (.interfaceMethodref owner nameAndType)
  /-- No references to methods of other interfaces arise. -/
  through : ∀ name, IsClassName name →
    (∀ replacement ∈ replacements, name ≠ replacement.source ∧ name ≠ replacement.target) →
    ∀ index, after.pool.callsThrough [name] index = file.pool.callsThrough [name] index

/-- A class that no longer mentions interfaces that were replaced. -/
structure ClassFile.FreeOf (replacements : List Replacement) (file : ClassFile) : Prop where
  length : file.pool.length ≤ 65535
  described : file.WellDescribed
  unmentioned : ∀ replacement ∈ replacements, ¬ file.Mentions replacement.source

section Step

variable {replacements : List Replacement} {replacement : Replacement}
  (hindependent : Replacement.Independent (replacements ++ [replacement]))

include hindependent in
/-- Replacing one more interface keeps a class free of the interfaces before. -/
theorem ClassFile.FreeOf.step {file after : ClassFile} (h : file.FreeOf replacements)
    (hchanges : replacement.ChangesClass file after) :
    after.FreeOf (replacements ++ [replacement]) := by
  obtain ⟨hsource, htarget⟩ := hindependent.names_last
  have hmentions {name : String} (hname : IsClassName name) (hmention : after.Mentions name) :=
    hchanges.mentions htarget hindependent.target_ne h.length h.described hname hmention
  refine ⟨hchanges.length_le, hchanges.wellDescribed htarget h.length h.described,
    fun other hother hmention => ?_⟩
  rcases List.mem_append.mp hother with hold | hlast
  · obtain ⟨-, heq | hbefore⟩ := hmentions (hindependent.names other hother).1 hmention
    · exact hindependent.apart replacement (by simp) other hother heq.symm
    · exact h.unmentioned other hold hbefore
  · obtain rfl := List.mem_singleton.mp hlast
    exact (hmentions hsource hmention).1 rfl

theorem Method.ReplacedBy.refl (pool : ConstantPool) (method : Method) :
    Method.ReplacedBy [] pool method method where
  access := rfl
  name := rfl
  descriptor := rfl
  code := by
    rw [List.map_nil, ConstantPool.callsThrough_nil]
    cases method.code with
    | none => exact .none
    | some code => exact .some (.refl code)

/-- Replacing one more interface in a method. -/
theorem Method.ReplacedBy.step {pool current : ConstantPool} {references : List UInt16}
    {method between after : Method} (h : Method.ReplacedBy replacements pool method between)
    (hcalls : ∀ index, references.contains index = pool.callsThrough [replacement.source] index)
    (hsmall : ∀ code ∈ method.code, code.size < 2 ^ 30)
    (hchanges : replacement.ChangesMethod references current between after) :
    Method.ReplacedBy (replacements ++ [replacement]) pool method after where
  access := hchanges.access.trans h.access
  name := hchanges.name.trans h.name
  descriptor := by rw [hchanges.descriptor, h.descriptor, replacedDescriptor_append]
  code := by
    have hfirst := h.code
    have hlast := hchanges.code
    rw [List.map_append, ConstantPool.callsThrough_append]
    generalize method.code = code, between.code = code', after.code = code'' at *
    cases hfirst with
    | none =>
      cases hlast
      exact .none
    | some hfollows =>
      cases hlast with
      | some hchanged =>
        have hbody := hchanged.body (hsmall _ rfl) hfollows
        simp only [hcalls] at hbody
        exact .some hbody

theorem ClassFile.ReplacedBy.refl (file : ClassFile) : ClassFile.ReplacedBy [] file file where
  name := rfl
  interfaces := by simp
  fields := by simp [replacedDescriptor]
  methods := List.forall₂_same.mpr fun method _ => .refl file.pool method
  classes _ _ h := h
  types _ _ _ h := h
  calls := by simp
  others _ _ _ _ h _ _ := h
  through _ _ _ _ := rfl

include hindependent in
/-- **Replacing one more interface in a class.** -/
theorem ClassFile.ReplacedBy.step {file between after : ClassFile}
    (h : ClassFile.ReplacedBy replacements file between)
    (hsmall : ∀ method ∈ file.methods, ∀ code ∈ method.code, code.size < 2 ^ 30)
    (hchanges : replacement.ChangesClass between after) :
    ClassFile.ReplacedBy (replacements ++ [replacement]) file after := by
  obtain ⟨hsource, htarget⟩ := hindependent.names_last
  obtain ⟨references, hconstants, hmethods⟩ := hchanges.members
  have hthrough (index : UInt16) := h.through replacement.source hsource
    (fun other => hindependent.source_ne) index
  have hcalls (index : UInt16) : references.contains index =
      file.pool.callsThrough [replacement.source] index := by
    rw [← hthrough, Bool.eq_iff_iff, List.contains_iff_mem]
    exact hconstants.calls index
  refine ⟨hchanges.name.trans h.name, ?_, ?_, ?_, fun index name hname => ?_,
    fun index name descriptor hread => ?_, fun other hother index owner nameAndType hget hname => ?_,
    fun index owner nameAndType name hget hname hne => ?_, fun name hname hne index => ?_⟩
  · rw [hchanges.interfaces, h.interfaces, List.filter_filter]
    refine List.filter_congr fun name _ => ?_
    rw [Bool.eq_iff_iff]
    simp [and_comm]
  · rw [hchanges.fields, h.fields, List.map_map]
    simp [replacedDescriptor_append, Function.comp_def]
  · exact forall₂_comp (fun method _ _ hfirst hlast => hfirst.2.step hcalls hfirst.1 hlast)
      ((List.forall₂_and_left _ _).mpr ⟨hsmall, h.methods⟩) hmethods
  · rw [replacedClassName_append]
    exact hconstants.className (h.classes index name hname)
  · rw [replacedDescriptor_append]
    exact hconstants.nameAndType (h.types index name descriptor hread)
  · rcases List.mem_append.mp hother with hold | hlast
    · obtain ⟨hmethod, howner⟩ := h.calls other hold index owner nameAndType hget hname
      refine ⟨hconstants.get_methodref hmethod, ?_⟩
      rw [hconstants.className howner, Replacement.className_of_ne (hindependent.names other hother).2
        (hindependent.apart other hother replacement (by simp))]
    · obtain rfl := List.mem_singleton.mp hlast
      have hown : ∀ earlier ∈ replacements, other.source ≠ earlier.source :=
        fun earlier hearlier => (hindependent.source_ne hearlier).1
      refine ⟨hconstants.get_of_callsThrough (h.others _ _ _ _ hget hname hown) ?_, ?_⟩
      · rw [hthrough, ConstantPool.callsThrough_iff]
        exact ⟨owner, nameAndType, _, hget, hname, by simp⟩
      · have howner := h.classes owner _ hname
        rw [replacedClassName_of_ne hsource hown] at howner
        rw [hconstants.className howner]
        simp [Replacement.className, Replacement.className?]
  · have hlast : name ≠ replacement.source := hne replacement (by simp)
    refine hconstants.get_of_not_callsThrough (h.others _ _ _ _ hget hname fun earlier hearlier =>
      hne earlier (List.mem_append_left _ hearlier)) ?_
    rw [hthrough, ← Bool.not_eq_true, ConstantPool.callsThrough_iff]
    rintro ⟨owner', nameAndType', name', hget', hname', hmem⟩
    cases hget.symm.trans hget'
    cases hname.symm.trans hname'
    exact hlast (List.mem_singleton.mp hmem)
  · have hlast := hne replacement (by simp)
    rw [hconstants.callsThrough_eq htarget (by simpa using ⟨hname, hlast⟩), h.through name hname
      fun earlier hearlier => hne earlier (List.mem_append_left _ hearlier)]

end Step

/-! ## All classes -/

/-- The classes of the program after a merge: those before, without the interface. -/
theorem Replacement.programClasses_of_merge {replacement : Replacement} {pool after : ClassPool}
    (h : replacement.merge.apply pool = (.ok (), after)) :
    List.Forall₂ (fun file changed => replacement.changeClass.apply file = (.ok (), changed))
      (pool.programClasses.filter (·.name != replacement.source)) after.programClasses := by
  obtain ⟨classes, hclasses, rfl⟩ := merge_eq_ok h
  rw [ClassPool.programClasses, ClassPool.programClasses, ClassPool.remove, List.filter_filter,
    List.filter_filter]
  have hsame : List.Forall₂ replacement.MergesTo
      (pool.classes.filter fun file => file.name != replacement.source && !file.isLibrary)
      (classes.filter fun file => !file.isLibrary && file.name != replacement.source) := by
    refine List.rel_filter (fun file changed hmerges => ?_) hclasses
    simp only [hmerges.name_eq, hmerges.isLibrary_eq, Bool.and_comm]
  refine ((List.forall₂_and_left _ _).mpr ⟨fun file hfile => hfile, hsame⟩).imp ?_
  rintro file changed ⟨hmem, ⟨-, hrun⟩ | ⟨hnot, -⟩⟩
  · exact hrun
  · have hconcerns := (List.mem_filter.mp hmem).2
    simp only [Bool.and_eq_true, bne_iff_ne, Bool.not_eq_true'] at hconcerns
    exact absurd ⟨hconcerns.2, hconcerns.1⟩ hnot

/-- The classes of the program that are not replaced. -/
def ClassPool.remaining (pool : ClassPool) (replacements : List Replacement) : List ClassFile :=
  pool.programClasses.filter fun file => !(replacements.map (·.source)).contains file.name

theorem ClassPool.remaining_nil (pool : ClassPool) : pool.remaining [] = pool.programClasses := by
  simp [remaining]

theorem ClassPool.remaining_append (pool : ClassPool) (replacements : List Replacement)
    (replacement : Replacement) : pool.remaining (replacements ++ [replacement]) =
      (pool.remaining replacements).filter (·.name != replacement.source) := by
  rw [remaining, remaining, List.filter_filter]
  refine List.filter_congr fun file _ => ?_
  rw [Bool.eq_iff_iff]
  simp [and_comm]

/-- **Merging one interface after another** replaces all of them in the classes that stay. -/
theorem Replacement.replacedBy_of_forM {replacements : List Replacement} {pool merged : ClassPool}
    (hindependent : Independent replacements)
    (hfree : ∀ file ∈ pool.programClasses, file.FreeOf [])
    (hsmall : ∀ file ∈ pool.programClasses, ∀ method ∈ file.methods, ∀ code ∈ method.code,
      code.size < 2 ^ 30)
    (h : (replacements.forM (·.merge)).apply pool = (.ok (), merged)) :
    List.Forall₂ (fun file after => ClassFile.ReplacedBy replacements file after ∧
      after.FreeOf replacements) (pool.remaining replacements) merged.programClasses := by
  induction replacements using List.reverseRecOn generalizing merged with
  | nil =>
    cases h
    rw [ClassPool.remaining_nil, List.forall₂_same]
    exact fun file hfile => ⟨.refl file, hfree file hfile⟩
  | append_singleton replacements replacement ih =>
    obtain ⟨middle, hfirst, hlast⟩ := Change.forM_append_eq_ok h
    obtain ⟨_, _, hmerge, hdone⟩ := Change.apply_bind_eq_ok hlast
    cases hdone
    have hstay : List.Forall₂ (fun file between => ClassFile.ReplacedBy replacements file between ∧
        between.FreeOf replacements) (pool.remaining (replacements ++ [replacement]))
        (middle.programClasses.filter (·.name != replacement.source)) := by
      rw [ClassPool.remaining_append]
      refine List.rel_filter (fun file between hboth => ?_) (ih hindependent.init hfirst)
      simp only [hboth.1.name]
    have hbodies : ∀ file ∈ pool.remaining (replacements ++ [replacement]),
        ∀ method ∈ file.methods, ∀ code ∈ method.code, code.size < 2 ^ 30 :=
      fun file hfile => hsmall file (List.mem_filter.mp hfile).1
    refine forall₂_comp (fun file between after hboth hrun => ?_)
      ((List.forall₂_and_left _ _).mpr ⟨hbodies, hstay⟩) (programClasses_of_merge hmerge)
    obtain ⟨hsmall, hreplaced, hfree⟩ := hboth
    have hchanges := changesClass_of_apply hrun hfree.length
    exact ⟨hreplaced.step hindependent hsmall hchanges, hfree.step hindependent hchanges⟩

/-! ## The candidates -/

/-- A concrete class that is known is a class of the program, and no interface. -/
theorem exists_of_isConcreteLeaf {pool : ClassPool} {name : String}
    (h : (Hierarchy.ofPool pool).isConcreteLeaf name = true) :
    ∃ file ∈ pool.programClasses, file.name = name ∧ file.isInterface = false := by
  simp only [Hierarchy.isConcreteLeaf, Bool.and_eq_true, Option.any_eq_true,
    Bool.not_eq_true'] at h
  obtain ⟨⟨info, hinfo, ⟨hlibrary, hinterface⟩, -⟩, -⟩ := h
  have hmem := List.mem_of_find?_eq_some hinfo
  obtain ⟨file, hfile, rfl⟩ := List.mem_map.mp hmem
  have hname : (ClassInfo.ofClass file).name = name := by
    simpa using List.find?_some hinfo
  have hprogram : file.isLibrary = false := hlibrary
  exact ⟨file, List.mem_filter.mpr ⟨hfile, by simp [hprogram]⟩, hname, hinterface⟩

/-- **The interfaces that can be merged do not get in each other's way.** -/
theorem independent_mergeCandidates {pool : ClassPool} {keep : KeepSet}
    (hnodup : (pool.classes.map (·.name)).Nodup)
    (hnames : ∀ replacement ∈ mergeCandidates pool (.ofPool pool) keep,
      IsClassName replacement.source ∧ IsClassName replacement.target) :
    Replacement.Independent (mergeCandidates pool (.ofPool pool) keep) where
  nodup := by
    refine List.pairwise_map.mpr (List.pairwise_filterMap.mpr ?_)
    have hprogram : pool.programClasses.Pairwise fun a b => a.name ≠ b.name :=
      (List.pairwise_map.mp hnodup).filter _
    refine hprogram.imp_of_mem fun {a b} ha hb hne first hfirst second hsecond => ?_
    rw [← (Replacement.suits_of_mergeCandidate? ha hfirst).source,
      ← (Replacement.suits_of_mergeCandidate? hb hsecond).source]
    exact hne
  apart first hfirst second hsecond heq := by
    obtain ⟨_, hsuits⟩ := Replacement.exists_suits hfirst
    obtain ⟨file, hfile, hname, hclass⟩ := exists_of_isConcreteLeaf hsuits.concrete
    obtain ⟨interface, hinterface⟩ := Replacement.exists_suits hsecond
    have hsame : file = interface := by
      refine List.inj_on_of_nodup_map hnodup (List.mem_filter.mp hfile).1
        (List.mem_filter.mp hinterface.mem).1 ?_
      rw [hname, heq, hinterface.source]
    have hbare := hinterface.bare
    rw [← hsame, ClassFile.isBareInterface, hclass] at hbare
    cases hbare
  names := hnames

/-- **Merging interfaces leaves no mention of them.** The interfaces are gone, no class mentions them,
every descriptor can be read, and the classes that stay are what they were with one interface after
another replaced: references to methods of an interface are, at the same index, references to methods
of the class in its place, calls by these references are ordinary calls by the same index, and every
other instruction is the same but for the width and the distance of jumps. -/
theorem mergeInterfaces_leaves_no_mention {pool merged : ClassPool} {keep : KeepSet} {count : Nat}
    (hnodup : (pool.classes.map (·.name)).Nodup)
    (hnames : ∀ replacement ∈ mergeCandidates pool (.ofPool pool) keep,
      IsClassName replacement.source ∧ IsClassName replacement.target)
    (hbuilt : ∀ file ∈ pool.programClasses, file.pool.Built)
    (hdescribed : ∀ file ∈ pool.programClasses, file.WellDescribed)
    (hsmall : ∀ file ∈ pool.programClasses, ∀ method ∈ file.methods, ∀ code ∈ method.code,
      code.size < 2 ^ 30)
    (hrun : (mergeInterfaces (.ofPool pool) keep).apply pool = (.ok count, merged)) :
    let candidates := mergeCandidates pool (.ofPool pool) keep
    (∀ replacement ∈ candidates, merged.get? replacement.source = none) ∧
      (∀ file ∈ merged.programClasses, file.WellDescribed ∧
        ∀ replacement ∈ candidates, ¬ file.Mentions replacement.source) ∧
      List.Forall₂ (ClassFile.ReplacedBy candidates) (pool.remaining candidates)
        merged.programClasses := by
  intro candidates
  have hmerges := mergeInterfaces_eq_ok hrun
  have hall := Replacement.replacedBy_of_forM (independent_mergeCandidates hnodup hnames)
    (fun file hfile => ⟨(hbuilt file hfile).length_le, hdescribed file hfile, by simp⟩) hsmall hmerges
  refine ⟨fun replacement => Replacement.get?_of_forM_merge hmerges, fun file hfile => ?_,
    hall.imp fun _ _ hboth => hboth.1⟩
  obtain ⟨_, -, -, hfree⟩ := exists_mem_of_forall₂ hall.flip hfile
  exact ⟨hfree.described, hfree.unmentioned⟩

/-- A client that holds shapes and asks one for its area, with the only shape there is. -/
def shapes : ClassPool :=
  let constants := ((ConstantPool.memberRefIndex
    ⟨"a/Shape", "area", "()I", .interfaceMethod⟩).apply .empty).2
  ⟨[{ name := "a/Shape", superName := some "java/lang/Object", interfaces := [], access := 0x601
      pool := .empty, fields := [], methods := [⟨0x401, "area", "()I", none⟩], isLibrary := false },
    { name := "a/Square", superName := some "java/lang/Object", interfaces := ["a/Shape"]
      access := 0x1, pool := .empty, fields := [], methods := [⟨0x101, "area", "()I", none⟩]
      isLibrary := false },
    { name := "a/Client", superName := some "java/lang/Object", interfaces := [], access := 0x1
      pool := constants, fields := [⟨0x2, "shapes", "[La/Shape;", none⟩]
      methods := [⟨0x9, "measure", "(La/Shape;)I",
        some ⟨1, 1, [0x2a, 0xb9, 0x00, 0x06, 0x01, 0x00, 0xac], [], [], []⟩⟩]
      isLibrary := false }]⟩

/-- The client asks the square for its area afterwards. -/
theorem mergeInterfaces_leaves_no_mention_shapes :
    mergeCandidates shapes (.ofPool shapes) .empty = [⟨"a/Shape", "a/Square"⟩] ∧
      ∃ merged, (mergeInterfaces (.ofPool shapes) .empty).apply shapes = (.ok 1, merged) ∧
        merged.get? "a/Shape" = none ∧
        (∀ file ∈ merged.programClasses, file.WellDescribed ∧ ¬ file.Mentions "a/Shape") ∧
        List.Forall₂ (ClassFile.ReplacedBy [⟨"a/Shape", "a/Square"⟩])
          (shapes.remaining [⟨"a/Shape", "a/Square"⟩]) merged.programClasses := by
  obtain ⟨hnodup, hcandidates, hdescribed, hsmall, hrun⟩ : (shapes.classes.map (·.name)).Nodup ∧
      mergeCandidates shapes (.ofPool shapes) .empty = [⟨"a/Shape", "a/Square"⟩] ∧
      (∀ file ∈ shapes.programClasses, file.WellDescribed) ∧
      (∀ file ∈ shapes.programClasses, ∀ method ∈ file.methods, ∀ code ∈ method.code,
        code.size < 2 ^ 30) ∧
      ((mergeInterfaces (.ofPool shapes) .empty).apply shapes).1.toOption = some 1 := by
    decide +kernel
  have hnames : ∀ replacement ∈ mergeCandidates shapes (.ofPool shapes) .empty,
      IsClassName replacement.source ∧ IsClassName replacement.target := by
    rw [hcandidates]
    decide
  have hbuilt : ∀ file ∈ shapes.programClasses, file.pool.Built := by
    intro file hfile
    have hfile : file ∈ shapes.classes := (List.mem_filter.mp hfile).1
    simp only [shapes, List.mem_cons, List.not_mem_nil, or_false] at hfile
    obtain rfl | rfl | rfl := hfile
    · exact .empty
    · exact .empty
    · exact .memberRefIndex .empty _
  generalize hmerged : (mergeInterfaces (.ofPool shapes) .empty).apply shapes = answer at hrun
  obtain ⟨failure | count, merged⟩ := answer
  · cases hrun
  · cases hrun
    have hall := mergeInterfaces_leaves_no_mention hnodup hnames hbuilt hdescribed hsmall hmerged
    simp only [hcandidates, List.forall_mem_singleton] at hall
    exact ⟨hcandidates, merged, rfl, hall.1, hall.2.1, hall.2.2⟩

/-- An interface whose only implementation has a name that ends in the name of the interface, behind
what looks like the end of another name in a descriptor. -/
def awkwardName : ClassPool :=
  ⟨[{ name := "a/I", superName := some "java/lang/Object", interfaces := [], access := 0x601
      pool := .empty, fields := [], methods := [], isLibrary := false },
    { name := "x;La/I", superName := some "java/lang/Object", interfaces := ["a/I"]
      access := 0x1, pool := .empty, fields := [], methods := [⟨0x101, "m", "(La/I;)V", none⟩]
      isLibrary := false }]⟩

/-- **A name that cannot be written in a descriptor brings the interface back**: where the class takes
the place of the interface, the descriptor reads as one with two parameters, the second of them the
interface. -/
theorem mergeInterfaces_mentions : (awkwardName.classes.map (·.name)).Nodup ∧
    (∀ file ∈ awkwardName.programClasses, file.pool = .empty ∧ file.WellDescribed) ∧
    ⟨"a/I", "x;La/I"⟩ ∈ mergeCandidates awkwardName (.ofPool awkwardName) .empty ∧
    ∃ count merged, (mergeInterfaces (.ofPool awkwardName) .empty).apply awkwardName =
        (.ok count, merged) ∧ ∃ file ∈ merged.programClasses, file.Mentions "a/I" := by
  obtain ⟨hnodup, hdescribed, hcandidates, hok, hmentions⟩ :
      (awkwardName.classes.map (·.name)).Nodup ∧
      (∀ file ∈ awkwardName.programClasses, file.pool = .empty ∧ file.WellDescribed) ∧
      ⟨"a/I", "x;La/I"⟩ ∈ mergeCandidates awkwardName (.ofPool awkwardName) .empty ∧
      ((mergeInterfaces (.ofPool awkwardName) .empty).apply awkwardName).1.isOk = true ∧
      ∃ file ∈ ((mergeInterfaces (.ofPool awkwardName) .empty).apply awkwardName).2.programClasses,
        ∃ method ∈ file.methods, "a/I" ∈ descriptorNames method.descriptor := by
    decide +kernel
  obtain ⟨count, hcount⟩ := Except.exists_ok hok
  obtain ⟨file, hfile, method, hmethod, hmem⟩ := hmentions
  exact ⟨hnodup, hdescribed, hcandidates, count, _, Prod.ext hcount rfl, file, hfile,
    .method hmethod hmem⟩

end JvmTrim
