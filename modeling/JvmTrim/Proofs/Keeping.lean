import JvmTrim.Optimizer
import JvmTrim.Proofs.Outcome

/-!
# What stays of a program

Every step of an optimization leaves what has to stay alone, each for a reason of its own. Merging an
interface renames it in descriptors, but an interface that a member which has to stay mentions is no
candidate. Classes become final and methods private only if they need not stay. Simplifying bodies
changes bodies and constants. None of the steps removes a class but the merging of interfaces, and
that one asks whether the interface itself has to stay, not whether one of its methods has to: an
interface goes together with methods that were to stay.

A change keeps what it did before it failed, so the steps are followed through by properties of the
state that hold whether or not a step succeeds.

## Main definitions

* `Change.Maintains`: a property of the state that survives a change, failed or not
* `ClassFile.KeptIn`: what has to stay of a class is found in another form of it
* `Optimizer.merges`: whether an interface is merged away

## Main results

* `Optimizer.optimize_keeps`: a class that is not merged away stays with everything of it that has to,
  and a class that has to stay itself is never merged away
* `Optimizer.optimize_drops_kept_method`: an interface is merged away although its method has to stay
-/

namespace JvmTrim

/-! ## Changes -/

namespace Change

variable {γ σ α β : Type}

/-- A property of the state survives a change, whether or not the change succeeds. -/
def Maintains (P : σ → Prop) (change : Change σ α) : Prop :=
  ∀ state, P state → P (change.apply state).2

theorem apply_ofEffect (effect : σ → Except Failure α × σ) (state : σ) :
    (ofEffect effect).apply state = effect state := rfl

theorem apply_bind (x : Change σ α) (f : α → Change σ β) (state : σ) :
    (x >>= f).apply state =
      match x.apply state with
      | (.ok a, middle) => (f a).apply middle
      | (.error failure, middle) => (.error failure, middle) := by
  unfold apply
  rw [ExceptT.run_bind, StateT.run_bind]
  rcases (ExceptT.run x).run state with ⟨failure | a, middle⟩
  · rfl
  · rfl

theorem apply_bind_eq_ok {x : Change σ α} {f : α → Change σ β} {state after : σ} {b : β}
    (h : (x >>= f).apply state = (.ok b, after)) :
    ∃ a middle, x.apply state = (.ok a, middle) ∧ (f a).apply middle = (.ok b, after) := by
  rw [apply_bind] at h
  split at h
  · rename_i a middle hx
    exact ⟨a, middle, hx, h⟩
  · cases h

variable {P : σ → Prop}

theorem maintains_bind {x : Change σ α} {f : α → Change σ β} (hx : x.Maintains P)
    (hf : ∀ a, (f a).Maintains P) : (x >>= f).Maintains P := by
  intro state h
  have hmiddle := hx state h
  rw [apply_bind]
  split
  · rename_i a middle heq
    rw [heq] at hmiddle
    exact hf a middle hmiddle
  · rename_i failure middle heq
    rw [heq] at hmiddle
    exact hmiddle

theorem maintains_pure (a : α) : (pure a : Change σ α).Maintains P := fun _ h => h

theorem maintains_modify {f : σ → σ} (hf : ∀ state, P state → P (f state)) :
    (modify f : Change σ Unit).Maintains P := hf

theorem maintains_ofEffect {effect : σ → Except Failure α × σ}
    (h : ∀ state, P state → P (effect state).2) : (ofEffect effect).Maintains P := h

theorem maintains_forM {members : List β} {f : β → Change σ Unit}
    (h : ∀ member ∈ members, (f member).Maintains P) : (members.forM f).Maintains P := by
  induction members with
  | nil => exact maintains_pure ()
  | cons head tail ih =>
    exact maintains_bind (h head List.mem_cons_self) fun _ =>
      ih fun member hmem => h member (List.mem_cons_of_mem _ hmem)

/-- A relation that every member of a list has to what it is changed to. -/
theorem forall₂_eachOf {R : σ → σ → Prop} {change : Change (γ × σ) Unit} (hrefl : ∀ s, R s s)
    (h : ∀ shared s, R s (change.apply (shared, s)).2.2) (shared : γ) (members : List σ) :
    List.Forall₂ R members (eachOf change shared members).2.2 := by
  induction members generalizing shared with
  | nil => exact .nil
  | cons head tail ih =>
    have hhead := h shared head
    rw [eachOf]
    split
    · rename_i heq
      rw [heq] at hhead
      exact .cons hhead (List.forall₂_same.2 fun s _ => hrefl s)
    · rename_i middle _ heq
      rw [heq] at hhead
      exact .cons hhead (ih middle)

end Change

/-! ## Classes -/

/-- What has to stay of a class is found in another form of it: the property flags if the class has
to stay, and the methods and fields that have to. -/
structure ClassFile.KeptIn (keep : KeepSet) (before after : ClassFile) : Prop where
  name : after.name = before.name
  isLibrary : after.isLibrary = before.isLibrary
  access : keep.keepsClass before.name = true → after.access = before.access
  methods : ∀ method ∈ (ClassInfo.ofClass before).methods,
    keep.keepsMember ⟨before.name, method.name, method.descriptor⟩ = true →
      method ∈ (ClassInfo.ofClass after).methods
  fields : ∀ field ∈ (ClassInfo.ofClass before).fields,
    keep.keepsMember ⟨before.name, field.name, field.descriptor⟩ = true →
      field ∈ (ClassInfo.ofClass after).fields

namespace ClassFile

variable {keep : KeepSet} {before file after : ClassFile}

theorem KeptIn.refl (keep : KeepSet) (file : ClassFile) : file.KeptIn keep file :=
  ⟨rfl, rfl, fun _ => rfl, fun _ hmem _ => hmem, fun _ hmem _ => hmem⟩

theorem KeptIn.trans (h : before.KeptIn keep file) (h' : file.KeptIn keep after) :
    before.KeptIn keep after where
  name := h'.name.trans h.name
  isLibrary := h'.isLibrary.trans h.isLibrary
  access hkeep := (h'.access (h.name ▸ hkeep)).trans (h.access hkeep)
  methods method hmem hkeep :=
    h'.methods method (h.methods method hmem hkeep) (h.name ▸ hkeep)
  fields field hmem hkeep := h'.fields field (h.fields field hmem hkeep) (h.name ▸ hkeep)

/-- A class that is changed in its bodies, its constants and its supertypes only. -/
theorem KeptIn.of_eq (hname : after.name = file.name) (hlibrary : after.isLibrary = file.isLibrary)
    (haccess : after.access = file.access)
    (hmethods : (ClassInfo.ofClass after).methods = (ClassInfo.ofClass file).methods)
    (hfields : after.fields = file.fields) : file.KeptIn keep after where
  name := hname
  isLibrary := hlibrary
  access _ := haccess
  methods method hmem _ := hmethods ▸ hmem
  fields field hmem _ := by
    simp only [ClassInfo.ofClass, hfields] at hmem ⊢
    exact hmem

end ClassFile

namespace ClassPool

variable {R : ClassFile → ClassFile → Prop} {classes changed : List ClassFile} {name : String}

/-- In two lists of classes that agree in their names, look-ups find classes in the same place. -/
theorem get?_of_forall₂ (h : List.Forall₂ R classes changed)
    (hname : ∀ file after, R file after → after.name = file.name) {file : ClassFile}
    (hfile : (mk classes).get? name = some file) :
    ∃ after, (mk changed).get? name = some after ∧ R file after := by
  simp only [get?] at hfile ⊢
  induction h with
  | nil => cases hfile
  | @cons head head' _ _ hhead _ ih =>
    rw [List.find?_cons] at hfile ⊢
    rw [hname head head' hhead]
    split at hfile
    · cases hfile
      exact ⟨head', rfl, hhead⟩
    · exact ih hfile

theorem get?_eq_none_of_forall₂ (h : List.Forall₂ R classes changed)
    (hname : ∀ file after, R file after → after.name = file.name)
    (hnone : (mk classes).get? name = none) : (mk changed).get? name = none := by
  simp only [get?] at hnone ⊢
  induction h with
  | nil => rfl
  | @cons head head' _ _ hhead _ ih =>
    rw [List.find?_cons] at hnone ⊢
    rw [hname head head' hhead]
    split at hnone
    · cases hnone
    · exact ih hnone

theorem get?_remove_of_ne {pool : ClassPool} {name other : String} (hne : name ≠ other) :
    (pool.remove other).get? name = pool.get? name := by
  simp only [remove, get?, List.find?_filter]
  congr 1
  funext file
  by_cases hname : file.name = name
  · simp [hname, hne]
  · simp [hname]

theorem get?_remove_self (pool : ClassPool) (name : String) :
    (pool.remove name).get? name = none := by
  simp [remove, get?, List.find?_eq_none]

/-- Every class of a program that is not dropped is found again, with what has to stay of it. -/
def KeptIn (keep : KeepSet) (dropped : String → Prop) (before after : ClassPool) : Prop :=
  ∀ name file, before.get? name = some file → ¬ dropped name →
    ∃ changed, after.get? name = some changed ∧ file.KeptIn keep changed

end ClassPool

/-- A step that keeps the classes of a program in their places, each with what has to stay of it. -/
def Change.KeepsClasses {α : Type} (keep : KeepSet) (change : Change ClassPool α) : Prop :=
  ∀ pool, List.Forall₂ (ClassFile.KeptIn keep) pool.classes (change.apply pool).2.classes

/-! ## Merging interfaces -/

/-- No member of a class that has to stay mentions an interface. -/
def ClassFile.Spares (keep : KeepSet) (source : String) (file : ClassFile) : Prop :=
  ∀ member ∈ (ClassInfo.ofClass file).methods ++ (ClassInfo.ofClass file).fields,
    keep.keepsMember ⟨file.name, member.name, member.descriptor⟩ = true →
      mentionsClass member.descriptor source = false

namespace Replacement

variable {keep : KeepSet} {replacement : Replacement}

theorem descriptor_of_not_mentions {text : String}
    (h : mentionsClass text replacement.source = false) : replacement.descriptor text = text := by
  simp [descriptor, descriptor?, retargetDescriptor?, h]

/-- Replacing an interface in a method changes its body and its descriptor. -/
theorem changeMethod_eq (references : List UInt16) (pool : ConstantPool) (method : Method) :
    ∃ code, ((replacement.changeMethod references).apply (pool, method)).2.2 =
      { method with code, descriptor := replacement.descriptor method.descriptor } := by
  obtain ⟨access, name, descriptor, code⟩ := method
  cases code with
  | none => exact ⟨none, rfl⟩
  | some code => exact ⟨_, rfl⟩

/-- A method keeps its name and its flags, and a descriptor that does not mention the interface. -/
def RenamesMethod (replacement : Replacement) (method changed : Method) : Prop :=
  changed.name = method.name ∧ changed.access = method.access ∧
    (mentionsClass method.descriptor replacement.source = false →
      changed.descriptor = method.descriptor)

theorem renamesMethod_changeMethod (references : List UInt16) (pool : ConstantPool)
    (method : Method) : replacement.RenamesMethod method
      ((replacement.changeMethod references).apply (pool, method)).2.2 := by
  obtain ⟨code, heq⟩ := replacement.changeMethod_eq references pool method
  rw [heq]
  exact ⟨rfl, rfl, descriptor_of_not_mentions⟩

/-- Replacing an interface in a class leaves alone what has to stay, if that does not mention it. -/
theorem changeClass_maintains {before : ClassFile} (h : before.Spares keep replacement.source) :
    replacement.changeClass.Maintains (before.KeptIn keep) := by
  refine Change.maintains_bind (Change.maintains_modify fun file hkept =>
    hkept.trans (.of_eq rfl rfl rfl rfl rfl)) fun _ => ?_
  refine Change.maintains_bind (Change.maintains_ofEffect fun file hkept =>
    hkept.trans (.of_eq rfl rfl rfl rfl rfl)) fun references => ?_
  refine Change.maintains_bind (Change.maintains_modify fun file hkept => ?_) fun _ => ?_
  · refine ⟨hkept.name, hkept.isLibrary, hkept.access, hkept.methods, fun field hmem hkeep => ?_⟩
    have hspared := h field (List.mem_append_right _ hmem) hkeep
    obtain ⟨declared, hdeclared, rfl⟩ := List.mem_map.1 (hkept.fields field hmem hkeep)
    refine List.mem_map.2 ⟨_, List.mem_map_of_mem hdeclared, ?_⟩
    simp only [descriptor_of_not_mentions hspared]
  · refine Change.maintains_ofEffect fun file hkept => ?_
    refine ⟨hkept.name, hkept.isLibrary, hkept.access, fun method hmem hkeep => ?_, hkept.fields⟩
    have hspared := h method (List.mem_append_left _ hmem) hkeep
    obtain ⟨declared, hdeclared, rfl⟩ := List.mem_map.1 (hkept.methods method hmem hkeep)
    have hrefl : ∀ m, replacement.RenamesMethod m m := fun _ => ⟨rfl, rfl, fun _ => rfl⟩
    have heach := Change.forall₂_eachOf hrefl (renamesMethod_changeMethod references) file.pool
      file.methods
    obtain ⟨changed, hchanged, hname, haccess, hdescriptor⟩ :=
      exists_mem_of_forall₂ heach hdeclared
    refine List.mem_map.2 ⟨changed, hchanged, ?_⟩
    rw [hname, haccess, hdescriptor hspared]

/-- What merging an interface does to a class: what has to stay of it stays, if the class is a
library class or nothing of it that has to stay mentions the interface. -/
def Renames (keep : KeepSet) (replacement : Replacement) (file after : ClassFile) : Prop :=
  after.name = file.name ∧ ∀ before : ClassFile, before.KeptIn keep file →
    before.isLibrary = true ∨ before.Spares keep replacement.source → before.KeptIn keep after

theorem Renames.refl (file : ClassFile) : Renames keep replacement file file :=
  ⟨rfl, fun _ hkept _ => hkept⟩

theorem name_changeClass (file : ClassFile) :
    (replacement.changeClass.apply file).2.name = file.name := by
  have hspares : file.Spares KeepSet.empty replacement.source := by
    intro member _ hkeep
    cases hkeep
  exact (changeClass_maintains hspares file (.refl _ file)).name

theorem renames_changeClass {file : ClassFile} (hlibrary : file.isLibrary = false) :
    Renames keep replacement file (replacement.changeClass.apply file).2 := by
  refine ⟨name_changeClass file, fun before hkept hbefore => ?_⟩
  have hspares := hbefore.resolve_left (by rw [← hkept.isLibrary, hlibrary]; nofun)
  exact changeClass_maintains hspares file hkept

theorem renames_changeOther (shared : Unit) (file : ClassFile) :
    Renames keep replacement file (replacement.changeOther.apply (shared, file)).2.2 := by
  change Renames keep replacement file (if !file.isLibrary && file.name != replacement.source then
    ((replacement.changeClass.apply file).1, shared, (replacement.changeClass.apply file).2)
    else (.ok (), shared, file)).2.2
  split
  · rename_i hcond
    have hlibrary : file.isLibrary = false := by simp_all
    exact renames_changeClass hlibrary
  · exact .refl file

/-- Merging an interface renames it in every class and then removes it. -/
theorem merge_eq (keep : KeepSet) (replacement : Replacement) (pool : ClassPool) :
    ∃ classes, List.Forall₂ (Renames keep replacement) pool.classes classes ∧
      (replacement.merge.apply pool = (.ok (), (ClassPool.mk classes).remove replacement.source) ∨
        ∃ failure, replacement.merge.apply pool = (.error failure, ⟨classes⟩)) := by
  refine ⟨_, Change.forall₂_eachOf Renames.refl renames_changeOther () pool.classes, ?_⟩
  have hmerge : replacement.merge.apply pool =
      match Change.eachOf replacement.changeOther () pool.classes with
      | (.ok (), _, classes) => (.ok (), (ClassPool.mk classes).remove replacement.source)
      | (.error failure, _, classes) => (.error failure, ⟨classes⟩) := by
    rw [merge, Change.apply_bind]
    simp only [Change.ofEffect, Change.apply, ExceptT.run, ExceptT.mk, StateT.run]
    rcases Change.eachOf replacement.changeOther () pool.classes with ⟨failure | ⟨⟩, _, classes⟩
    · rfl
    · rfl
  rw [hmerge]
  rcases Change.eachOf replacement.changeOther () pool.classes with ⟨failure | ⟨⟩, _, classes⟩
  · exact .inr ⟨failure, rfl⟩
  · exact .inl rfl

theorem merge_maintains_keptIn {dropped : String → Prop} {before : ClassPool}
    (hspares : ∀ name file, before.get? name = some file →
      file.isLibrary = true ∨ file.Spares keep replacement.source)
    (hdropped : dropped replacement.source) :
    replacement.merge.Maintains (before.KeptIn keep dropped) := by
  intro pool hkept name file hfile hstays
  obtain ⟨changed, hchanged, hk⟩ := hkept name file hfile hstays
  obtain ⟨classes, hforall, hmerge⟩ := merge_eq keep replacement pool
  obtain ⟨after, hafter, hrenames⟩ :=
    ClassPool.get?_of_forall₂ hforall (fun _ _ h => h.1) hchanged
  have hkeep := hrenames.2 file hk (hspares name file hfile)
  obtain hmerge | ⟨_, hmerge⟩ := hmerge
  · have hne : name ≠ replacement.source := by
      rintro rfl
      exact hstays hdropped
    rw [hmerge]
    exact ⟨after, (ClassPool.get?_remove_of_ne hne).trans hafter, hkeep⟩
  · rw [hmerge]
    exact ⟨after, hafter, hkeep⟩

/-- Merging an interface brings no class back. -/
theorem merge_maintains_absent (name : String) :
    replacement.merge.Maintains (fun pool => pool.get? name = none) := by
  intro pool hnone
  obtain ⟨classes, hforall, hmerge⟩ := merge_eq KeepSet.empty replacement pool
  have habsent := ClassPool.get?_eq_none_of_forall₂ hforall (fun _ _ h => h.1) hnone
  obtain hmerge | ⟨_, hmerge⟩ := hmerge
  · rw [hmerge]
    by_cases hname : name = replacement.source
    · rw [hname]
      exact ClassPool.get?_remove_self _ _
    · exact (ClassPool.get?_remove_of_ne hname).trans habsent
  · rw [hmerge]
    exact habsent

theorem get?_of_merge {pool after : ClassPool} (h : replacement.merge.apply pool = (.ok (), after)) :
    after.get? replacement.source = none := by
  obtain ⟨classes, -, hmerge | ⟨_, hmerge⟩⟩ := merge_eq KeepSet.empty replacement pool
  · rw [hmerge] at h
    cases h
    exact ClassPool.get?_remove_self _ _
  · rw [hmerge] at h
    cases h

/-- Merging one interface after another removes all of them. -/
theorem get?_of_forM_merge {replacements : List Replacement} {pool after : ClassPool}
    (h : (replacements.forM (·.merge)).apply pool = (.ok (), after))
    (hmem : replacement ∈ replacements) : after.get? replacement.source = none := by
  induction replacements generalizing pool with
  | nil => cases hmem
  | cons head tail ih =>
    obtain ⟨_, middle, hhead, hrest⟩ := Change.apply_bind_eq_ok h
    obtain rfl | hmem := List.mem_cons.1 hmem
    · have htail : (tail.forM (·.merge)).Maintains
          (fun pool => pool.get? replacement.source = none) :=
        Change.maintains_forM fun _ _ => merge_maintains_absent replacement.source
      have habsent := htail middle (get?_of_merge hhead)
      rw [hrest] at habsent
      exact habsent
    · exact ih hrest hmem

theorem mem_mergeCandidates {pool : ClassPool} {hierarchy : Hierarchy}
    (h : replacement ∈ mergeCandidates pool hierarchy keep) :
    keep.keepsClass replacement.source = false ∧
      pool.isKeptInSignature keep replacement.source = false := by
  obtain ⟨file, -, h⟩ := List.mem_filterMap.1 h
  rw [mergeCandidate?] at h
  split at h
  · cases h
  · rename_i hstays
    split at h
    · dsimp only at h
      split at h
      · cases h
      · rename_i hcan
        cases h
        simp only [Bool.or_eq_true, not_or, Bool.not_eq_true] at hstays hcan
        exact ⟨hstays.2, hcan.1.2⟩
    · cases h

/-- An interface that no member which has to stay mentions is spared by every class. -/
theorem spares_of_isKeptInSignature {pool : ClassPool} {source : String}
    (h : pool.isKeptInSignature keep source = false) {file : ClassFile}
    (hfile : file ∈ pool.classes) : file.isLibrary = true ∨ file.Spares keep source := by
  by_cases hlibrary : file.isLibrary = true
  · exact .inl hlibrary
  · refine .inr fun member hmem hkeep => ?_
    have hprogram : file ∈ pool.programClasses := List.mem_filter.2 ⟨hfile, by simp [hlibrary]⟩
    have hno := List.any_eq_false.1 h file hprogram
    simp only [Bool.or_eq_true, not_or, List.any_eq_true, not_exists, not_and,
      Bool.and_eq_true] at hno
    rw [← Bool.not_eq_true]
    intro hmentions
    obtain hmem | hmem := List.mem_append.1 hmem
    · obtain ⟨method, hmethod, rfl⟩ := List.mem_map.1 hmem
      exact hno.1 method hmethod hmentions hkeep
    · obtain ⟨field, hfield, rfl⟩ := List.mem_map.1 hmem
      exact hno.2 field hfield hmentions hkeep

end Replacement

/-! ## Passes that keep the classes in their places -/

section Passes

variable {keep : KeepSet}

theorem madeFinal_keptIn (hierarchy : Hierarchy) (file : ClassFile) :
    file.KeptIn keep (file.madeFinal hierarchy keep) := by
  rw [ClassFile.madeFinal]
  split
  · rename_i hcan
    refine ⟨rfl, rfl, fun hkeep => ?_, fun _ hmem _ => hmem, fun _ hmem _ => hmem⟩
    simp only [ClassFile.canBeFinal, hkeep, Bool.not_true, Bool.and_false, Bool.false_and] at hcan
    cases hcan
  · exact .refl keep file

theorem finalizeClasses_keepsClasses (keep : KeepSet) (hierarchy : Hierarchy) :
    (finalizeClasses hierarchy keep).KeepsClasses keep := by
  intro pool
  change List.Forall₂ _ pool.classes (pool.classes.map (·.madeFinal hierarchy keep))
  rw [List.forall₂_map_right_iff]
  exact List.forall₂_same.2 fun file _ => madeFinal_keptIn hierarchy file

/-- Making calls direct changes the body of a method. -/
theorem callDirectly_eq {pool : ConstantPool} {owner : String} {made : List (String × String)}
    {method changed : Method} (h : method.callDirectly pool owner made = .ok changed) :
    ∃ code, changed = { method with code } := by
  rw [Method.callDirectly] at h
  split at h
  · cases h
    exact ⟨_, rfl⟩
  · obtain ⟨edit, -, h⟩ := Except.bind_eq_ok.1 h
    split at h
    · obtain ⟨code, -, h⟩ := Except.bind_eq_ok.1 h
      cases h
      exact ⟨_, rfl⟩
    · cases h
      exact ⟨_, rfl⟩

/-- The declaration of a method is all of it but its body. -/
def SameDeclaration (method changed : Method) : Prop := ∃ code, changed = { method with code }

theorem SameDeclaration.refl (method : Method) : SameDeclaration method method := ⟨_, rfl⟩

theorem sameDeclaration_makeCallsDirect (pool : ConstantPool) (owner : String)
    (made : List (String × String)) (shared : Unit) (method : Method) :
    SameDeclaration method ((Method.makeCallsDirect pool owner made).apply (shared, method)).2.2 := by
  simp only [Method.makeCallsDirect, Change.apply, Change.ofEffect, ExceptT.run, ExceptT.mk,
    StateT.run]
  split
  · rename_i changed heq
    exact callDirectly_eq heq
  · exact .refl method

theorem privatizeClass_keptIn (hierarchy : Hierarchy) (used : List MemberKey) (total : Nat)
    (file : ClassFile) :
    file.KeptIn keep ((privatizeClass hierarchy keep used).apply (total, file)).2.2 := by
  rw [privatizeClass, Change.apply_bind]
  change file.KeptIn keep (Change.apply (if (file.isLibrary || file.isInterface) = true then
    pure () else _) (total, file)).2.2
  split
  · exact .refl keep file
  · dsimp only
    split
    · exact .refl keep file
    · refine ⟨rfl, rfl, fun _ => rfl, fun method hmem hkeep => ?_, fun _ hmem _ => hmem⟩
      obtain ⟨declared, hdeclared, rfl⟩ := List.mem_map.1 hmem
      have hcannot : declared.canBePrivate hierarchy keep used file.name = false := by
        simp [Method.canBePrivate, hkeep]
      have hmethods : declared ∈ file.methods.map fun method =>
          if method.canBePrivate hierarchy keep used file.name then method.madePrivate
          else method := List.mem_map.2 ⟨declared, hdeclared, by simp [hcannot]⟩
      obtain ⟨changed, hchanged, code, rfl⟩ := exists_mem_of_forall₂
        (Change.forall₂_eachOf SameDeclaration.refl
          (sameDeclaration_makeCallsDirect file.pool file.name _) () _) hmethods
      exact List.mem_map.2 ⟨_, hchanged, rfl⟩

theorem privatizeMethods_keepsClasses (keep : KeepSet) (hierarchy : Hierarchy) :
    (privatizeMethods hierarchy keep).KeepsClasses keep := fun pool =>
  Change.forall₂_eachOf (.refl keep) (privatizeClass_keptIn hierarchy _) 0 pool.classes

/-! ## Simplifying bodies -/

theorem sameDeclaration_optimizeMethod (around : Surroundings) (assumptions : Assumptions)
    (owner : String) (pool : ConstantPool) (method : Method) :
    SameDeclaration method ((optimizeMethod around assumptions owner).apply (pool, method)).2.2 := by
  simp only [optimizeMethod, Change.apply, Change.ofEffect, ExceptT.run, ExceptT.mk, StateT.run]
  split
  · exact .refl method
  · split
    · exact ⟨_, rfl⟩
    · exact .refl method
    · exact .refl method

theorem sameDeclaration_countMethod (around : Surroundings) (assumptions : Assumptions)
    (owner : String) (shared : ConstantPool × Statistics) (method : Method) :
    SameDeclaration method ((countMethod around assumptions owner).apply (shared, method)).2.2 := by
  have hmethod := sameDeclaration_optimizeMethod around assumptions owner shared.1 method
  simp only [countMethod, Change.apply, Change.ofEffect, ExceptT.run, ExceptT.mk, StateT.run]
  split
  · exact .refl method
  · simp only [Change.apply, ExceptT.run, StateT.run] at hmethod
    split
    · rename_i heq
      rw [heq] at hmethod
      exact hmethod
    · rename_i heq
      rw [heq] at hmethod
      exact hmethod
    · rename_i heq
      rw [heq] at hmethod
      exact hmethod

theorem optimizeClass_keptIn (around : Surroundings) (assumptions : Assumptions)
    (file : ClassFile) : file.KeptIn keep (optimizeClass around assumptions file).2 := by
  rw [optimizeClass]
  split
  · exact .refl keep file
  · refine ⟨rfl, rfl, fun _ => rfl, fun method hmem _ => ?_, fun _ hmem _ => hmem⟩
    obtain ⟨declared, hdeclared, rfl⟩ := List.mem_map.1 hmem
    obtain ⟨changed, hchanged, code, rfl⟩ := exists_mem_of_forall₂
      (Change.forall₂_eachOf SameDeclaration.refl
        (sameDeclaration_countMethod around assumptions file.name) _ _) hdeclared
    exact List.mem_map.2 ⟨_, hchanged, rfl⟩

end Passes

/-! ## The whole optimization -/

namespace Optimizer

variable (optimizer : Optimizer)

theorem optimizeRound_keepsClasses (pool : ClassPool) :
    List.Forall₂ (ClassFile.KeptIn optimizer.keep) pool.classes
      (optimizer.optimizeRound pool).2.classes := by
  simp only [optimizeRound, List.map_map]
  rw [List.forall₂_map_right_iff]
  exact List.forall₂_same.2 fun file _ => optimizeClass_keptIn _ _ file

theorem forall₂_keptIn_trans {keep : KeepSet} {first second third : List ClassFile}
    (h : List.Forall₂ (ClassFile.KeptIn keep) first second)
    (h' : List.Forall₂ (ClassFile.KeptIn keep) second third) :
    List.Forall₂ (ClassFile.KeptIn keep) first third :=
  forall₂_comp (fun _ _ _ hfirst hsecond => hfirst.trans hsecond) h h'

theorem optimizeRounds_keepsClasses (bound : Nat) (statistics : Statistics) (pool : ClassPool) :
    List.Forall₂ (ClassFile.KeptIn optimizer.keep) pool.classes
      (optimizer.optimizeRounds bound statistics pool).2.classes := by
  induction bound generalizing statistics pool with
  | zero => exact List.forall₂_same.2 fun file _ => .refl _ file
  | succ bound ih =>
    have hround := optimizer.optimizeRound_keepsClasses pool
    rw [optimizeRounds]
    dsimp only
    split
    · exact hround
    · exact forall₂_keptIn_trans hround (ih _ _)

/-- Whether an interface is merged away. -/
def merges (pool : ClassPool) (name : String) : Prop :=
  optimizer.settings.mergeInterfaces = true ∧
    ∃ replacement ∈ mergeCandidates pool (Hierarchy.ofPool pool) optimizer.keep,
      replacement.source = name

variable {optimizer}

theorem not_merges_of_keepsClass {pool : ClassPool} {name : String}
    (h : optimizer.keep.keepsClass name = true) : ¬ optimizer.merges pool name := by
  rintro ⟨-, replacement, hmem, rfl⟩
  rw [(Replacement.mem_mergeCandidates hmem).1] at h
  cases h

/-- The first pass: what is merged away is gone, and all else is found again. -/
theorem runPass_mergeInterfaces {pool merged : ClassPool} {count : Nat}
    (h : (optimizer.runPass optimizer.settings.mergeInterfaces .mergeInterfaces).apply pool =
      (.ok count, merged)) :
    pool.KeptIn optimizer.keep (optimizer.merges pool) merged ∧
      ∀ name, optimizer.merges pool name → merged.get? name = none := by
  rw [runPass] at h
  split at h
  · rename_i henabled
    let candidates := mergeCandidates pool (Hierarchy.ofPool pool) optimizer.keep
    have h : (candidates.forM (·.merge) >>= fun _ => pure candidates.length).apply pool =
      (.ok count, merged) := h
    obtain ⟨_, middle, hforM, hpure⟩ := Change.apply_bind_eq_ok h
    cases hpure
    have hmaintains : (candidates.forM (·.merge)).Maintains
        (pool.KeptIn optimizer.keep (optimizer.merges pool)) :=
      Change.maintains_forM fun replacement hmem =>
        Replacement.merge_maintains_keptIn (fun name file hfile =>
          Replacement.spares_of_isKeptInSignature (Replacement.mem_mergeCandidates hmem).2
            (List.mem_of_find?_eq_some hfile)) ⟨henabled, replacement, hmem, rfl⟩
    have hkept := hmaintains pool fun name file hfile _ => ⟨file, hfile, .refl _ file⟩
    rw [hforM] at hkept
    refine ⟨hkept, ?_⟩
    rintro name ⟨-, replacement, hmem, rfl⟩
    exact Replacement.get?_of_forM_merge hforM hmem
  · rename_i hdisabled
    cases h
    exact ⟨fun name file hfile _ => ⟨file, hfile, .refl _ file⟩, fun name hmerges =>
      absurd hmerges.1 hdisabled⟩

theorem runPass_keepsClasses {enabled : Bool} {pass : Pass} (hpass : pass ≠ .mergeInterfaces)
    {pool after : ClassPool} {count : Nat}
    (h : (optimizer.runPass enabled pass).apply pool = (.ok count, after)) :
    List.Forall₂ (ClassFile.KeptIn optimizer.keep) pool.classes after.classes := by
  rw [runPass] at h
  split at h
  · rw [Pass.run] at h
    obtain ⟨_, _, hget, h⟩ := Change.apply_bind_eq_ok h
    cases hget
    cases pass with
    | mergeInterfaces => exact absurd rfl hpass
    | finalizeClasses =>
      have hclasses := finalizeClasses_keepsClasses optimizer.keep (Hierarchy.ofPool pool) pool
      rw [h] at hclasses
      exact hclasses
    | privatizeMethods =>
      have hclasses :=
        privatizeMethods_keepsClasses optimizer.keep (Hierarchy.ofPool pool) pool
      rw [h] at hclasses
      exact hclasses
  · cases h
    exact List.forall₂_same.2 fun file _ => .refl _ file

/-- After the interfaces are merged, the classes keep their places. -/
theorem optimize_eq_ok {pool optimized : ClassPool} {statistics : Statistics}
    (h : optimizer.optimize.apply pool = (.ok statistics, optimized)) :
    ∃ count merged,
      (optimizer.runPass optimizer.settings.mergeInterfaces .mergeInterfaces).apply pool =
        (.ok count, merged) ∧
      List.Forall₂ (ClassFile.KeptIn optimizer.keep) merged.classes optimized.classes := by
  rw [optimize] at h
  dsimp only at h
  split at h
  · rename_i hinactive
    cases h
    have hdisabled : optimizer.settings.mergeInterfaces = false := by
      simp_all [Settings.isActive]
    exact ⟨0, pool, by rw [hdisabled]; rfl, List.forall₂_same.2 fun file _ => .refl _ file⟩
  · obtain ⟨_, _, hget, h⟩ := Change.apply_bind_eq_ok h
    cases hget
    obtain ⟨count, merged, hmerged, h⟩ := Change.apply_bind_eq_ok h
    obtain ⟨_, finalized, hfinalized, h⟩ := Change.apply_bind_eq_ok h
    obtain ⟨_, privatized, hprivatized, h⟩ := Change.apply_bind_eq_ok h
    refine ⟨count, merged, hmerged, forall₂_keptIn_trans
      (forall₂_keptIn_trans (runPass_keepsClasses (by nofun) hfinalized)
        (runPass_keepsClasses (by nofun) hprivatized)) ?_⟩
    split at h
    · obtain ⟨_, _, hget, h⟩ := Change.apply_bind_eq_ok h
      cases hget
      cases h
      exact optimizer.optimizeRounds_keepsClasses _ _ privatized
    · cases h
      exact List.forall₂_same.2 fun file _ => .refl _ file

/-- **What has to stay stays.** After an optimization that succeeds, every class that was not merged
away is found under its name, with the flags it had if the class has to stay, and with every method
and field that has to stay under its name and descriptor and with its flags. What was merged away is
gone, and a class that has to stay never is merged away. -/
theorem optimize_keeps {pool optimized : ClassPool} {statistics : Statistics}
    (h : optimizer.optimize.apply pool = (.ok statistics, optimized)) {name : String}
    {file : ClassFile} (hfile : pool.get? name = some file) :
    (optimizer.keep.keepsClass name = true → ¬ optimizer.merges pool name) ∧
      (optimizer.merges pool name → optimized.get? name = none) ∧
      (¬ optimizer.merges pool name →
        ∃ after, optimized.get? name = some after ∧ file.KeptIn optimizer.keep after) := by
  obtain ⟨count, merged, hmerged, hclasses⟩ := optimize_eq_ok h
  obtain ⟨hkept, hgone⟩ := runPass_mergeInterfaces hmerged
  refine ⟨not_merges_of_keepsClass, fun hmerges => ?_, fun hstays => ?_⟩
  · exact ClassPool.get?_eq_none_of_forall₂ hclasses (fun _ _ h => h.name) (hgone name hmerges)
  · obtain ⟨changed, hchanged, hfirst⟩ := hkept name file hfile hstays
    obtain ⟨after, hafter, hsecond⟩ :=
      ClassPool.get?_of_forall₂ hclasses (fun _ _ h => h.name) hchanged
    exact ⟨after, hafter, hfirst.trans hsecond⟩

/-- An interface with one method and its only implementation. -/
def interfaceWithImplementation : ClassPool :=
  .ofList [
    { name := "a/I", superName := some "java/lang/Object", interfaces := [], access := 0x601
      pool := .empty, fields := [], methods := [⟨0x401, "m", "()V", none⟩], isLibrary := false },
    { name := "a/C", superName := some "java/lang/Object", interfaces := ["a/I"], access := 0x1
      pool := .empty, fields := [], methods := [⟨0x1, "m", "()V", none⟩], isLibrary := false }]

/-- If the interface has to stay, it does, and so does its method. -/
theorem optimize_keeps_interface :
    let optimizer : Optimizer := ⟨.standard, KeepSet.empty.addWholeClass "a/I", none⟩
    ∃ statistics optimized file after,
      optimizer.optimize.apply interfaceWithImplementation = (.ok statistics, optimized) ∧
      interfaceWithImplementation.get? "a/I" = some file ∧ optimized.get? "a/I" = some after ∧
      file.KeptIn optimizer.keep after := by
  intro optimizer
  obtain ⟨statistics, hok⟩ : ∃ statistics,
      (optimizer.optimize.apply interfaceWithImplementation).1 = .ok statistics :=
    Except.exists_ok (by decide +kernel)
  obtain ⟨file, hfile⟩ : ∃ file, interfaceWithImplementation.get? "a/I" = some file :=
    Option.isSome_iff_exists.1 (by decide +kernel)
  have hrun : optimizer.optimize.apply interfaceWithImplementation =
      (.ok statistics, (optimizer.optimize.apply interfaceWithImplementation).2) :=
    Prod.ext hok rfl
  obtain ⟨hnever, -, hstays⟩ := optimize_keeps hrun hfile
  obtain ⟨after, hafter, hkept⟩ := hstays (hnever (by decide +kernel))
  exact ⟨statistics, _, file, after, hrun, hfile, hafter, hkept⟩

/-- An interface is merged away although its method has to stay. -/
theorem optimize_drops_kept_method :
    let optimizer : Optimizer := ⟨.standard, KeepSet.empty.addMember ⟨"a/I", "m", "()V"⟩, none⟩
    ∃ statistics optimized file,
      optimizer.optimize.apply interfaceWithImplementation = (.ok statistics, optimized) ∧
      interfaceWithImplementation.get? "a/I" = some file ∧
      (file.method? "m" "()V").isSome = true ∧
      optimizer.keep.keepsMember ⟨"a/I", "m", "()V"⟩ = true ∧ optimized.get? "a/I" = none := by
  intro optimizer
  obtain ⟨statistics, hok⟩ : ∃ statistics,
      (optimizer.optimize.apply interfaceWithImplementation).1 = .ok statistics :=
    Except.exists_ok (by decide +kernel)
  have hfile : (interfaceWithImplementation.get? "a/I").any (fun file =>
      (file.method? "m" "()V").isSome) = true := by decide +kernel
  obtain ⟨file, hget, hmethod⟩ := (Option.any_eq_true _ _).1 hfile
  exact ⟨statistics, _, file, Prod.ext hok rfl, hget, hmethod, by decide +kernel,
    by decide +kernel⟩

end Optimizer

end JvmTrim
