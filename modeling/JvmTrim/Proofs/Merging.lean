import JvmTrim.Proofs.Keeping

/-!
# Merges that succeed

A merge that succeeds has changed every class of the program but the interface, one after another,
each with its own constants, and then removed the interface. Several merges follow one another; what
they do to a class is what each of them does in its turn.

## Main definitions

* `Replacement.Concerns`: whether a merge changes a class
* `Replacement.MergesTo`: what a merge makes of a class

## Main results

* `Change.eachOf_eq_ok`: what a successful change of all members of a list did
* `Replacement.changeClass_eq_ok`: what replacing an interface did to a class
* `Replacement.merge_eq_ok`: what a merge did to all classes
* `Replacement.Suits`: what makes an interface a candidate
-/

namespace JvmTrim

namespace Change

variable {γ σ : Type}

/-- A successful change of all members of a list. Along the way the shared state only moves on, by
`R`, and what a member became, by `T`, stays true while it does. -/
theorem eachOf_eq_ok {change : Change (γ × σ) Unit} {R : γ → γ → Prop} {T : γ → σ → σ → Prop}
    (hrefl : ∀ shared, R shared shared) (htrans : ∀ {a b c}, R a b → R b c → R a c)
    (hstable : ∀ {a b s t}, R a b → T a s t → T b s t) {shared shared' : γ}
    {members members' : List σ}
    (hstep : ∀ {a b s t}, R shared a → change.apply (a, s) = (.ok (), b, t) → R a b ∧ T b s t)
    (h : eachOf change shared members = (.ok (), shared', members')) :
    R shared shared' ∧ List.Forall₂ (T shared') members members' := by
  induction members generalizing shared members' with
  | nil =>
    cases h
    exact ⟨hrefl _, .nil⟩
  | cons head tail ih =>
    rw [eachOf] at h
    split at h
    · cases h
    · rename_i middle head' hhead
      obtain ⟨hfirst, hchanged⟩ := hstep (hrefl shared) hhead
      generalize htail : eachOf change middle tail = answer at h
      obtain ⟨result, shared'', tail'⟩ := answer
      cases h
      obtain ⟨hrest, hmembers⟩ := ih (fun hreached => hstep (htrans hfirst hreached)) htail
      exact ⟨htrans hfirst hrest, .cons (hstable hrest hchanged) hmembers⟩

/-- What every member became, if that does not depend on the shared state. -/
theorem forall₂_of_eachOf {change : Change (γ × σ) Unit} {T : σ → σ → Prop}
    (hstep : ∀ {a b s t}, change.apply (a, s) = (.ok (), b, t) → T s t) {shared shared' : γ}
    {members members' : List σ} (h : eachOf change shared members = (.ok (), shared', members')) :
    List.Forall₂ T members members' :=
  (eachOf_eq_ok (R := fun _ _ => True) (T := fun _ => T) (fun _ => trivial) (fun _ _ => trivial)
    (fun _ h => h) (fun _ h => ⟨trivial, hstep h⟩) h).2

theorem forM_append_eq_ok {α : Type} {first second : List α} {f : α → Change σ Unit}
    {state after : σ} (h : ((first ++ second).forM f).apply state = (.ok (), after)) :
    ∃ middle, (first.forM f).apply state = (.ok (), middle) ∧
      (second.forM f).apply middle = (.ok (), after) := by
  induction first generalizing state with
  | nil => exact ⟨state, rfl, h⟩
  | cons head tail ih =>
    obtain ⟨_, reached, hhead, hrest⟩ := apply_bind_eq_ok h
    obtain ⟨middle, htail, hsecond⟩ := ih hrest
    refine ⟨middle, ?_, hsecond⟩
    change (f head >>= fun _ => tail.forM f).apply state = _
    rw [apply_bind, hhead]
    exact htail

theorem apply_liftM {α : Type} (x : Except Failure α) (state : σ) :
    (liftM x : Change σ α).apply state = (x, state) := by
  cases x <;> rfl

end Change

namespace Replacement

variable {replacement : Replacement}

/-- A class in which an interface was replaced: the interface is no longer listed, the constants were
changed first, the descriptors of the fields follow, and the methods came last. -/
theorem changeClass_eq_ok {file after : ClassFile}
    (h : replacement.changeClass.apply file = (.ok (), after)) :
    ∃ references constants pool methods,
      replacement.changeConstants.apply file.pool = (.ok references, constants) ∧
      Change.eachOf (replacement.changeMethod references) constants file.methods =
        (.ok (), pool, methods) ∧
      after = { file with
        interfaces := file.interfaces.filter (· != replacement.source)
        pool
        fields := file.fields.map fun field =>
          { field with descriptor := replacement.descriptor field.descriptor }
        methods } := by
  obtain ⟨_, _, hfirst, h⟩ := Change.apply_bind_eq_ok h
  cases hfirst
  obtain ⟨references, changed, hconstants, h⟩ := Change.apply_bind_eq_ok h
  rw [Change.apply_ofEffect] at hconstants
  generalize replacement.changeConstants.apply _ = answer at hconstants ⊢
  obtain ⟨result, constants⟩ := answer
  cases hconstants
  obtain ⟨_, _, hfields, h⟩ := Change.apply_bind_eq_ok h
  cases hfields
  rw [Change.apply_ofEffect] at h
  generalize hmethods : Change.eachOf (replacement.changeMethod references) _ _ = answer at h
  obtain ⟨result, pool, methods⟩ := answer
  cases h
  exact ⟨references, constants, pool, methods, rfl, hmethods, rfl⟩

/-- Whether merging an interface changes a class: it is a class of the program other than the
interface. -/
def Concerns (replacement : Replacement) (file : ClassFile) : Prop :=
  file.isLibrary = false ∧ file.name ≠ replacement.source

/-- What a merge makes of a class. -/
def MergesTo (replacement : Replacement) (file after : ClassFile) : Prop :=
  replacement.Concerns file ∧ replacement.changeClass.apply file = (.ok (), after) ∨
    ¬ replacement.Concerns file ∧ after = file

theorem mergesTo_changeOther {shared : Unit} {file after : ClassFile}
    (h : replacement.changeOther.apply (shared, file) = (.ok (), shared, after)) :
    replacement.MergesTo file after := by
  rw [changeOther, Change.apply_ofEffect] at h
  dsimp only at h
  split at h
  · rename_i hcond
    simp only [Bool.and_eq_true, Bool.not_eq_true', bne_iff_ne, ne_eq] at hcond
    generalize hrun : replacement.changeClass.apply file = answer at h
    obtain ⟨result, changed⟩ := answer
    cases h
    exact .inl ⟨hcond, hrun⟩
  · rename_i hcond
    cases h
    refine .inr ⟨fun hconcerns => hcond ?_, rfl⟩
    simp [hconcerns.1, hconcerns.2]

/-- **A merge that succeeds** has changed the classes in their places, and then removed the
interface. -/
theorem merge_eq_ok {pool after : ClassPool}
    (h : replacement.merge.apply pool = (.ok (), after)) :
    ∃ classes, List.Forall₂ replacement.MergesTo pool.classes classes ∧
      after = (ClassPool.mk classes).remove replacement.source := by
  obtain ⟨_, middle, heach, h⟩ := Change.apply_bind_eq_ok h
  cases h
  rw [Change.apply_ofEffect] at heach
  generalize hrun : Change.eachOf replacement.changeOther () pool.classes = answer at heach
  obtain ⟨result, _, classes⟩ := answer
  cases heach
  exact ⟨classes, Change.forall₂_of_eachOf mergesTo_changeOther hrun, rfl⟩

theorem MergesTo.name_eq {file after : ClassFile} (h : replacement.MergesTo file after) :
    after.name = file.name := by
  obtain ⟨-, hrun⟩ | ⟨-, rfl⟩ := h
  · obtain ⟨_, _, _, _, -, -, rfl⟩ := changeClass_eq_ok hrun
    rfl
  · rfl

theorem MergesTo.isLibrary_eq {file after : ClassFile} (h : replacement.MergesTo file after) :
    after.isLibrary = file.isLibrary := by
  obtain ⟨-, hrun⟩ | ⟨-, rfl⟩ := h
  · obtain ⟨_, _, _, _, -, -, rfl⟩ := changeClass_eq_ok hrun
    rfl
  · rfl

/-- Every class after a merge was made of a class before it. -/
theorem exists_of_mem_merge {pool after : ClassPool}
    (h : replacement.merge.apply pool = (.ok (), after)) {file : ClassFile}
    (hfile : file ∈ after.classes) :
    file.name ≠ replacement.source ∧ ∃ original ∈ pool.classes, replacement.MergesTo original file := by
  obtain ⟨classes, hclasses, rfl⟩ := merge_eq_ok h
  obtain ⟨hmem, hname⟩ := List.mem_filter.1 hfile
  obtain ⟨original, horiginal, hmerges⟩ := exists_mem_of_forall₂ hclasses.flip hmem
  exact ⟨by simpa using hname, original, horiginal, hmerges⟩

/-! ## Candidates -/

/-- What was found out about a candidate: the interface is one of the program that declares nothing
but abstract methods, its only implementation is a class of the program that is concrete, and no two
members become the same. -/
structure Suits (replacement : Replacement) (pool : ClassPool) (hierarchy : Hierarchy)
    (file : ClassFile) : Prop where
  mem : file ∈ pool.programClasses
  source : file.name = replacement.source
  bare : file.isBareInterface = true
  implementors : hierarchy.directImplementors replacement.source = [replacement.target]
  concrete : hierarchy.isConcreteLeaf replacement.target = true
  distinct : replacement.clashesIn pool = false

theorem suits_of_mergeCandidate? {pool : ClassPool} {hierarchy : Hierarchy} {keep : KeepSet}
    {file : ClassFile} (hfile : file ∈ pool.programClasses)
    (h : mergeCandidate? pool hierarchy keep file = some replacement) :
    replacement.Suits pool hierarchy file := by
  rw [mergeCandidate?] at h
  split at h
  · cases h
  · rename_i hstays
    split at h
    · rename_i implementation himplementors
      dsimp only at h
      split at h
      · cases h
      · rename_i hcan
        cases h
        simp only [Bool.or_eq_true, not_or, Bool.not_eq_true, Bool.not_eq_true',
          Bool.not_eq_false] at hstays hcan
        exact ⟨hfile, rfl, hstays.1, himplementors, hcan.1.1.1, hcan.2⟩
    · cases h

theorem exists_suits {pool : ClassPool} {hierarchy : Hierarchy} {keep : KeepSet}
    (h : replacement ∈ mergeCandidates pool hierarchy keep) :
    ∃ file, replacement.Suits pool hierarchy file := by
  obtain ⟨file, hfile, h⟩ := List.mem_filterMap.1 h
  exact ⟨file, suits_of_mergeCandidate? hfile h⟩

end Replacement

/-- Merging all candidates is merging one after another. -/
theorem mergeInterfaces_eq_ok {pool merged : ClassPool} {hierarchy : Hierarchy} {keep : KeepSet}
    {count : Nat} (h : (mergeInterfaces hierarchy keep).apply pool = (.ok count, merged)) :
    ((mergeCandidates pool hierarchy keep).forM (·.merge)).apply pool = (.ok (), merged) := by
  obtain ⟨_, _, hget, h⟩ := Change.apply_bind_eq_ok h
  cases hget
  obtain ⟨_, _, hmerges, h⟩ := Change.apply_bind_eq_ok h
  cases h
  exact hmerges

end JvmTrim
