import JvmTrim.Proofs.Merging

/-!
# Members that become the same

An interface is no candidate if replacing it would give two members of a class the same name and
descriptor. One merge therefore keeps the members of every class apart. All candidates are found
before the first merge, though, and two of them can do together what neither does alone: if the
check were made again before every merge, the members would stay apart throughout.

## Main definitions

* `ClassFile.HasDistinctMembers`: no two members of a class have the same name and descriptor

## Main results

* `mergeInterfaces_keeps_distinct`: members stay apart if no later candidate clashes when its turn
  comes
* `mergeInterfaces_makes_equal`: two interfaces with the same implementation make two methods the same
-/

namespace JvmTrim

/-- Whether no two methods and no two fields of a class have the same name and descriptor. -/
def ClassFile.HasDistinctMembers (file : ClassFile) : Prop :=
  (file.methods.map fun m => (m.name, m.descriptor)).Nodup ∧
    (file.fields.map fun f => (f.name, f.descriptor)).Nodup

instance (file : ClassFile) : Decidable file.HasDistinctMembers :=
  inferInstanceAs (Decidable (_ ∧ _))

/-- Whether this holds of all classes. -/
def ClassPool.HasDistinctMembers (pool : ClassPool) : Prop :=
  ∀ file ∈ pool.classes, file.HasDistinctMembers

instance (pool : ClassPool) : Decidable pool.HasDistinctMembers :=
  inferInstanceAs (Decidable (∀ _ ∈ _, _))

namespace Replacement

variable {replacement : Replacement}

/-- Replacing an interface in the methods of a class replaces it in their descriptors, and keeps
their names. -/
theorem map_methods_changeMethod {references : List UInt16} {constants pool : ConstantPool}
    {methods changed : List Method}
    (h : Change.eachOf (replacement.changeMethod references) constants methods =
      (.ok (), pool, changed)) :
    (changed.map fun m => (m.name, m.descriptor)) =
      methods.map fun m => (m.name, replacement.descriptor m.descriptor) := by
  have hstep {a b : ConstantPool} {method after : Method}
      (hrun : (replacement.changeMethod references).apply (a, method) = (.ok (), b, after)) :
      (after.name, after.descriptor) = (method.name, replacement.descriptor method.descriptor) := by
    obtain ⟨code, hcode⟩ := replacement.changeMethod_eq references a method
    rw [hrun] at hcode
    cases hcode
    rfl
  rw [← List.forall₂_eq_eq_eq, List.forall₂_map_left_iff, List.forall₂_map_right_iff]
  exact (Change.forall₂_of_eachOf hstep h).flip

/-- A merge keeps the members of a class apart if they do not clash. -/
theorem MergesTo.hasDistinctMembers {pool : ClassPool} {file after : ClassFile}
    (h : replacement.MergesTo file after) (hfile : file ∈ pool.classes)
    (hdistinct : file.HasDistinctMembers) (hclash : replacement.clashesIn pool = false) :
    after.HasDistinctMembers := by
  obtain ⟨⟨hlibrary, -⟩, hrun⟩ | ⟨-, rfl⟩ := h
  · obtain ⟨references, constants, _, methods, -, hmethods, rfl⟩ := changeClass_eq_ok hrun
    have hprogram : file ∈ pool.programClasses := List.mem_filter.2 ⟨hfile, by simp [hlibrary]⟩
    have hnone := List.any_eq_false.1 hclash file hprogram
    simp only [clashes, Bool.or_eq_true, Bool.not_eq_true', decide_eq_false_iff_not, not_or,
      not_not, List.map_map] at hnone
    refine ⟨?_, ?_⟩
    · rw [map_methods_changeMethod hmethods]
      exact hnone.1
    · rw [List.map_map]
      exact hnone.2
  · exact hdistinct

theorem hasDistinctMembers_of_merge {pool after : ClassPool} (hdistinct : pool.HasDistinctMembers)
    (hclash : replacement.clashesIn pool = false)
    (h : replacement.merge.apply pool = (.ok (), after)) : after.HasDistinctMembers := by
  intro file hfile
  obtain ⟨-, original, horiginal, hmerges⟩ := exists_of_mem_merge h hfile
  exact hmerges.hasDistinctMembers horiginal (hdistinct original horiginal) hclash

/-- Merging one interface after another keeps members apart if each is checked in its turn. -/
theorem hasDistinctMembers_of_forM {replacements : List Replacement} {pool after : ClassPool}
    (hdistinct : pool.HasDistinctMembers)
    (hchecked : ∀ before replacement behind reached,
      replacements = before ++ replacement :: behind →
      (before.forM (·.merge)).apply pool = (.ok (), reached) →
      replacement.clashesIn reached = false)
    (h : (replacements.forM (·.merge)).apply pool = (.ok (), after)) :
    after.HasDistinctMembers := by
  induction replacements generalizing pool with
  | nil =>
    cases h
    exact hdistinct
  | cons head tail ih =>
    obtain ⟨_, middle, hhead, htail⟩ := Change.apply_bind_eq_ok h
    refine ih (hasDistinctMembers_of_merge hdistinct (hchecked [] head tail pool rfl rfl) hhead)
      (fun before replacement behind reached heq hreached => ?_) htail
    refine hchecked (head :: before) replacement behind reached (by rw [heq]; rfl) ?_
    change (head.merge >>= fun _ => before.forM (·.merge)).apply pool = _
    rw [Change.apply_bind, hhead]
    exact hreached

end Replacement

/-- **Merging interfaces keeps members apart** if every candidate but the first, which was, is checked
again when its turn comes: then no class gets two methods or two fields with the same name and
descriptor. -/
theorem mergeInterfaces_keeps_distinct {pool merged : ClassPool} {hierarchy : Hierarchy}
    {keep : KeepSet} {count : Nat} (hdistinct : pool.HasDistinctMembers)
    (hchecked : ∀ before replacement behind reached,
      mergeCandidates pool hierarchy keep = before ++ replacement :: behind → before ≠ [] →
      (before.forM (·.merge)).apply pool = (.ok (), reached) →
      replacement.clashesIn reached = false)
    (hrun : (mergeInterfaces hierarchy keep).apply pool = (.ok count, merged)) :
    merged.HasDistinctMembers := by
  refine Replacement.hasDistinctMembers_of_forM hdistinct
    (fun before replacement behind reached heq hreached => ?_) (mergeInterfaces_eq_ok hrun)
  cases before with
  | nil =>
    cases hreached
    have hmem : replacement ∈ mergeCandidates pool hierarchy keep := by simp [heq]
    obtain ⟨_, hsuits⟩ := Replacement.exists_suits hmem
    exact hsuits.distinct
  | cons first before =>
    exact hchecked (first :: before) replacement behind reached heq (by simp) hreached

/-- A class with two roles, each an interface, and a method for either: `m`, and one with another
name or the same. -/
def twoRoles (other : String) : ClassPool :=
  let role (name : String) : ClassFile :=
    { name, superName := some "java/lang/Object", interfaces := [], access := 0x601
      pool := .empty, fields := [], methods := [], isLibrary := false }
  .ofList [role "a/I", role "a/J",
    { name := "a/C", superName := some "java/lang/Object", interfaces := ["a/I", "a/J"]
      access := 0x1, pool := .empty, fields := []
      methods := [⟨0x101, "m", "(La/I;)V", none⟩, ⟨0x101, other, "(La/J;)V", none⟩]
      isLibrary := false }]

/-- Methods with different names stay apart when both roles are merged into the class. -/
theorem mergeInterfaces_keeps_distinct_roles : (twoRoles "n").HasDistinctMembers ∧
    ∃ merged, (mergeInterfaces (.ofPool (twoRoles "n")) .empty).apply (twoRoles "n") =
        (.ok 2, merged) ∧ merged.HasDistinctMembers := by
  obtain ⟨hdistinct, hcandidates, hclash, hrun⟩ : (twoRoles "n").HasDistinctMembers ∧
      mergeCandidates (twoRoles "n") (.ofPool (twoRoles "n")) .empty =
        [⟨"a/I", "a/C"⟩, ⟨"a/J", "a/C"⟩] ∧
      (Replacement.mk "a/J" "a/C").clashesIn
        (([⟨"a/I", "a/C"⟩].forM Replacement.merge).apply (twoRoles "n")).2 = false ∧
      ((mergeInterfaces (.ofPool (twoRoles "n")) .empty).apply (twoRoles "n")).1.toOption =
        some 2 := by
    decide +kernel
  generalize hmerged : (mergeInterfaces (.ofPool (twoRoles "n")) .empty).apply (twoRoles "n") =
    answer at hrun
  obtain ⟨failure | count, merged⟩ := answer
  · cases hrun
  · cases hrun
    refine ⟨hdistinct, merged, rfl, mergeInterfaces_keeps_distinct hdistinct
      (fun before replacement behind reached heq hne hreached => ?_) hmerged⟩
    rw [hcandidates] at heq
    obtain _ | ⟨first, _ | ⟨second, before⟩⟩ := before
    · exact absurd rfl hne
    · cases heq
      rw [hreached] at hclash
      exact hclash
    · simp at heq

/-- **Two interfaces make two methods the same**, although neither does so alone. -/
theorem mergeInterfaces_makes_equal : (twoRoles "m").HasDistinctMembers ∧
    ∃ count merged, (mergeInterfaces (.ofPool (twoRoles "m")) .empty).apply (twoRoles "m") =
        (.ok count, merged) ∧ ¬ merged.HasDistinctMembers := by
  obtain ⟨hdistinct, hok, hequal⟩ : (twoRoles "m").HasDistinctMembers ∧
      ((mergeInterfaces (.ofPool (twoRoles "m")) .empty).apply (twoRoles "m")).1.isOk = true ∧
      ¬ ((mergeInterfaces (.ofPool (twoRoles "m")) .empty).apply
        (twoRoles "m")).2.HasDistinctMembers := by
    decide +kernel
  obtain ⟨count, hcount⟩ := Except.exists_ok hok
  exact ⟨hdistinct, count, _, Prod.ext hcount rfl, hequal⟩

end JvmTrim
