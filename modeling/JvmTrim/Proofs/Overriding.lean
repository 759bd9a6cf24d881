import JvmTrim.Proofs.Ancestry
import JvmTrim.Proofs.Distinctness
import JvmTrim.Proofs.Replacing

/-!
# Methods that override each other

A method overrides one with the same name and descriptor in a class above its own. Merging interfaces
renames classes in all descriptors alike, so methods that override each other go on to do so. The
renaming is not injective, however: an interface and the class in its place are two names before and
one name after. Two descriptors that differ only in such names become the same, and a method starts
to override another one. Candidates are checked for this among the members of one class, but not
along the classes above it.

## Main definitions

* `replacedName`: what becomes of a class name when one interface after another is replaced
* `ToldApart`: descriptors that do not differ in names that become the same

## Main results

* `mergeInterfaces_keeps_overriding`: no method stops overriding another one, and none starts if the
  descriptors are told apart
* `mergeInterfaces_makes_override`: a method starts overriding one in the class above
-/

namespace JvmTrim

open Relation

/-! ## Descriptors that become the same -/

/-- Types in which a class is replaced are the same only if they were, as long as the names in them
stay apart. -/
theorem FieldType.eq_of_retarget_eq {source target : String} {first second : FieldType}
    (hnames : ∀ a, first.className? = some a → ∀ b, second.className? = some b →
      renamed source target a = renamed source target b → a = b)
    (h : first.retarget source target = second.retarget source target) : first = second := by
  have hobject (name : String) : (object name).retarget source target =
      object (renamed source target name) := by
    rw [retarget, renamed]
    split <;> rfl
  induction first generalizing second with
  | object name =>
    cases second with
    | object other =>
      rw [hobject, hobject] at h
      exact congrArg object (hnames name rfl other rfl (object.inj h))
    | _ =>
      rw [hobject] at h
      cases h
  | array component ih =>
    cases second with
    | array other => exact congrArg array (ih hnames (array.inj h))
    | object other =>
      rw [hobject] at h
      cases h
    | _ => cases h
  | _ =>
    cases second with
    | object other =>
      rw [hobject] at h
      cases h
    | array other => cases h
    | _ => exact h

/-- Lists are the same if their members become the same and the members do only if they were. -/
theorem eq_of_map_eq {α β : Type} {f : α → β} {as bs : List α}
    (hf : ∀ a ∈ as, ∀ b ∈ bs, f a = f b → a = b) (h : as.map f = bs.map f) : as = bs := by
  induction as generalizing bs with
  | nil => simpa using h
  | cons a as ih =>
    cases bs with
    | nil => cases h
    | cons b bs =>
      obtain ⟨hhead, htail⟩ := List.cons.inj h
      rw [hf a List.mem_cons_self b List.mem_cons_self hhead]
      refine congrArg (b :: ·) (ih (fun x hx y hy => ?_) htail)
      exact hf x (List.mem_cons_of_mem _ hx) y (List.mem_cons_of_mem _ hy)

theorem MethodDescriptor.eq_of_retarget_eq {source target : String}
    {first second : MethodDescriptor}
    (hnames : ∀ a ∈ first.types.filterMap FieldType.className?,
      ∀ b ∈ second.types.filterMap FieldType.className?,
        FieldType.renamed source target a = FieldType.renamed source target b → a = b)
    (h : first.retarget source target = second.retarget source target) : first = second := by
  have htype : ∀ a ∈ first.types, ∀ b ∈ second.types,
      a.retarget source target = b.retarget source target → a = b := by
    intro a ha b hb heq
    refine FieldType.eq_of_retarget_eq (fun x hx y hy => ?_) heq
    exact hnames x (List.mem_filterMap.mpr ⟨a, ha, hx⟩) y (List.mem_filterMap.mpr ⟨b, hb, hy⟩)
  obtain ⟨parameters, result⟩ := first
  obtain ⟨parameters', result'⟩ := second
  obtain ⟨hparameters, hresult⟩ := MethodDescriptor.mk.inj h
  have hsame : parameters = parameters' := eq_of_map_eq (fun a ha b hb =>
    htype a (List.mem_append_left _ ha) b (List.mem_append_left _ hb)) hparameters
  cases result with
  | none =>
    cases result' with
    | none => rw [hsame]
    | some type' => cases hresult
  | some type =>
    cases result' with
    | none => cases hresult
    | some type' =>
      rw [hsame, htype type (by simp [types]) type' (by simp [types]) (Option.some.inj hresult)]

namespace Replacement

variable {replacement : Replacement} {text other : String} {parsed parsed' : MethodDescriptor}

/-- Method descriptors become the same only if they were, as long as the names in them stay apart. -/
theorem eq_of_descriptor_eq (htarget : IsClassName replacement.target)
    (hfirst : MethodDescriptor.parse text = .ok parsed)
    (hsecond : MethodDescriptor.parse other = .ok parsed')
    (hnames : ∀ a ∈ descriptorNames text, ∀ b ∈ descriptorNames other,
      replacement.renamed a = replacement.renamed b → a = b)
    (h : replacement.descriptor text = replacement.descriptor other) : text = other := by
  have hretarget := (parse_descriptor htarget hfirst).symm.trans
    (h ▸ parse_descriptor htarget hsecond)
  rw [descriptorNames, descriptorNames, descriptorTypes_of_parse_method hfirst,
    descriptorTypes_of_parse_method hsecond] at hnames
  obtain rfl := MethodDescriptor.eq_of_retarget_eq hnames (Except.ok.inj hretarget)
  have hchars := (MethodDescriptor.parse_eq_ok.mp hfirst).1
  rw [← (MethodDescriptor.parse_eq_ok.mp hsecond).1] at hchars
  exact String.toList_injective hchars

end Replacement

/-! ## One interface after another -/

/-- A class name when one interface after another is replaced. -/
def replacedName (replacements : List Replacement) (name : String) : String :=
  replacements.foldl (fun name replacement => replacement.renamed name) name

/-- Whether no name in one descriptor becomes the same as another name in the other one. -/
def ToldApart (replacements : List Replacement) (first second : String) : Prop :=
  ∀ a ∈ descriptorNames first, ∀ b ∈ descriptorNames second,
    replacedName replacements a = replacedName replacements b → a = b

instance (replacements : List Replacement) (first second : String) :
    Decidable (ToldApart replacements first second) :=
  inferInstanceAs (Decidable (∀ _ ∈ _, _))

/-- **Descriptors that are told apart stay apart** while one interface after another is replaced. -/
theorem eq_of_replacedDescriptor_eq {replacements : List Replacement} {first second : String}
    {parsed parsed' : MethodDescriptor}
    (htargets : ∀ replacement ∈ replacements, IsClassName replacement.target)
    (hfirst : MethodDescriptor.parse first = .ok parsed)
    (hsecond : MethodDescriptor.parse second = .ok parsed')
    (happart : ToldApart replacements first second)
    (h : replacedDescriptor replacements first = replacedDescriptor replacements second) :
    first = second := by
  induction replacements generalizing first second parsed parsed' with
  | nil => exact h
  | cons head tail ih =>
    rw [List.forall_mem_cons] at htargets
    obtain ⟨htarget, htargets⟩ := htargets
    have hhead : head.descriptor first = head.descriptor second := by
      refine ih htargets (Replacement.parse_descriptor htarget hfirst)
        (Replacement.parse_descriptor htarget hsecond) ?_ h
      intro a ha b hb hsame
      rw [Replacement.descriptorNames_descriptor htarget] at ha hb
      obtain ⟨x, hx, rfl⟩ := List.mem_map.mp ha
      obtain ⟨y, hy, rfl⟩ := List.mem_map.mp hb
      exact congrArg head.renamed (happart x hx y hy hsame)
    refine Replacement.eq_of_descriptor_eq htarget hfirst hsecond (fun a ha b hb hsame => ?_) hhead
    exact happart a ha b hb (congrArg (replacedName tail) hsame)

/-! ## The methods of a class that stays -/

/-- A class that is there after a merge was there before. If it is one of the program, its methods are
those that it had, with the class replaced in their descriptors. -/
theorem Replacement.exists_of_get?_merge {replacement : Replacement} {pool merged : ClassPool}
    (h : replacement.merge.apply pool = (.ok (), merged)) {name : String} {after : ClassFile}
    (hafter : merged.get? name = some after) :
    ∃ file, pool.get? name = some file ∧ after.isLibrary = file.isLibrary ∧
      (file.isLibrary = false → (after.methods.map fun m => (m.name, m.descriptor)) =
        file.methods.map fun m => (m.name, replacement.descriptor m.descriptor)) := by
  have hne : name ≠ replacement.source := by
    rintro rfl
    rw [get?_of_merge h] at hafter
    cases hafter
  obtain ⟨classes, hclasses, rfl⟩ := merge_eq_ok h
  rw [ClassPool.get?_remove_of_ne hne] at hafter
  obtain ⟨file, hfile, hmerges⟩ := ClassPool.get?_of_forall₂ hclasses.flip
    (fun _ _ hmerges => (MergesTo.name_eq hmerges).symm) hafter
  replace hmerges : replacement.MergesTo file after := hmerges
  refine ⟨file, hfile, hmerges.isLibrary_eq, fun hprogram => ?_⟩
  obtain ⟨-, hrun⟩ | ⟨hother, -⟩ := hmerges
  · obtain ⟨_, _, _, _, -, hmethods, rfl⟩ := changeClass_eq_ok hrun
    exact map_methods_changeMethod hmethods
  · have hname : file.name = name := by simpa using List.find?_some hfile
    exact absurd ⟨hprogram, hname ▸ hne⟩ hother

/-- The methods of a class of the program that stays while one interface after another is merged. -/
theorem Replacement.exists_of_get?_forM {replacements : List Replacement} {pool merged : ClassPool}
    (h : (replacements.forM (·.merge)).apply pool = (.ok (), merged)) {name : String}
    {after : ClassFile} (hafter : merged.get? name = some after) :
    ∃ file, pool.get? name = some file ∧ after.isLibrary = file.isLibrary ∧
      (file.isLibrary = false → (after.methods.map fun m => (m.name, m.descriptor)) =
        file.methods.map fun m => (m.name, replacedDescriptor replacements m.descriptor)) := by
  induction replacements generalizing pool with
  | nil =>
    cases h
    exact ⟨after, hafter, rfl, fun _ => rfl⟩
  | cons head tail ih =>
    obtain ⟨_, middle, hhead, htail⟩ := Change.apply_bind_eq_ok h
    obtain ⟨between, hbetween, hlast, hmethods'⟩ := ih htail
    obtain ⟨file, hfile, hfirst, hmethods⟩ := exists_of_get?_merge hhead hbetween
    refine ⟨file, hfile, hlast.trans hfirst, fun hprogram => ?_⟩
    rw [hmethods' (hfirst.trans hprogram)]
    have hmapped := congrArg (List.map fun member : String × String =>
      (member.1, replacedDescriptor tail member.2)) (hmethods hprogram)
    rw [List.map_map, List.map_map] at hmapped
    exact hmapped

/-- The method in the place of one that was there before. -/
theorem exists_of_map_eq {methods methods' : List Method} {f : String → String} {place : Nat}
    {method : Method} (h : (methods'.map fun m => (m.name, m.descriptor)) =
      methods.map fun m => (m.name, f m.descriptor)) (hmethod : methods[place]? = some method) :
    ∃ method', methods'[place]? = some method' ∧ method'.name = method.name ∧
      method'.descriptor = f method.descriptor := by
  have hplace := congrArg (·[place]?) h
  simp only [List.getElem?_map, hmethod, Option.map_some, Option.map_eq_some_iff,
    Prod.mk.injEq] at hplace
  exact hplace

/-- **Merging interfaces changes overriding only by making names the same.** Of two methods in classes
of the program that stay, at the places where they were, one overrides the other afterwards if it did
before. If the names in their descriptors are told apart, and the classes in the places of interfaces
have names that can be written, it does so only if it did before. -/
theorem mergeInterfaces_keeps_overriding {pool merged : ClassPool} {hierarchy : Hierarchy}
    {keep : KeepSet} {count : Nat}
    (hrun : (mergeInterfaces hierarchy keep).apply pool = (.ok count, merged))
    {sub sup : String} {below above below' above' : ClassFile}
    (hbelow : pool.get? sub = some below) (habove : pool.get? sup = some above)
    (hprogram : below.isLibrary = false ∧ above.isLibrary = false)
    (hbelow' : merged.get? sub = some below') (habove' : merged.get? sup = some above')
    {i j : Nat} {method other : Method} (hmethod : below.methods[i]? = some method)
    (hother : above.methods[j]? = some other) {parsed parsed' : MethodDescriptor}
    (hparsed : MethodDescriptor.parse method.descriptor = .ok parsed)
    (hparsed' : MethodDescriptor.parse other.descriptor = .ok parsed') :
    let candidates := mergeCandidates pool hierarchy keep
    ∃ method' other', below'.methods[i]? = some method' ∧ above'.methods[j]? = some other' ∧
      method'.name = method.name ∧ other'.name = other.name ∧
      (method.descriptor = other.descriptor → method'.descriptor = other'.descriptor) ∧
      ((∀ replacement ∈ candidates, IsClassName replacement.target) →
        ToldApart candidates method.descriptor other.descriptor →
        (method'.descriptor = other'.descriptor ↔ method.descriptor = other.descriptor)) := by
  intro candidates
  have hmerges := mergeInterfaces_eq_ok hrun
  obtain ⟨_, hfound, -, hmethods⟩ := Replacement.exists_of_get?_forM hmerges hbelow'
  cases hbelow.symm.trans hfound
  obtain ⟨_, hfound', -, hmethods'⟩ := Replacement.exists_of_get?_forM hmerges habove'
  cases habove.symm.trans hfound'
  obtain ⟨method', hplace, hname, hdescriptor⟩ :=
    exists_of_map_eq (hmethods hprogram.1) hmethod
  obtain ⟨other', hplace', hname', hdescriptor'⟩ :=
    exists_of_map_eq (hmethods' hprogram.2) hother
  have hkept : method.descriptor = other.descriptor → method'.descriptor = other'.descriptor := by
    intro hsame
    rw [hdescriptor, hdescriptor', hsame]
  refine ⟨method', other', hplace, hplace', hname, hname', hkept, fun htargets happart =>
    ⟨fun hsame => ?_, hkept⟩⟩
  rw [hdescriptor, hdescriptor'] at hsame
  exact eq_of_replacedDescriptor_eq htargets hparsed hparsed' happart hsame

/-- An interface with its only implementation, and a class with a method for the interface, below a
class with a method of the same name. -/
def overloads (descriptor : String) : ClassPool :=
  let file (name parent : String) (interfaces : List String) (methods : List Method) : ClassFile :=
    { name, superName := some parent, interfaces, access := 0x1, pool := .empty, fields := []
      methods, isLibrary := false }
  ⟨[{ file "a/I" "java/lang/Object" [] [] with access := 0x601 },
    file "a/C" "java/lang/Object" ["a/I"] [],
    file "a/L" "java/lang/Object" [] [⟨0x101, "m", descriptor, none⟩],
    file "a/K" "a/L" [] [⟨0x101, "m", "(La/I;)V", none⟩]]⟩

/-- A method for another class is not overridden, before and after the interface is merged. -/
theorem mergeInterfaces_keeps_overriding_overloads :
    ∃ merged, (mergeInterfaces (.ofPool (overloads "(Lb/D;)V")) .empty).apply
        (overloads "(Lb/D;)V") = (.ok 1, merged) ∧
      ∃ below above method other, merged.get? "a/K" = some below ∧ merged.get? "a/L" = some above ∧
        below.methods[0]? = some method ∧ above.methods[0]? = some other ∧
        method.name = "m" ∧ other.name = "m" ∧ method.descriptor ≠ other.descriptor := by
  obtain ⟨hcandidates, hrun, hstay⟩ :
      mergeCandidates (overloads "(Lb/D;)V") (.ofPool (overloads "(Lb/D;)V")) .empty =
        [⟨"a/I", "a/C"⟩] ∧
      ((mergeInterfaces (.ofPool (overloads "(Lb/D;)V")) .empty).apply
        (overloads "(Lb/D;)V")).1.toOption = some 1 ∧
      (((mergeInterfaces (.ofPool (overloads "(Lb/D;)V")) .empty).apply
          (overloads "(Lb/D;)V")).2.get? "a/K").isSome = true ∧
      (((mergeInterfaces (.ofPool (overloads "(Lb/D;)V")) .empty).apply
          (overloads "(Lb/D;)V")).2.get? "a/L").isSome = true := by
    decide +kernel
  generalize hmerged : (mergeInterfaces (.ofPool (overloads "(Lb/D;)V")) .empty).apply
    (overloads "(Lb/D;)V") = answer at hrun hstay
  obtain ⟨failure | count, merged⟩ := answer
  · cases hrun
  · cases hrun
    obtain ⟨below, hbelow⟩ := Option.isSome_iff_exists.mp hstay.1
    obtain ⟨above, habove⟩ := Option.isSome_iff_exists.mp hstay.2
    have hparsed : MethodDescriptor.parse "(La/I;)V" = .ok ⟨[.object "a/I"], none⟩ := by
      decide +kernel
    have hparsed' : MethodDescriptor.parse "(Lb/D;)V" = .ok ⟨[.object "b/D"], none⟩ := by
      decide +kernel
    have hlisted : [(⟨0x101, "m", "(La/I;)V", none⟩ : Method)][0]? = some _ := rfl
    have hlisted' : [(⟨0x101, "m", "(Lb/D;)V", none⟩ : Method)][0]? = some _ := rfl
    obtain ⟨method, other, hmethod, hother, hname, hname', -, hiff⟩ :=
      mergeInterfaces_keeps_overriding hmerged rfl rfl ⟨rfl, rfl⟩ hbelow habove hlisted hlisted'
        hparsed hparsed'
    rw [hcandidates] at hiff
    have hdiffer := hiff (by decide) (by decide +kernel)
    exact ⟨merged, rfl, below, above, method, other, hbelow, habove, hmethod, hother, hname, hname',
      fun hsame => absurd (hdiffer.mp hsame) (by decide)⟩

/-- **A method starts overriding another one**: the method for the interface becomes one for the class
in its place, which is what the method in the class above was all along. -/
theorem mergeInterfaces_makes_override :
    TransGen (Hierarchy.ofPool (overloads "(La/C;)V")).SubclassOf "a/K" "a/L" ∧
    ∃ count merged, (mergeInterfaces (.ofPool (overloads "(La/C;)V")) .empty).apply
        (overloads "(La/C;)V") = (.ok count, merged) ∧
      (merged.get? "a/K").map (·.methods) = some [⟨0x101, "m", "(La/C;)V", none⟩] ∧
      (merged.get? "a/L").map (·.methods) = some [⟨0x101, "m", "(La/C;)V", none⟩] := by
  obtain ⟨hok, hbelow, habove⟩ :
      ((mergeInterfaces (.ofPool (overloads "(La/C;)V")) .empty).apply
        (overloads "(La/C;)V")).1.isOk = true ∧
      (((mergeInterfaces (.ofPool (overloads "(La/C;)V")) .empty).apply
          (overloads "(La/C;)V")).2.get? "a/K").map (·.methods) =
        some [⟨0x101, "m", "(La/C;)V", none⟩] ∧
      (((mergeInterfaces (.ofPool (overloads "(La/C;)V")) .empty).apply
          (overloads "(La/C;)V")).2.get? "a/L").map (·.methods) =
        some [⟨0x101, "m", "(La/C;)V", none⟩] := by
    decide +kernel
  obtain ⟨count, hcount⟩ := Except.exists_ok hok
  exact ⟨.single (by decide +kernel : "a/K" ∈ _), count, _, Prod.ext hcount rfl, hbelow, habove⟩

end JvmTrim
