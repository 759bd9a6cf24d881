import JvmTrim.Proofs.Ancestry
import JvmTrim.Proofs.Outcome

/-!
# Hierarchies of the same shape

Most questions about a hierarchy do not ask for the flags of methods: what a class inherits from, what
is below it, and which class declares the member that a reference names. Two hierarchies whose classes
agree in everything else give the same answers. A pass that only changes how methods can be accessed
leaves a hierarchy of the same shape behind.

## Main definitions

* `ClassInfo.SameShape`, `Hierarchy.SameShape`: agreement in everything but the flags
* `ClassFile.offers`: whether a class declares a method so that it can be overridden

## Main results

* `Hierarchy.SameShape.extends_eq`, `Hierarchy.SameShape.subclassOf_eq`: the edges are the same
* `Hierarchy.SameShape.resolve?_eq`: references lead to the same classes
-/

namespace JvmTrim

/-- Whether what is known of two classes is the same but for flags. -/
structure ClassInfo.SameShape (first second : ClassInfo) : Prop where
  name : first.name = second.name
  superName : first.superName = second.superName
  interfaces : first.interfaces = second.interfaces
  methods : ∀ name descriptor,
    first.declaresMethod name descriptor = second.declaresMethod name descriptor
  fields : ∀ name descriptor,
    first.declaresField name descriptor = second.declaresField name descriptor

/-- Whether two hierarchies have the same classes in the same order, but for flags. -/
def Hierarchy.SameShape (first second : Hierarchy) : Prop :=
  List.Forall₂ ClassInfo.SameShape first.classes second.classes

/-- What is found first in two lists whose members satisfy a condition together. -/
theorem rel_find?_of_forall₂ {α β : Type} {R : α → β → Prop} {p : α → Bool} {q : β → Bool}
    (hsame : ∀ a b, R a b → p a = q b) {as : List α} {bs : List β} (h : List.Forall₂ R as bs) :
    Option.Rel R (as.find? p) (bs.find? q) := by
  induction h with
  | nil => exact .none
  | @cons a b _ _ hhead _ ih =>
    rw [List.find?_cons, List.find?_cons, hsame a b hhead]
    cases q b with
    | true => exact .some hhead
    | false => exact ih

namespace Hierarchy.SameShape

variable {first second : Hierarchy} (h : first.SameShape second)

include h

theorem get? (name : String) :
    Option.Rel ClassInfo.SameShape (first.get? name) (second.get? name) :=
  rel_find?_of_forall₂ (fun _ _ hsame => by rw [hsame.name]) h

theorem extent_eq : first.extent = second.extent := by
  obtain ⟨classes⟩ := first
  obtain ⟨classes'⟩ := second
  unfold extent
  change List.Forall₂ _ classes classes' at h
  induction h with
  | nil => rfl
  | cons hhead _ ih => rw [List.foldr_cons, List.foldr_cons, hhead.interfaces, ih]

theorem supertypesOf_eq (name : String) : first.supertypesOf name = second.supertypesOf name := by
  have hget := h.get? name
  unfold supertypesOf
  generalize first.get? name = found, second.get? name = found' at hget ⊢
  cases hget with
  | none => rfl
  | some hsame => simp [ClassInfo.supertypes, hsame.superName, hsame.interfaces]

/-- **The edges upwards are the same.** -/
theorem extends_eq : first.Extends = second.Extends := by
  funext sub sup
  rw [Extends, Extends, h.supertypesOf_eq]

theorem directSubclasses_eq (name : String) :
    first.directSubclasses name = second.directSubclasses name := by
  rw [directSubclasses, directSubclasses, ← List.forall₂_eq_eq_eq, List.forall₂_map_left_iff,
    List.forall₂_map_right_iff]
  refine (List.rel_filter (fun a b hsame => ?_) h).imp fun _ _ hsame => hsame.name
  simp only [hsame.superName]

/-- **The edges downwards are the same.** -/
theorem subclassOf_eq : first.SubclassOf = second.SubclassOf := by
  funext sub sup
  rw [SubclassOf, SubclassOf, h.directSubclasses_eq]

theorem declaresMethod_eq (owner name descriptor : String) :
    ((first.get? owner).map (·.declaresMethod name descriptor)).getD false =
      ((second.get? owner).map (·.declaresMethod name descriptor)).getD false := by
  have hget := h.get? owner
  generalize first.get? owner = found, second.get? owner = found' at hget ⊢
  cases hget with
  | none => rfl
  | some hsame => simp [hsame.methods]

theorem findOnChain?_eq {test : ClassInfo → Bool} (htest : ∀ a b, a.SameShape b → test a = test b)
    (bound : Nat) (start : Option String) :
    first.findOnChain? test bound start = second.findOnChain? test bound start := by
  induction bound generalizing start with
  | zero => cases start <;> rfl
  | succ bound ih =>
    cases start with
    | none => rfl
    | some name =>
      have hget := h.get? name
      rw [findOnChain?, findOnChain?]
      generalize first.get? name = found, second.get? name = found' at hget ⊢
      cases hget with
      | none => rfl
      | some hsame => simp only [htest _ _ hsame, hsame.name, hsame.superName, ih]

theorem findInInterfaces_eq (name descriptor : String) (bound : Nat) (current : String)
    (seen : List String) : first.findInInterfaces name descriptor bound current seen =
      second.findInInterfaces name descriptor bound current seen := by
  induction bound generalizing current seen with
  | zero => rfl
  | succ bound ih =>
    have hget := h.get? current
    simp only [findInInterfaces, ih, h.declaresMethod_eq]
    generalize first.get? current = found, second.get? current = found' at hget ⊢
    cases hget with
    | none => rfl
    | some hsame => simp only [hsame.interfaces, hsame.superName]

theorem resolveField?_eq (name descriptor : String) (bound : Nat) (owner : String) :
    first.resolveField? name descriptor bound owner =
      second.resolveField? name descriptor bound owner := by
  induction bound generalizing owner with
  | zero => rfl
  | succ bound ih =>
    have hget := h.get? owner
    have hbelow : first.resolveField? name descriptor bound =
        second.resolveField? name descriptor bound := funext ih
    rw [resolveField?, resolveField?, hbelow]
    generalize first.get? owner = found, second.get? owner = found' at hget ⊢
    cases hget with
    | none => rfl
    | some hsame =>
      simp only [hsame.fields, hsame.name, hsame.interfaces, hsame.superName]

/-- **References lead to the same classes.** -/
theorem resolve?_eq (member : MemberRef) : first.resolve? member = second.resolve? member := by
  have hmethod : first.resolveMethod? member.owner member.name member.descriptor =
      second.resolveMethod? member.owner member.name member.descriptor := by
    rw [resolveMethod?, resolveMethod?, h.extent_eq,
      h.findOnChain?_eq fun a b hsame => hsame.methods _ _, h.findInInterfaces_eq]
  rw [resolve?, resolve?, hmethod, h.extent_eq, h.resolveField?_eq]

end Hierarchy.SameShape

/-! ## The hierarchy of a pool -/

/-- Whether a class declares a method so that it can be overridden. -/
def ClassFile.offers (file : ClassFile) (name descriptor : String) : Bool :=
  (file.method? name descriptor).any fun method =>
    !method.access.hasAny (AccessFlags.private ||| AccessFlags.static)

theorem ClassInfo.method?_ofClass (file : ClassFile) (name descriptor : String) :
    (ClassInfo.ofClass file).method? name descriptor =
      (file.method? name descriptor).map fun m => ⟨m.access, m.name, m.descriptor⟩ := by
  rw [method?, ofClass, List.find?_map]
  rfl

theorem ClassInfo.offers_ofClass (file : ClassFile) (name descriptor : String) :
    (ClassInfo.ofClass file).offers name descriptor = file.offers name descriptor := by
  rw [offers, method?_ofClass, ClassFile.offers]
  cases file.method? name descriptor <;> rfl

theorem ClassInfo.declaresMethod_ofClass (file : ClassFile) (name descriptor : String) :
    (ClassInfo.ofClass file).declaresMethod name descriptor =
      (file.method? name descriptor).isSome := by
  rw [declaresMethod, method?_ofClass, Option.isSome_map]

theorem Hierarchy.get?_ofPool (pool : ClassPool) (name : String) :
    (Hierarchy.ofPool pool).get? name = (pool.get? name).map ClassInfo.ofClass := by
  rw [get?, ofPool, List.find?_map]
  rfl

theorem Hierarchy.mayOffer_ofPool (pool : ClassPool) (name descriptor owner : String) :
    (Hierarchy.ofPool pool).mayOffer name descriptor owner =
      ((pool.get? owner).map (·.offers name descriptor)).getD true := by
  rw [mayOffer, get?_ofPool]
  cases pool.get? owner with
  | none => rfl
  | some file => exact ClassInfo.offers_ofClass ..

/-- A class that cannot offer a method is known. -/
theorem Hierarchy.exists_of_not_mayOffer {pool : ClassPool} {name descriptor owner : String}
    (h : (Hierarchy.ofPool pool).mayOffer name descriptor owner = false) :
    ∃ file, pool.get? owner = some file ∧ file.offers name descriptor = false := by
  rw [mayOffer_ofPool] at h
  cases hget : pool.get? owner with
  | none => simp [hget] at h
  | some file => exact ⟨file, rfl, by simpa [hget] using h⟩

end JvmTrim
