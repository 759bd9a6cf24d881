import JvmTrim.Proofs.HierarchyShape

/-!
# Questions about inheritance

What a hierarchy answers about the classes of a pool, in terms of the pool alone. Whether a class
inherits from another one and which classes are below a class are exactly the paths along supertypes
and superclasses, with cycles or without. Whether a method may override another one is such a
question too, but it asks every class above for one declaration only: the first with the name and
descriptor. A class that declares a method twice, which nothing in a pool rules out, is taken at the
first of these declarations.

## Main definitions

* `ClassPool.HasSupertype`, `ClassPool.HasSuperclass`: the edges between the classes of a pool

## Main results

* `inheritance_queries_exact`: the answers as paths
* `overrides_overlooks_second_declaration`: a method that is declared twice
-/

namespace JvmTrim

open Relation

/-! ## The edges of a pool -/

/-- Whether a class of a pool lists another one as its superclass or among its superinterfaces. -/
def ClassPool.HasSupertype (pool : ClassPool) (sub sup : String) : Prop :=
  ∃ file, pool.get? sub = some file ∧ (file.superName = some sup ∨ sup ∈ file.interfaces)

/-- Whether a class of a pool has another one as its superclass. -/
def ClassPool.HasSuperclass (pool : ClassPool) (sub sup : String) : Prop :=
  ∃ file ∈ pool.classes, file.name = sub ∧ file.superName = some sup

namespace Hierarchy

theorem extends_ofPool (pool : ClassPool) : (ofPool pool).Extends = pool.HasSupertype := by
  funext sub sup
  apply propext
  unfold Extends supertypesOf ClassPool.HasSupertype
  rw [get?_ofPool]
  cases pool.get? sub with
  | none => simp
  | some file => simp [ClassInfo.supertypes, ClassInfo.ofClass]

theorem subclassOf_ofPool (pool : ClassPool) : (ofPool pool).SubclassOf = pool.HasSuperclass := by
  funext sub sup
  apply propext
  unfold SubclassOf ClassPool.HasSuperclass
  rw [mem_directSubclasses]
  simp [ofPool, ClassInfo.ofClass, and_comm]

/-! ## Each class below is listed once -/

variable {hierarchy : Hierarchy}

theorem nodup_collectSubclasses {bound : Nat} {pending found : List String} (h : found.Nodup) :
    (hierarchy.collectSubclasses bound pending found).Nodup := by
  fun_induction hierarchy.collectSubclasses bound pending found with
  | case1 => exact h
  | case2 => exact h
  | case3 bound current pending found fresh ih =>
    refine ih (List.nodup_append.mpr ⟨h, nodup_freshOf _ _, fun name hname other hother => ?_⟩)
    rintro rfl
    exact (mem_freshOf.mp hother).2 hname

theorem nodup_allSubclasses (hierarchy : Hierarchy) (name : String) :
    (hierarchy.allSubclasses name).Nodup :=
  nodup_collectSubclasses List.nodup_nil

end Hierarchy

/-! ## The answers -/

/-- Whether a method has this name and descriptor. -/
def Method.IsNamed (method : Method) (name descriptor : String) : Prop :=
  method.name = name ∧ method.descriptor = descriptor

/-- Whether a method is neither private nor static. -/
def Method.IsOverridable (method : Method) : Prop :=
  method.access.hasAny (AccessFlags.private ||| AccessFlags.static) = false

/-- Whether a class declares a method, and its first declaration of it is neither private nor
static. -/
def ClassFile.OffersFirst (file : ClassFile) (name descriptor : String) : Prop :=
  ∃ front method rest, file.methods = front ++ method :: rest ∧ method.IsNamed name descriptor ∧
    (∀ earlier ∈ front, ¬ earlier.IsNamed name descriptor) ∧ method.IsOverridable

theorem Method.isNamed_iff {method : Method} {name descriptor : String} :
    (method.name == name && method.descriptor == descriptor) = true ↔
      method.IsNamed name descriptor := by
  rw [Bool.and_eq_true, beq_iff_eq, beq_iff_eq, IsNamed]

theorem ClassFile.offers_iff {file : ClassFile} {name descriptor : String} :
    file.offers name descriptor = true ↔ file.OffersFirst name descriptor := by
  simp only [offers, Option.any_eq_true, ClassFile.method?, List.find?_eq_some_iff_append,
    Method.isNamed_iff, Bool.not_eq_true']
  constructor
  · rintro ⟨method, ⟨hnamed, front, rest, hmethods, hfront⟩, haccess⟩
    refine ⟨front, method, rest, hmethods, hnamed, fun earlier hearlier hsame => ?_, haccess⟩
    have hnot := hfront earlier hearlier
    rw [Method.isNamed_iff.mpr hsame] at hnot
    cases hnot
  · rintro ⟨front, method, rest, hmethods, hnamed, hfront, haccess⟩
    refine ⟨method, ⟨hnamed, front, rest, hmethods, fun earlier hearlier => ?_⟩, haccess⟩
    exact Bool.eq_false_iff.mpr fun hsame => hfront earlier hearlier (Method.isNamed_iff.mp hsame)

theorem ClassFile.isSome_method?_iff {file : ClassFile} {name descriptor : String} :
    (file.method? name descriptor).isSome = true ↔
      ∃ method ∈ file.methods, method.IsNamed name descriptor := by
  simp only [ClassFile.method?, List.find?_isSome, Method.isNamed_iff]

theorem Hierarchy.mayOffer_iff {pool : ClassPool} {name descriptor owner : String} :
    (Hierarchy.ofPool pool).mayOffer name descriptor owner = true ↔
      pool.get? owner = none ∨
        ∃ file, pool.get? owner = some file ∧ file.OffersFirst name descriptor := by
  rw [mayOffer_ofPool]
  cases pool.get? owner with
  | none => simp
  | some file => simp [ClassFile.offers_iff]

/-- **Questions about inheritance are about paths.** In every pool, with cycles or without, a class
is assignable to another one exactly if there is a path of supertypes to it, and the classes below a
class, each listed once, are those with a path of superclasses to it. A method may override another
one exactly if its class is unknown, or if a path leads to a class that is unknown or declares the
method first as one that is neither private nor static; and it is overridden exactly if a class
below its own declares it. -/
theorem inheritance_queries_exact (pool : ClassPool) :
    (∀ sub sup, (Hierarchy.ofPool pool).isAssignable sub sup = true ↔
      ReflTransGen pool.HasSupertype sub sup) ∧
    (∀ owner, ((Hierarchy.ofPool pool).allSubclasses owner).Nodup ∧
      ∀ sub, sub ∈ (Hierarchy.ofPool pool).allSubclasses owner ↔
        TransGen pool.HasSuperclass sub owner) ∧
    (∀ owner name descriptor, (Hierarchy.ofPool pool).overrides owner name descriptor = true ↔
      pool.get? owner = none ∨ ∃ sup, TransGen pool.HasSupertype owner sup ∧
        (pool.get? sup = none ∨
          ∃ file, pool.get? sup = some file ∧ file.OffersFirst name descriptor)) ∧
    ∀ owner name descriptor, (Hierarchy.ofPool pool).isOverridden owner name descriptor = true ↔
      ∃ sub ∈ (Hierarchy.ofPool pool).allSubclasses owner, ∃ file, pool.get? sub = some file ∧
        ∃ method ∈ file.methods, method.IsNamed name descriptor := by
  refine ⟨fun sub sup => ?_, fun owner => ⟨Hierarchy.nodup_allSubclasses _ owner, fun sub => ?_⟩,
    fun owner name descriptor => ?_, fun owner name descriptor => ?_⟩
  · rw [Hierarchy.isAssignable_iff, Hierarchy.extends_ofPool]
  · rw [Hierarchy.mem_allSubclasses_iff, Hierarchy.subclassOf_ofPool]
  · rw [Hierarchy.overrides_iff, Hierarchy.extends_ofPool, Hierarchy.get?_ofPool,
      Option.map_eq_none_iff]
    simp only [Hierarchy.mayOffer_iff]
  · rw [Hierarchy.isOverridden_iff]
    simp only [Hierarchy.get?_ofPool, Option.map_eq_some_iff, Hierarchy.mem_allSubclasses_iff,
      ← ClassFile.isSome_method?_iff]
    constructor
    · rintro ⟨sub, info, hbelow, ⟨file, hget, rfl⟩, hdeclares⟩
      rw [ClassInfo.declaresMethod_ofClass] at hdeclares
      exact ⟨sub, hbelow, file, hget, hdeclares⟩
    · rintro ⟨sub, hbelow, file, hget, hdeclares⟩
      refine ⟨sub, _, hbelow, ⟨file, hget, rfl⟩, ?_⟩
      rw [ClassInfo.declaresMethod_ofClass]
      exact hdeclares

/-- A class that declares a method twice, first as a private one, and a class below it. -/
def redeclared : ClassPool :=
  let file (name : String) (parent : Option String) (methods : List Method) : ClassFile :=
    { name, superName := parent, interfaces := [], access := 0x1, pool := .empty, fields := []
      methods, isLibrary := false }
  ⟨[file "java/lang/Object" none [],
    file "a/S" (some "java/lang/Object") [⟨0x2, "m", "()V", none⟩, ⟨0x101, "m", "()V", none⟩],
    file "a/D" (some "a/S") []]⟩

/-- **A second declaration is overlooked.** The class above declares the method as one that is
neither private nor static, but the answer is that nothing is overridden. -/
theorem overrides_overlooks_second_declaration :
    ¬ ((Hierarchy.ofPool redeclared).overrides "a/D" "m" "()V" = true ↔
      redeclared.get? "a/D" = none ∨ ∃ sup, TransGen redeclared.HasSupertype "a/D" sup ∧
        (redeclared.get? sup = none ∨ ∃ file, redeclared.get? sup = some file ∧
          ∃ method ∈ file.methods, method.IsNamed "m" "()V" ∧ method.IsOverridable)) := by
  have hanswer : (Hierarchy.ofPool redeclared).overrides "a/D" "m" "()V" = false := by
    decide +kernel
  have habove : redeclared.HasSupertype "a/D" "a/S" := ⟨_, rfl, .inl rfl⟩
  intro hexact
  have hclaimed : (Hierarchy.ofPool redeclared).overrides "a/D" "m" "()V" = true := by
    have hsecond : Method.IsOverridable ⟨0x101, "m", "()V", none⟩ := by
      unfold Method.IsOverridable
      decide
    exact hexact.mpr (.inr ⟨"a/S", .single habove, .inr ⟨_, rfl, ⟨0x101, "m", "()V", none⟩,
      .tail _ (.head _), ⟨rfl, rfl⟩, hsecond⟩⟩)
  rw [hanswer] at hclaimed
  cases hclaimed

end JvmTrim
