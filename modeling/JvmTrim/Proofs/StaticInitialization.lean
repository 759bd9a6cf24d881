import JvmTrim.Proofs.Resolution

/-!
# Initializers that may run

Touching a class runs static initializers: its own and those of its superclasses, unless they have
run before, and those of the interfaces that these classes implement, if the interfaces declare
methods with a body. The classes that have been initialized for certain are the one whose code is
running and its superclasses.

The hierarchy answers whether an initializer may run by two walks along superclasses. Neither of
them misses a class: the answer is no exactly if the touched class has been initialized before, or
if the classes from there upwards are known and have no initializers. But the walks do not look at
interfaces. An interface with an initializer and a method with a body is overlooked, and nothing
else is.

## Main definitions

* `ClassPool.Initializes`: what touching a class may initialize

## Main results

* `mayTriggerInitializer_eq_false_iff`: the classes along superclasses decide
* `mayTriggerInitializer_overlooks`: only interfaces are overlooked
* `mayTriggerInitializer_overlooks_interface`: one that is
-/

namespace JvmTrim

open Relation

namespace Hierarchy

variable {hierarchy : Hierarchy} {bound : Nat} {name goal : String}

@[simp]
theorem onChain_none : hierarchy.onChain goal bound none = false := by
  cases bound <;> rfl

@[simp]
theorem chainInitializes_none : hierarchy.chainInitializes bound none = false := by
  cases bound <;> rfl

/-- The first walk visits a class and all its superclasses. -/
theorem onChain_iff (hacyclic : hierarchy.Acyclic) (hbound : hierarchy.depth name < bound) :
    hierarchy.onChain goal bound (some name) = true ↔
      ReflTransGen hierarchy.HasSuper name goal := by
  induction bound generalizing name with
  | zero => omega
  | succ bound ih =>
    rw [onChain, Bool.or_eq_true, beq_iff_eq, ReflTransGen.cases_head_iff]
    refine or_congr_right ?_
    cases hsuper : hierarchy.superOf? name with
    | none => simp [HasSuper, hsuper]
    | some parent =>
      have hless := depth_lt_of_extends hacyclic (HasSuper.extends hsuper)
      rw [ih (by omega)]
      simp [HasSuper, hsuper]

/-- The second walk finds nothing exactly if a class and its superclasses are known and have no
initializers. -/
theorem chainInitializes_eq_false_iff (hacyclic : hierarchy.Acyclic)
    (hbound : hierarchy.depth name < bound) :
    hierarchy.chainInitializes bound (some name) = false ↔
      ∀ sup, ReflTransGen hierarchy.HasSuper name sup →
        ∃ info, hierarchy.get? sup = some info ∧ info.hasStaticInitializer = false := by
  induction bound generalizing name with
  | zero => omega
  | succ bound ih =>
    rw [chainInitializes]
    cases hget : hierarchy.get? name with
    | none =>
      refine iff_of_false nofun fun hall => ?_
      obtain ⟨info, hknown, -⟩ := hall name .refl
      cases hget.symm.trans hknown
    | some info =>
      have hsplit : (∀ sup, ReflTransGen hierarchy.HasSuper name sup →
          ∃ info, hierarchy.get? sup = some info ∧ info.hasStaticInitializer = false) ↔
          info.hasStaticInitializer = false ∧ ∀ parent, info.superName = some parent →
            ∀ sup, ReflTransGen hierarchy.HasSuper parent sup →
              ∃ info, hierarchy.get? sup = some info ∧ info.hasStaticInitializer = false := by
        constructor
        · refine fun hall => ⟨?_, fun parent hparent sup hpath =>
            hall sup (.head (hasSuper_of_get? hget hparent) hpath)⟩
          obtain ⟨info', hknown, hnone⟩ := hall name .refl
          cases hget.symm.trans hknown
          exact hnone
        · rintro ⟨hnone, habove⟩ sup hpath
          rcases hpath.cases_head with rfl | ⟨parent, hstep, hpath⟩
          · exact ⟨info, hget, hnone⟩
          · obtain ⟨info', hget', hparent⟩ := hstep.exists_get?
            cases hget.symm.trans hget'
            exact habove parent hparent sup hpath
      rw [hsplit, Bool.or_eq_false_iff]
      refine and_congr_right fun _ => ?_
      cases hparent : info.superName with
      | none => simp
      | some parent =>
        have hless := depth_lt_of_extends hacyclic (hasSuper_of_get? hget hparent).extends
        rw [ih (by omega)]
        simp

/-- **The classes along superclasses decide** whether touching a class may run an initializer. -/
theorem mayTriggerInitializer_eq_false_iff (hacyclic : hierarchy.Acyclic) (user target : String) :
    hierarchy.mayTriggerInitializer user target = false ↔
      ReflTransGen hierarchy.HasSuper user target ∨
        ∀ sup, ReflTransGen hierarchy.HasSuper target sup →
          ∃ info, hierarchy.get? sup = some info ∧ info.hasStaticInitializer = false := by
  rw [mayTriggerInitializer, Bool.and_eq_false_iff, Bool.not_eq_false',
    onChain_iff hacyclic (hierarchy.depth_lt_extent user),
    chainInitializes_eq_false_iff hacyclic (hierarchy.depth_lt_extent target)]

end Hierarchy

/-- Whether a class declares a method that is neither abstract nor static. -/
def ClassFile.hasInstanceBody (file : ClassFile) : Bool :=
  file.methods.any fun method =>
    !method.access.hasAny (AccessFlags.«abstract» ||| AccessFlags.static)

/-- Whether touching a class from code of another one may initialize a class or an interface: the
touched class and its superclasses, unless they have been initialized for the running code, and what
is above one of these and is an interface with a method that is neither abstract nor static. -/
inductive ClassPool.Initializes (pool : ClassPool) (user target : String) : String → Prop
  | superclass {name : String}
      (hpath : ReflTransGen (Hierarchy.ofPool pool).HasSuper target name)
      (hnew : ¬ ReflTransGen (Hierarchy.ofPool pool).HasSuper user name) :
      Initializes pool user target name
  | interface {name above : String} {file : ClassFile}
      (hpath : ReflTransGen (Hierarchy.ofPool pool).HasSuper target name)
      (hnew : ¬ ReflTransGen (Hierarchy.ofPool pool).HasSuper user name)
      (habove : TransGen (Hierarchy.ofPool pool).Extends name above)
      (hget : pool.get? above = some file) (hinterface : file.isInterface = true)
      (hbody : file.hasInstanceBody = true) : Initializes pool user target above

theorem ClassInfo.hasStaticInitializer_ofClass (file : ClassFile) :
    (ClassInfo.ofClass file).hasStaticInitializer = file.hasStaticInitializer := by
  rw [hasStaticInitializer, ofClass, List.any_map]
  rfl

theorem Hierarchy.exists_ofPool_iff {pool : ClassPool} {name : String} :
    (∃ info, (ofPool pool).get? name = some info ∧ info.hasStaticInitializer = false) ↔
      ∃ file, pool.get? name = some file ∧ file.hasStaticInitializer = false := by
  simp [get?_ofPool, ClassInfo.hasStaticInitializer_ofClass]

/-- **Only interfaces are overlooked.** The answer that touching a class runs no initializer is
right for the class and its superclasses: it is given exactly if the class has been initialized
before, or if all of them are known and have no initializers. An initializer that may run although
the answer is no belongs to an interface with a method that is neither abstract nor static. -/
theorem mayTriggerInitializer_overlooks {pool : ClassPool}
    (hacyclic : (Hierarchy.ofPool pool).Acyclic) (user target : String) :
    ((Hierarchy.ofPool pool).mayTriggerInitializer user target = false ↔
      ReflTransGen (Hierarchy.ofPool pool).HasSuper user target ∨
        ∀ sup, ReflTransGen (Hierarchy.ofPool pool).HasSuper target sup →
          ∃ file, pool.get? sup = some file ∧ file.hasStaticInitializer = false) ∧
    (¬ ReflTransGen (Hierarchy.ofPool pool).HasSuper user target →
      (Hierarchy.ofPool pool).mayTriggerInitializer user target = false →
      ∀ name file, pool.Initializes user target name → pool.get? name = some file →
        file.hasStaticInitializer = true →
        ¬ ReflTransGen (Hierarchy.ofPool pool).HasSuper target name ∧
          file.isInterface = true ∧ file.hasInstanceBody = true) := by
  have hexact : (Hierarchy.ofPool pool).mayTriggerInitializer user target = false ↔
      ReflTransGen (Hierarchy.ofPool pool).HasSuper user target ∨
        ∀ sup, ReflTransGen (Hierarchy.ofPool pool).HasSuper target sup →
          ∃ file, pool.get? sup = some file ∧ file.hasStaticInitializer = false := by
    simpa only [Hierarchy.exists_ofPool_iff] using
      Hierarchy.mayTriggerInitializer_eq_false_iff hacyclic user target
  refine ⟨hexact, fun hforeign hanswer name file hinitializes hget hinitializer => ?_⟩
  have hclasses := (hexact.mp hanswer).resolve_left hforeign
  have hclass : ¬ ReflTransGen (Hierarchy.ofPool pool).HasSuper target name := by
    intro hpath
    obtain ⟨file', hget', hnone⟩ := hclasses name hpath
    cases hget.symm.trans hget'
    rw [hinitializer] at hnone
    cases hnone
  cases hinitializes with
  | superclass hpath => exact absurd hpath hclass
  | interface _ _ _ hget' hinterface hbody =>
    cases hget.symm.trans hget'
    exact ⟨hclass, hinterface, hbody⟩

/-- A class that implements an interface with a method body and an initializer, and another class
that has nothing to do with them. -/
def implementer : ClassPool :=
  let file (name : String) (access : AccessFlags) (parent : Option String)
      (interfaces : List String) (methods : List Method) : ClassFile :=
    { name, superName := parent, interfaces, access, pool := .empty, fields := [], methods
      isLibrary := false }
  ⟨[{ file "java/lang/Object" 0x1 none [] [] with isLibrary := true },
    file "a/I" 0x601 (some "java/lang/Object") []
      [⟨0x101, "m", "()V", none⟩, ⟨0x108, "<clinit>", "()V", none⟩],
    file "a/T" 0x1 (some "java/lang/Object") ["a/I"] [],
    file "a/U" 0x1 (some "java/lang/Object") [] []]⟩

/-- The other class is not initialized by code of the implementing class, and neither it nor its
superclass has an initializer. -/
theorem mayTriggerInitializer_overlooks_implementer :
    (Hierarchy.ofPool implementer).Acyclic ∧
      (∀ sup, ReflTransGen (Hierarchy.ofPool implementer).HasSuper "a/U" sup →
        ∃ file, implementer.get? sup = some file ∧ file.hasStaticInitializer = false) ∧
      ∀ name file, implementer.Initializes "a/T" "a/U" name → implementer.get? name = some file →
        file.hasStaticInitializer = true → file.isInterface = true := by
  have hacyclic : (Hierarchy.ofPool implementer).Acyclic := Hierarchy.acyclic_of_rank
    ["java/lang/Object", "a/I", "a/T", "a/U"].idxOf (by decide +kernel)
  have hforeign : ¬ ReflTransGen (Hierarchy.ofPool implementer).HasSuper "a/T" "a/U" := by
    rw [← Hierarchy.onChain_iff hacyclic (Hierarchy.depth_lt_extent _ _)]
    decide +kernel
  have hanswer : (Hierarchy.ofPool implementer).mayTriggerInitializer "a/T" "a/U" = false := by
    decide +kernel
  obtain ⟨hexact, honly⟩ := mayTriggerInitializer_overlooks hacyclic "a/T" "a/U"
  refine ⟨hacyclic, (hexact.mp hanswer).resolve_left hforeign, ?_⟩
  intro name file hinitializes hget hinitializer
  exact (honly hforeign hanswer name file hinitializes hget hinitializer).2.1

/-- **An interface is overlooked.** Touching the implementing class may run the initializer of its
interface, in an acyclic hierarchy that has all that is above the class, but the answer is no. -/
theorem mayTriggerInitializer_overlooks_interface :
    (Hierarchy.ofPool implementer).Acyclic ∧
      (∃ file, implementer.get? "a/T" = some file ∧ file.isInterface = false) ∧
      (∀ sup, ReflTransGen (Hierarchy.ofPool implementer).Extends "a/T" sup →
        implementer.get? sup ≠ none) ∧
      ¬ ReflTransGen (Hierarchy.ofPool implementer).HasSuper "a/U" "a/T" ∧
      (Hierarchy.ofPool implementer).mayTriggerInitializer "a/U" "a/T" = false ∧
      implementer.Initializes "a/U" "a/T" "a/I" ∧
      ∃ file, implementer.get? "a/I" = some file ∧ file.hasStaticInitializer = true := by
  have hacyclic : (Hierarchy.ofPool implementer).Acyclic := Hierarchy.acyclic_of_rank
    ["java/lang/Object", "a/I", "a/T", "a/U"].idxOf (by decide +kernel)
  have hforeign : ¬ ReflTransGen (Hierarchy.ofPool implementer).HasSuper "a/U" "a/T" := by
    rw [← Hierarchy.onChain_iff hacyclic (Hierarchy.depth_lt_extent _ _)]
    decide +kernel
  refine ⟨hacyclic, ⟨_, rfl, by decide +kernel⟩, fun sup => ?_, hforeign, by decide +kernel, ?_,
    _, rfl, by decide +kernel⟩
  · exact ClassPool.get?_ne_none_of_closed (by decide +kernel) (by decide +kernel)
  · have hlists : (Hierarchy.ofPool implementer).Extends "a/T" "a/I" :=
      Hierarchy.extends_of_get? rfl (by decide +kernel)
    exact .interface .refl hforeign (.single hlists) rfl (by decide +kernel) (by decide +kernel)

end JvmTrim
