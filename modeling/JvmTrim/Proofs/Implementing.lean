import JvmTrim.Proofs.Privatizing

/-!
# Which method a call finds

A call by the class of the receiver finds the method of the first class, from that class upwards along
superclasses, that offers it. A method that overrides nothing above its own class may still be what
such a call finds: a class below it may implement an interface without declaring the method again.
Whether a method becomes private is decided by looking upwards from its own class and for
declarations below, so it misses such classes, and a call through the interface then finds nothing.

## Main definitions

* `ClassPool.Selects`: the class whose method a call finds
* `ClassPool.Implements`: whether a class has to offer a method because of an interface

## Main results

* `privatizeMethods_keeps_selection`: calls find nothing new, and they go on to find methods of classes
  that implement the interface themselves
* `privatizeMethods_hides_implementation`: a call stops finding the method of a class that does not
-/

namespace JvmTrim

open Relation

namespace ClassPool

/-- Whether a class is the first one from another class upwards along superclasses that offers a
method. -/
inductive Selects (pool : ClassPool) (name descriptor : String) : String → String → Prop
  | here {owner : String} {file : ClassFile} (hget : pool.get? owner = some file)
      (hoffers : file.offers name descriptor = true) : Selects pool name descriptor owner owner
  | above {owner parent found : String} {file : ClassFile} (hget : pool.get? owner = some file)
      (hoffers : file.offers name descriptor = false) (hparent : file.superName = some parent)
      (hfound : Selects pool name descriptor parent found) : Selects pool name descriptor owner found

/-- Whether a class inherits from an interface that offers a method. -/
def Implements (pool : ClassPool) (owner name descriptor : String) : Prop :=
  ∃ source file, (Hierarchy.ofPool pool).isAssignable owner source = true ∧
    pool.get? source = some file ∧ file.isInterface = true ∧ file.offers name descriptor = true

variable {pool : ClassPool} {name descriptor owner found : String}

theorem extends_of_superName {file : ClassFile} {parent : String} (hget : pool.get? owner = some file)
    (hparent : file.superName = some parent) : (Hierarchy.ofPool pool).Extends owner parent := by
  have hknown : (Hierarchy.ofPool pool).get? owner = some (ClassInfo.ofClass file) := by
    rw [Hierarchy.get?_ofPool, hget, Option.map_some]
  rw [Hierarchy.Extends, Hierarchy.supertypesOf_of_get? hknown]
  simp [ClassInfo.supertypes, ClassInfo.ofClass, hparent]

/-- The class that is selected is above, and offers the method. -/
theorem Selects.offers (h : pool.Selects name descriptor owner found) :
    ReflTransGen (Hierarchy.ofPool pool).Extends owner found ∧
      ∃ file, pool.get? found = some file ∧ file.offers name descriptor = true := by
  induction h with
  | here hget hoffers => exact ⟨.refl, _, hget, hoffers⟩
  | above hget _ hparent _ ih => exact ⟨.head (extends_of_superName hget hparent) ih.1, ih.2⟩

/-- No class is selected if there is none from a class upwards that offers the method. -/
theorem not_selects {parent : Option String} (hclass : (pool.get? owner).map (fun file =>
      (file.offers name descriptor, file.superName)) = some (false, parent))
    (habove : ∀ above ∈ parent, ¬ pool.Selects name descriptor above found) :
    ¬ pool.Selects name descriptor owner found := by
  intro hselects
  cases hselects with
  | here hget hoffers => simp [hget, hoffers] at hclass
  | above hget _ hparent hfound =>
    rw [hget, Option.map_some, Option.some_inj, Prod.mk.injEq, hparent] at hclass
    exact habove _ hclass.2.symm hfound

/-- A method may override what a class above its own offers. -/
theorem overrides_of_offers {file : ClassFile}
    (hpath : TransGen (Hierarchy.ofPool pool).Extends owner found)
    (hget : pool.get? found = some file) (hoffers : file.offers name descriptor = true) :
    (Hierarchy.ofPool pool).overrides owner name descriptor = true := by
  rw [Hierarchy.overrides_iff]
  refine .inr ⟨found, hpath, ?_⟩
  rw [Hierarchy.mayOffer_ofPool, hget]
  exact hoffers

end ClassPool

section

variable {pool after : ClassPool} {keep : KeepSet} {used : List MemberKey}
  {name descriptor owner found : String} {file changed : ClassFile}

/-- A class goes on to offer what overrides something above it. -/
theorem offers_eq_of_overrides (h : file.TightensTo (.ofPool pool) keep used changed)
    (hget : pool.get? owner = some file)
    (hover : (Hierarchy.ofPool pool).overrides owner name descriptor = true) :
    changed.offers name descriptor = file.offers name descriptor := by
  have hname : file.name = owner := by simpa using List.find?_some hget
  refine h.offers_eq fun method _ hmethod hdescriptor => ?_
  by_contra hhides
  obtain ⟨-, -, -, -, -, -, hnone, -⟩ := ClassFile.hides_iff.mp (Bool.not_eq_false _ ▸ hhides)
  rw [hname, hmethod, hdescriptor, hover] at hnone
  cases hnone

/-- A class goes on to offer what it implements. -/
theorem offers_eq_of_implements (h : file.TightensTo (.ofPool pool) keep used changed)
    (hget : pool.get? owner = some file) (himplements : pool.Implements owner name descriptor) :
    changed.offers name descriptor = file.offers name descriptor := by
  obtain ⟨source, interface, hassignable, hsource, hinterface, hoffers⟩ := himplements
  rcases reflTransGen_iff_eq_or_transGen.mp (Hierarchy.isAssignable_iff.mp hassignable) with
    rfl | hpath
  · cases hget.symm.trans hsource
    refine h.offers_eq fun method _ _ _ => ?_
    simp [ClassFile.hides, hinterface]
  · exact offers_eq_of_overrides h hget (ClassPool.overrides_of_offers hpath hsource hoffers)

/-- Calls find no other method than before. -/
theorem selects_of_selects
    (h : List.Forall₂ (ClassFile.TightensTo (.ofPool pool) keep used)
      pool.classes after.classes)
    (hselects : after.Selects name descriptor owner found) :
    pool.Selects name descriptor owner found := by
  induction hselects with
  | here hget hoffers =>
    obtain ⟨file, hfile, htightens⟩ := exists_original_of_get? h hget
    exact .here hfile (htightens.offers_of_offers hoffers)
  | above hget hoffers hparent _ ih =>
    obtain ⟨file, hfile, htightens⟩ := exists_original_of_get? h hget
    rw [htightens.superName_eq] at hparent
    obtain ⟨hpath, _, hfound, habove⟩ := ih.offers
    have hover := ClassPool.overrides_of_offers
      (.head' (ClassPool.extends_of_superName hfile hparent) hpath) hfound habove
    rw [offers_eq_of_overrides htightens hfile hover] at hoffers
    exact .above hfile hoffers hparent ih

/-- Calls go on to find the method of a class that implements the interface. -/
theorem selects_of_implements
    (h : List.Forall₂ (ClassFile.TightensTo (.ofPool pool) keep used)
      pool.classes after.classes)
    (hselects : pool.Selects name descriptor owner found)
    (himplements : pool.Implements found name descriptor) :
    after.Selects name descriptor owner found := by
  induction hselects with
  | here hget hoffers =>
    obtain ⟨changed, hchanged, htightens⟩ := exists_changed_of_get? h hget
    exact .here hchanged ((offers_eq_of_implements htightens hget himplements).trans hoffers)
  | above hget hoffers hparent _ ih =>
    obtain ⟨changed, hchanged, htightens⟩ := exists_changed_of_get? h hget
    have hstill : changed.offers name descriptor = false :=
      Bool.eq_false_iff.mpr fun hnew => by simp [htightens.offers_of_offers hnew] at hoffers
    exact .above hchanged hstill (htightens.superName_eq.trans hparent) (ih himplements)

end

/-- **Making methods private keeps what calls find**, from every class and for every method, as long as
the class of the method that is found implements an interface with that method itself. Otherwise a
call may find nothing, but it never finds another method. -/
theorem privatizeMethods_keeps_selection {pool after : ClassPool} {keep : KeepSet} {count : Nat}
    (hrun : (privatizeMethods (.ofPool pool) keep).apply pool = (.ok count, after))
    (owner name descriptor found : String) :
    (after.Selects name descriptor owner found → pool.Selects name descriptor owner found) ∧
      (pool.Implements found name descriptor → pool.Selects name descriptor owner found →
        after.Selects name descriptor owner found) := by
  have htightens := privatizeMethods_eq_ok hrun
  constructor
  · exact selects_of_selects htightens
  · intro himplements hselects
    exact selects_of_implements htightens hselects himplements

/-- An interface with a method, a class that declares that method and another one, with given flags,
and a class below it that declares neither. Either class may implement the interface. -/
def service (asked other : AccessFlags) (base derived : List String) : ClassPool :=
  let file (name : String) (parent : Option String) (interfaces : List String)
      (methods : List Method) : ClassFile :=
    { name, superName := parent, interfaces, access := 0x1, pool := .empty, fields := []
      methods, isLibrary := false }
  ⟨[{ file "java/lang/Object" none [] [] with isLibrary := true },
    { file "a/I" (some "java/lang/Object") [] [⟨0x401, "m", "()V", none⟩] with access := 0x601 },
    file "a/B" (some "java/lang/Object") base [⟨asked, "m", "()V", none⟩, ⟨other, "h", "()V", none⟩],
    file "a/K" (some "a/B") derived []]⟩

/-- A class that implements the interface itself keeps the method, and makes only the other one
private. -/
theorem privatizeMethods_keeps_selection_service :
    (privatizeMethods (.ofPool (service 0x101 0x101 ["a/I"] [])) .empty).apply
        (service 0x101 0x101 ["a/I"] []) = (.ok 1, service 0x101 0x102 ["a/I"] []) ∧
      (service 0x101 0x102 ["a/I"] []).Selects "m" "()V" "a/K" "a/B" := by
  have hrun : (privatizeMethods (.ofPool (service 0x101 0x101 ["a/I"] [])) .empty).apply
      (service 0x101 0x101 ["a/I"] []) = (.ok 1, service 0x101 0x102 ["a/I"] []) := by
    refine Prod.ext (Except.eq_ok_of_toOption ?_) ?_
    · decide +kernel
    · decide +kernel
  refine ⟨hrun, (privatizeMethods_keeps_selection hrun _ _ _ _).2 ?_ ?_⟩
  · exact ⟨"a/I", _, by decide +kernel, rfl, rfl, rfl⟩
  · exact .above rfl rfl rfl (.here rfl rfl)

/-- **A call stops finding a method**: a class inherits the method that an interface of its own asks
for from a class that knows nothing of the interface, and there the method becomes private. -/
theorem privatizeMethods_hides_implementation :
    (∀ name, ¬ TransGen (Hierarchy.ofPool (service 0x101 0x101 [] ["a/I"])).Extends name name) ∧
      (service 0x101 0x101 [] ["a/I"]).Implements "a/K" "m" "()V" ∧
      (service 0x101 0x101 [] ["a/I"]).Selects "m" "()V" "a/K" "a/B" ∧
      (privatizeMethods (.ofPool (service 0x101 0x101 [] ["a/I"])) .empty).apply
        (service 0x101 0x101 [] ["a/I"]) = (.ok 2, service 0x102 0x102 [] ["a/I"]) ∧
      ∀ found, ¬ (service 0x102 0x102 [] ["a/I"]).Selects "m" "()V" "a/K" found := by
  refine ⟨?_, ?_, .above rfl rfl rfl (.here rfl rfl), ?_, fun found => ?_⟩
  · exact Hierarchy.acyclic_of_rank ["java/lang/Object", "a/I", "a/B", "a/K"].idxOf
      (by decide +kernel)
  · exact ⟨"a/I", _, by decide +kernel, rfl, rfl, rfl⟩
  · refine Prod.ext (Except.eq_ok_of_toOption ?_) ?_
    · decide +kernel
    · decide +kernel
  · refine ClassPool.not_selects rfl fun above habove => ?_
    cases habove
    refine ClassPool.not_selects rfl fun above habove => ?_
    cases habove
    exact ClassPool.not_selects rfl nofun

end JvmTrim
