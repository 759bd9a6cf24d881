import JvmTrim.Hierarchy
import Mathlib.Algebra.GroupWithZero.Nat
import Mathlib.Data.List.Perm.Subperm
import Mathlib.Logic.Relation

/-!
# What is above and below a class

The questions that passes ask about a hierarchy are about paths: whether a class inherits from another
one, whether something above a class declares a method, which classes are below a class. They are
answered by walks with a list of pending classes and a bound. A walk visits a class once, so the
classes that it has not seen bound what it still has to do, and the bounds that the questions use
suffice on every hierarchy, with cycles or without.

Two of the walks go upwards and differ only in what they look for. `walk` is their common form.

## Main definitions

* `Hierarchy.Extends`, `Hierarchy.SubclassOf`: the edges of a hierarchy
* `Hierarchy.mayOffer`: whether a class may declare a method that can be overridden

## Main results

* `Hierarchy.isAssignable_iff`: inheriting from a class is a path upwards
* `Hierarchy.overrides_iff`: a method may override one that is declared above its class
* `Hierarchy.mem_allSubclasses_iff`, `Hierarchy.isOverridden_iff`: what is below a class
-/

namespace JvmTrim

open Relation

/-- Whether a class declares a method so that it can be overridden. -/
def ClassInfo.offers (info : ClassInfo) (name descriptor : String) : Bool :=
  (info.method? name descriptor).any fun m =>
    !m.access.hasAny (AccessFlags.private ||| AccessFlags.static)

namespace Hierarchy

variable {hierarchy : Hierarchy}

/-- The direct supertypes of a class; an unknown class has none. -/
def supertypesOf (hierarchy : Hierarchy) (name : String) : List String :=
  ((hierarchy.get? name).map (·.supertypes)).getD []

/-- Whether a known class lists another one as its superclass or among its superinterfaces. -/
def Extends (hierarchy : Hierarchy) (sub sup : String) : Prop := sup ∈ hierarchy.supertypesOf sub

/-- Whether a class has another one as its superclass. -/
def SubclassOf (hierarchy : Hierarchy) (sub sup : String) : Prop :=
  sub ∈ hierarchy.directSubclasses sup

/-- Whether a class declares a method so that it can be overridden, or is unknown. -/
def mayOffer (hierarchy : Hierarchy) (name descriptor owner : String) : Bool :=
  match hierarchy.get? owner with
  | none => true
  | some info => info.offers name descriptor

theorem get?_eq_some {name : String} {info : ClassInfo} (h : hierarchy.get? name = some info) :
    info ∈ hierarchy.classes ∧ info.name = name := by
  unfold get? at h
  exact ⟨List.mem_of_find?_eq_some h, by simpa using List.find?_some h⟩

theorem supertypesOf_of_get? {name : String} {info : ClassInfo}
    (h : hierarchy.get? name = some info) : hierarchy.supertypesOf name = info.supertypes := by
  simp [supertypesOf, h]

/-- A hierarchy in which every supertype has a smaller rank has no cycles. -/
theorem acyclic_of_rank (rank : String → Nat)
    (h : ∀ info ∈ hierarchy.classes, ∀ sup ∈ info.supertypes, rank sup < rank info.name)
    (name : String) : ¬ TransGen hierarchy.Extends name name := by
  have hedge {sub sup : String} (hextends : hierarchy.Extends sub sup) : rank sup < rank sub := by
    cases hget : hierarchy.get? sub with
    | none => simp [Extends, supertypesOf, hget] at hextends
    | some info =>
      obtain ⟨hmem, rfl⟩ := get?_eq_some hget
      rw [Extends, supertypesOf_of_get? hget] at hextends
      exact h info hmem sup hextends
  have hpath {sub sup : String} (hpath : TransGen hierarchy.Extends sub sup) :
      rank sup < rank sub := by
    induction hpath with
    | single hextends => exact hedge hextends
    | tail _ hextends ih => exact Nat.lt_trans (hedge hextends) ih
  exact fun hcycle => Nat.lt_irrefl _ (hpath hcycle)

/-! ## Walks upwards -/

/-- Whether a pending class or one above it is wanted; classes in `seen` are not visited again. -/
def walk (hierarchy : Hierarchy) (wanted : String → Bool) : Nat → List String → List String → Bool
  | _, [], _ => false
  | 0, _, _ => false
  | bound + 1, current :: pending, seen =>
    if seen.contains current then hierarchy.walk wanted bound pending seen
    else if wanted current then true
    else hierarchy.walk wanted bound ((hierarchy.supertypesOf current).reverse ++ pending)
      (current :: seen)

/-- Looking for one class; that one is never among the classes seen. -/
theorem reaches_eq_walk {goal : String} {bound : Nat} {pending seen : List String}
    (hgoal : goal ∉ seen) :
    hierarchy.reaches goal bound pending seen = hierarchy.walk (· == goal) bound pending seen := by
  fun_induction hierarchy.reaches goal bound pending seen with
  | case1 => simp [walk]
  | case2 => simp [walk]
  | case3 bound current pending seen hcurrent =>
    obtain rfl := eq_of_beq hcurrent
    simp [walk, hgoal]
  | case4 bound current pending seen hne hseen ih =>
    rw [walk, if_pos hseen]
    exact ih hgoal
  | case5 bound current pending seen hne hseen above ih =>
    rw [walk, if_neg hseen, if_neg hne]
    refine ih fun hmem => ?_
    rcases List.mem_cons.mp hmem with rfl | hmem
    · exact hne (beq_self_eq_true _)
    · exact hgoal hmem

theorem inheritsOverridable_eq_walk {name descriptor : String} {bound : Nat}
    {pending seen : List String} :
    hierarchy.inheritsOverridable name descriptor bound pending seen =
      hierarchy.walk (hierarchy.mayOffer name descriptor) bound pending seen := by
  fun_induction hierarchy.inheritsOverridable name descriptor bound pending seen with
  | case1 => simp [walk]
  | case2 => simp [walk]
  | case3 bound current pending seen hseen ih => rw [walk, if_pos hseen, ih]
  | case4 bound current pending seen hseen hget =>
    rw [walk, if_neg hseen, if_pos (by rw [mayOffer, hget])]
  | case5 bound current pending seen hseen info hget hoffers =>
    rw [walk, if_neg hseen, if_pos (by rw [mayOffer, hget]; exact hoffers)]
  | case6 bound current pending seen hseen info hget hoffers ih =>
    rw [walk, if_neg hseen, if_neg (by rw [mayOffer, hget]; exact hoffers), ih,
      supertypesOf_of_get? hget]

/-- **What a walk finds is there.** -/
theorem exists_of_walk {wanted : String → Bool} {bound : Nat} {pending seen : List String}
    (h : hierarchy.walk wanted bound pending seen = true) :
    ∃ start ∈ pending, ∃ found, ReflTransGen hierarchy.Extends start found ∧
      wanted found = true := by
  fun_induction hierarchy.walk wanted bound pending seen with
  | case1 => cases h
  | case2 => cases h
  | case3 bound current pending seen hseen ih =>
    obtain ⟨start, hstart, hfound⟩ := ih h
    exact ⟨start, List.mem_cons_of_mem _ hstart, hfound⟩
  | case4 bound current pending seen hseen hwanted =>
    exact ⟨current, List.mem_cons_self, current, .refl, hwanted⟩
  | case5 bound current pending seen hseen hwanted ih =>
    obtain ⟨start, hstart, found, hpath, hfound⟩ := ih h
    rcases List.mem_append.mp hstart with habove | hpending
    · exact ⟨current, List.mem_cons_self, found, .head (List.mem_reverse.mp habove) hpath, hfound⟩
    · exact ⟨start, List.mem_cons_of_mem _ hpending, found, hpath, hfound⟩

/-- Number of edges upwards from the classes that were not seen yet. -/
def unseen (hierarchy : Hierarchy) (seen : List String) : Nat :=
  (hierarchy.classes.map fun info =>
    if seen.contains info.name then 0 else info.supertypes.length).sum

theorem unseen_cons_le (hierarchy : Hierarchy) (current : String) (seen : List String) :
    hierarchy.unseen (current :: seen) ≤ hierarchy.unseen seen := by
  obtain ⟨classes⟩ := hierarchy
  unfold unseen
  induction classes with
  | nil => exact Nat.le_refl _
  | cons info classes ih =>
    refine Nat.add_le_add ?_ ih
    by_cases hseen : info.name ∈ seen
    · simp [hseen]
    · by_cases hcurrent : info.name = current
      · simp [hcurrent]
      · simp [hseen, hcurrent]

/-- Visiting a class for the first time leaves the other ones. -/
theorem unseen_cons (hierarchy : Hierarchy) {current : String} {seen : List String} (hnew : current ∉ seen) :
    hierarchy.unseen (current :: seen) + (hierarchy.supertypesOf current).length ≤
      hierarchy.unseen seen := by
  cases hget : hierarchy.get? current with
  | none => simpa [supertypesOf, hget] using hierarchy.unseen_cons_le current seen
  | some info =>
    obtain ⟨hmem, rfl⟩ := get?_eq_some hget
    rw [supertypesOf_of_get? hget]
    obtain ⟨front, rest, hsplit⟩ := List.append_of_mem hmem
    have hfront := unseen_cons_le ⟨front⟩ info.name seen
    have hrest := unseen_cons_le ⟨rest⟩ info.name seen
    simp only [unseen, hsplit, List.map_append, List.map_cons, List.sum_append, List.sum_cons,
      List.contains_iff_mem, hnew, List.mem_cons_self, if_true, if_false] at hfront hrest ⊢
    omega

theorem unseen_lt_extent (hierarchy : Hierarchy) (seen : List String) :
    hierarchy.unseen seen + 1 < hierarchy.extent := by
  obtain ⟨classes⟩ := hierarchy
  unfold unseen extent
  induction classes with
  | nil => exact Nat.lt_succ_self 1
  | cons info classes ih =>
    have hedges : info.supertypes.length ≤ 1 + info.interfaces.length := by
      have hsuper : info.superName.toList.length ≤ 1 := by
        cases info.superName with
        | none => exact Nat.zero_le 1
        | some parent => exact Nat.le_refl 1
      rw [ClassInfo.supertypes, List.length_append]
      omega
    simp only [List.map_cons, List.sum_cons, List.foldr_cons] at ih ⊢
    split <;> omega

/-- **A walk that finds nothing has been everywhere**: no class on a path from a pending one, or from
one seen before, is wanted. -/
theorem not_wanted_of_walk {wanted : String → Bool} {bound : Nat} {pending seen : List String}
    (h : hierarchy.walk wanted bound pending seen = false)
    (hroom : pending.length + hierarchy.unseen seen ≤ bound)
    (hseen : ∀ name ∈ seen, wanted name = false)
    (hclosed : ∀ name ∈ seen, ∀ sup, hierarchy.Extends name sup → sup ∈ seen ∨ sup ∈ pending)
    {start found : String} (hstart : start ∈ seen ∨ start ∈ pending)
    (hpath : ReflTransGen hierarchy.Extends start found) : wanted found = false := by
  fun_induction hierarchy.walk wanted bound pending seen generalizing start with
  | case1 bound seen =>
    have hfound : found ∈ seen := by
      induction hpath with
      | refl => simpa using hstart
      | tail _ hedge ih => simpa using hclosed _ ih _ hedge
    exact hseen found hfound
  | case2 pending seen hpending =>
    have := List.length_pos_of_ne_nil hpending
    omega
  | case3 bound current pending seen hcurrent ih =>
    -- seen before
    have hcurrent : current ∈ seen := List.contains_iff_mem.mp hcurrent
    have hdrop {name : String} (hname : name ∈ seen ∨ name ∈ current :: pending) :
        name ∈ seen ∨ name ∈ pending := by
      rcases hname with hname | hname
      · exact .inl hname
      · rcases List.mem_cons.mp hname with rfl | hname
        · exact .inl hcurrent
        · exact .inr hname
    refine ih h ?_ hseen (fun name hname sup hsup => hdrop (hclosed name hname sup hsup))
      (hdrop hstart) hpath
    rw [List.length_cons] at hroom
    omega
  | case4 => cases h
  | case5 bound current pending seen hcurrent hwanted ih =>
    -- a new class
    have hnew : current ∉ seen := fun hmem => hcurrent (List.contains_iff_mem.mpr hmem)
    have hmove {name : String} (hname : name ∈ seen ∨ name ∈ current :: pending) :
        name ∈ current :: seen ∨ name ∈ (hierarchy.supertypesOf current).reverse ++ pending := by
      rcases hname with hname | hname
      · exact .inl (List.mem_cons_of_mem _ hname)
      · rcases List.mem_cons.mp hname with rfl | hname
        · exact .inl List.mem_cons_self
        · exact .inr (List.mem_append_right _ hname)
    refine ih h ?_ ?_ ?_ (hmove hstart) hpath
    · have hless := hierarchy.unseen_cons hnew
      rw [List.length_cons] at hroom
      rw [List.length_append, List.length_reverse]
      omega
    · intro name hname
      rcases List.mem_cons.mp hname with rfl | hname
      · exact Bool.eq_false_iff.mpr hwanted
      · exact hseen name hname
    · intro name hname sup hsup
      rcases List.mem_cons.mp hname with rfl | hname
      · exact .inr (List.mem_append_left _ (List.mem_reverse.mpr hsup))
      · exact hmove (hclosed name hname sup hsup)

/-- A walk finds exactly what is on a path upwards, if its bound allows for all edges. -/
theorem walk_iff {wanted : String → Bool} {bound : Nat} {pending : List String}
    (hroom : pending.length + hierarchy.unseen [] ≤ bound) :
    hierarchy.walk wanted bound pending [] = true ↔ ∃ start ∈ pending, ∃ found,
      ReflTransGen hierarchy.Extends start found ∧ wanted found = true := by
  constructor
  · exact exists_of_walk
  · rintro ⟨start, hstart, found, hpath, hfound⟩
    by_contra hnone
    have hnot := not_wanted_of_walk (Bool.eq_false_iff.mpr hnone) hroom (by simp) (by simp)
      (.inr hstart) hpath
    cases hfound.symm.trans hnot

/-- **Inheriting from a class is a path upwards.** -/
theorem isAssignable_iff {sub sup : String} :
    hierarchy.isAssignable sub sup = true ↔ ReflTransGen hierarchy.Extends sub sup := by
  have hroom := hierarchy.unseen_lt_extent []
  rw [isAssignable, reaches_eq_walk List.not_mem_nil,
    walk_iff (by rw [List.length_singleton]; omega)]
  simp

/-- **A method may override another one** exactly if something above its class is unknown or declares
the method so that it can be overridden; a method of an unknown class may. -/
theorem overrides_iff {owner name descriptor : String} :
    hierarchy.overrides owner name descriptor = true ↔ hierarchy.get? owner = none ∨
      ∃ sup, TransGen hierarchy.Extends owner sup ∧
        hierarchy.mayOffer name descriptor sup = true := by
  unfold overrides
  cases hget : hierarchy.get? owner with
  | none => simp
  | some info =>
    have hroom := hierarchy.unseen_lt_extent []
    simp only [reduceCtorEq, false_or]
    rw [inheritsOverridable_eq_walk, walk_iff (by rw [List.length_reverse]; omega)]
    constructor
    · rintro ⟨start, hstart, found, hpath, hfound⟩
      have hedge : hierarchy.Extends owner start := by
        rw [Extends, supertypesOf_of_get? hget]
        exact List.mem_reverse.mp hstart
      exact ⟨found, TransGen.head'_iff.mpr ⟨start, hedge, hpath⟩, hfound⟩
    · rintro ⟨found, hpath, hfound⟩
      obtain ⟨start, hedge, hpath⟩ := TransGen.head'_iff.mp hpath
      rw [Extends, supertypesOf_of_get? hget] at hedge
      exact ⟨start, List.mem_reverse.mpr hedge, found, hpath, hfound⟩

/-! ## Walks downwards -/

theorem mem_freshOf {seen values : List String} {value : String} :
    value ∈ freshOf seen values ↔ value ∈ values ∧ value ∉ seen := by
  have hstep (fresh : List String) : value ∈ values.foldl (fun fresh value =>
      if seen.contains value || fresh.contains value then fresh else fresh ++ [value]) fresh ↔
        value ∈ fresh ∨ value ∈ values ∧ value ∉ seen := by
    induction values generalizing fresh with
    | nil => simp
    | cons head tail ih =>
      rw [List.foldl_cons, ih]
      split
      · rename_i hold
        simp only [Bool.or_eq_true, List.contains_iff_mem] at hold
        grind
      · rename_i hnew
        simp only [Bool.or_eq_true, List.contains_iff_mem] at hnew
        grind
  simpa [freshOf] using hstep []

theorem nodup_freshOf (seen values : List String) : (freshOf seen values).Nodup := by
  have hstep (fresh : List String) (hfresh : fresh.Nodup) : (values.foldl (fun fresh value =>
      if seen.contains value || fresh.contains value then fresh else fresh ++ [value])
        fresh).Nodup := by
    induction values generalizing fresh with
    | nil => exact hfresh
    | cons head tail ih =>
      rw [List.foldl_cons]
      split
      · exact ih fresh hfresh
      · rename_i hnew
        simp only [Bool.or_eq_true, List.contains_iff_mem, not_or] at hnew
        exact ih _ (List.nodup_append.mpr ⟨hfresh, by simp, by grind⟩)
  exact hstep [] List.nodup_nil

theorem mem_directSubclasses {sub sup : String} :
    sub ∈ hierarchy.directSubclasses sup ↔
      ∃ info ∈ hierarchy.classes, info.superName = some sup ∧ info.name = sub := by
  simp [directSubclasses, and_assoc]

/-- Number of classes that were not found yet. -/
def unfound (hierarchy : Hierarchy) (found : List String) : Nat :=
  ((hierarchy.classes.map (·.name)).filter (!found.contains ·)).length

/-- What is found for the first time was among the classes not found yet. -/
theorem unfound_append (hierarchy : Hierarchy) {found fresh : List String} (hnodup : fresh.Nodup)
    (hnew : ∀ name ∈ fresh, name ∉ found ∧ name ∈ hierarchy.classes.map (·.name)) :
    hierarchy.unfound (found ++ fresh) + fresh.length ≤ hierarchy.unfound found := by
  unfold unfound
  generalize hierarchy.classes.map (·.name) = names at hnew ⊢
  have hfresh : fresh.length ≤
      ((names.filter (!found.contains ·)).filter (fresh.contains ·)).length := by
    refine (hnodup.subperm fun name hname => ?_).length_le
    simp [hnew name hname, hname]
  have hsplit : (names.filter (!found.contains ·)).length = _ :=
    List.length_eq_length_filter_add (fresh.contains ·)
  have hrest : (names.filter (!found.contains ·)).filter (!fresh.contains ·) =
      names.filter (!(found ++ fresh).contains ·) := by
    rw [List.filter_filter]
    refine List.filter_congr fun name _ => ?_
    simp [Bool.and_comm]
  rw [hrest] at hsplit
  omega

theorem unfound_lt_extent (hierarchy : Hierarchy) (found : List String) :
    hierarchy.unfound found + 1 < hierarchy.extent := by
  have hclasses : hierarchy.classes.length + 1 < hierarchy.extent := by
    obtain ⟨classes⟩ := hierarchy
    unfold extent
    induction classes with
    | nil => decide
    | cons info classes ih =>
      simp only [List.length_cons, List.foldr_cons] at ih ⊢
      omega
  have hall := List.length_filter_le (!found.contains ·) (hierarchy.classes.map (·.name))
  rw [List.length_map] at hall
  unfold unfound
  omega

variable {root : String}

/-- What is collected below pending classes is below the root if the pending classes are. -/
theorem subclass_of_mem_collectSubclasses {bound : Nat} {pending found : List String}
    (hpending : ∀ name ∈ pending, ReflTransGen hierarchy.SubclassOf name root)
    (hfound : ∀ name ∈ found, TransGen hierarchy.SubclassOf name root) :
    ∀ name ∈ hierarchy.collectSubclasses bound pending found,
      TransGen hierarchy.SubclassOf name root := by
  fun_induction hierarchy.collectSubclasses bound pending found with
  | case1 => exact hfound
  | case2 => exact hfound
  | case3 bound current pending found fresh ih =>
    have hfresh : ∀ name ∈ fresh, TransGen hierarchy.SubclassOf name root := by
      intro name hname
      have hedge : hierarchy.SubclassOf name current := (mem_freshOf.mp hname).1
      exact TransGen.head'_iff.mpr ⟨current, hedge, hpending current List.mem_cons_self⟩
    refine ih ?_ ?_
    · intro name hname
      rcases List.mem_append.mp hname with hname | hname
      · exact (hfresh name (List.mem_reverse.mp hname)).to_reflTransGen
      · exact hpending name (List.mem_cons_of_mem _ hname)
    · intro name hname
      rcases List.mem_append.mp hname with hname | hname
      · exact hfound name hname
      · exact hfresh name hname

/-- What is collected is closed under going downwards, if the bound allows for all classes and every
class is still pending or has all of its direct subclasses found. -/
theorem closed_collectSubclasses {bound : Nat} {pending found : List String}
    (hroom : pending.length + hierarchy.unfound found ≤ bound)
    (hclosed : ∀ name ∈ root :: found, name ∈ pending ∨
      ∀ sub, hierarchy.SubclassOf sub name → sub ∈ found) :
    ∀ name ∈ root :: hierarchy.collectSubclasses bound pending found,
      ∀ sub, hierarchy.SubclassOf sub name →
        sub ∈ hierarchy.collectSubclasses bound pending found := by
  fun_induction hierarchy.collectSubclasses bound pending found with
  | case1 bound found =>
    intro name hname
    exact (hclosed name hname).resolve_left List.not_mem_nil
  | case2 pending found hpending =>
    have := List.length_pos_of_ne_nil hpending
    omega
  | case3 bound current pending found fresh ih =>
    have hnew : ∀ name ∈ fresh, name ∉ found ∧ name ∈ hierarchy.classes.map (·.name) := by
      intro name hname
      obtain ⟨hdirect, hnot⟩ := mem_freshOf.mp hname
      obtain ⟨info, hinfo, -, rfl⟩ := mem_directSubclasses.mp hdirect
      exact ⟨hnot, List.mem_map_of_mem hinfo⟩
    refine ih ?_ ?_
    · have hless : hierarchy.unfound (found ++ fresh) + fresh.length ≤ hierarchy.unfound found :=
        hierarchy.unfound_append (nodup_freshOf _ _) hnew
      rw [List.length_cons] at hroom
      rw [List.length_append, List.length_reverse]
      omega
    · intro name hname
      have hcases : name ∈ root :: found ∨ name ∈ fresh := by
        rcases List.mem_cons.mp hname with rfl | hname
        · exact .inl List.mem_cons_self
        · exact (List.mem_append.mp hname).imp_left (List.mem_cons_of_mem _)
      rcases hcases with hname | hname
      · rcases hclosed name hname with hpending | hall
        · rcases List.mem_cons.mp hpending with rfl | hpending
          · refine .inr fun sub hsub => ?_
            by_cases hold : sub ∈ found
            · exact List.mem_append_left _ hold
            · exact List.mem_append_right _ (mem_freshOf.mpr ⟨hsub, hold⟩)
          · exact .inl (List.mem_append_right _ hpending)
        · exact .inr fun sub hsub => List.mem_append_left _ (hall sub hsub)
      · exact .inl (List.mem_append_left _ (List.mem_reverse.mpr hname))

/-- **The classes below a class** are those with a path of superclasses to it. -/
theorem mem_allSubclasses_iff {sub : String} :
    sub ∈ hierarchy.allSubclasses root ↔ TransGen hierarchy.SubclassOf sub root := by
  unfold allSubclasses
  constructor
  · refine subclass_of_mem_collectSubclasses ?_ (by simp) sub
    intro name hname
    rw [List.mem_singleton.mp hname]
  · intro hpath
    have hroom := hierarchy.unfound_lt_extent []
    have hbound : [root].length + hierarchy.unfound [] ≤ hierarchy.extent := by
      rw [List.length_singleton]
      omega
    have hstart : ∀ name ∈ [root], name ∈ [root] ∨
        ∀ sub, hierarchy.SubclassOf sub name → sub ∈ [] := fun _ hname => .inl hname
    have hclosed := closed_collectSubclasses hbound hstart
    induction hpath using TransGen.head_induction_on with
    | single hedge => exact hclosed root List.mem_cons_self _ hedge
    | head hedge _ ih => exact hclosed _ (List.mem_cons_of_mem _ ih) _ hedge

/-- **A method is overridden** exactly if a class below its own declares it. -/
theorem isOverridden_iff {owner name descriptor : String} :
    hierarchy.isOverridden owner name descriptor = true ↔ ∃ sub info,
      TransGen hierarchy.SubclassOf sub owner ∧ hierarchy.get? sub = some info ∧
        info.declaresMethod name descriptor = true := by
  rw [isOverridden, List.any_eq_true]
  constructor
  · rintro ⟨sub, hsub, hdeclares⟩
    cases hget : hierarchy.get? sub with
    | none => simp [hget] at hdeclares
    | some info =>
      rw [hget] at hdeclares
      exact ⟨sub, info, mem_allSubclasses_iff.mp hsub, hget, hdeclares⟩
  · rintro ⟨sub, info, hsub, hget, hdeclares⟩
    refine ⟨sub, mem_allSubclasses_iff.mpr hsub, ?_⟩
    rw [hget]
    exact hdeclares

end Hierarchy

end JvmTrim
