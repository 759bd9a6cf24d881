import JvmTrim.Proofs.HierarchyShape

/-!
# References lead to what declares them

A member reference is resolved by one of three searches. A method is looked for along the
superclasses first, and then in the superinterfaces of all of them, depth first and with a record of
the interfaces that were looked at. A field is looked for in everything above the class. What the
searches find is above the class and declares the member, and a method is found where the chain of
superclasses declares it first.

That nothing is missed needs the hierarchy to be acyclic, and not only for the searches to end. The
search in the superinterfaces passes over an interface that it has seen. All that such an interface
inherits has been looked at as well, unless the search is still on its way through it; but then the
class that lists the interface is above it, which closes a cycle.

A class that is neither a superclass of the referenced class nor listed as an interface by anything
above it is not asked for methods. It can only be the superclass of an interface.

## Main definitions

* `Hierarchy.Acyclic`, `Hierarchy.depth`: how far a class is from the top
* `Hierarchy.HasSuper`, `Hierarchy.ListsAbove`: superclasses, and interfaces that are inherited
* `Hierarchy.First`: the first class along superclasses that satisfies a test
* `Hierarchy.Searched`: what a search in superinterfaces leaves behind
* `Hierarchy.Exhausts`: searches in superinterfaces that miss none of them
* `Hierarchy.Bypassed`: being above a class and not being asked for methods
* `ClassPool.Declares`: declaring the member that a reference names

## Main results

* `Hierarchy.exhausts_of_depth`: the search in superinterfaces misses none of them
* `resolve?_sound_and_complete`: what a reference leads to
* `resolve?_misses_superclass_of_interface`: a superclass of an interface is not asked
-/

namespace JvmTrim

open Relation

namespace Hierarchy

variable {hierarchy : Hierarchy}

/-! ## Distance from the top -/

/-- Whether no class is above itself. -/
def Acyclic (hierarchy : Hierarchy) : Prop := ∀ name, ¬ TransGen hierarchy.Extends name name

/-- Number of known classes that are above a class or the class itself. -/
def depth (hierarchy : Hierarchy) (name : String) : Nat :=
  hierarchy.classes.countP fun info => hierarchy.isAssignable name info.name

theorem depth_lt_extent (hierarchy : Hierarchy) (name : String) :
    hierarchy.depth name < hierarchy.extent := by
  have hall : hierarchy.unfound [] = hierarchy.classes.length := by simp [unfound]
  have hextent := hierarchy.unfound_lt_extent []
  have hcount : hierarchy.depth name ≤ hierarchy.classes.length := List.countP_le_length
  omega

theorem exists_get?_of_extends {sub sup : String} (h : hierarchy.Extends sub sup) :
    ∃ info, hierarchy.get? sub = some info ∧ sup ∈ info.supertypes := by
  cases hget : hierarchy.get? sub with
  | none => simp [Extends, supertypesOf, hget] at h
  | some info =>
    rw [Extends, supertypesOf_of_get? hget] at h
    exact ⟨info, rfl, h⟩

theorem extends_of_get? {sub sup : String} {info : ClassInfo}
    (hget : hierarchy.get? sub = some info) (h : sup ∈ info.supertypes) :
    hierarchy.Extends sub sup := by
  rw [Extends, supertypesOf_of_get? hget]
  exact h

/-- A known class has a depth. -/
theorem depth_pos_of_get? {name : String} {info : ClassInfo} (h : hierarchy.get? name = some info) :
    0 < hierarchy.depth name := by
  obtain ⟨hmem, rfl⟩ := get?_eq_some h
  exact List.countP_pos_iff.mpr ⟨info, hmem, isAssignable_iff.mpr .refl⟩

theorem get?_eq_none_of_depth {name : String} (h : hierarchy.depth name ≤ 0) :
    hierarchy.get? name = none := by
  by_contra hknown
  obtain ⟨info, hget⟩ := Option.ne_none_iff_exists'.mp hknown
  have := depth_pos_of_get? hget
  omega

/-- **Every step upwards is a step closer to the top.** -/
theorem depth_lt_of_extends (hacyclic : hierarchy.Acyclic) {sub sup : String}
    (h : hierarchy.Extends sub sup) : hierarchy.depth sup < hierarchy.depth sub := by
  obtain ⟨info, hget, -⟩ := exists_get?_of_extends h
  obtain ⟨hmem, rfl⟩ := get?_eq_some hget
  obtain ⟨front, rest, hsplit⟩ := List.append_of_mem hmem
  have hmono (classes : List ClassInfo) :
      classes.countP (fun other => hierarchy.isAssignable sup other.name) ≤
        classes.countP (fun other => hierarchy.isAssignable info.name other.name) := by
    refine List.countP_mono_left fun other _ hother => isAssignable_iff.mpr ?_
    exact .head h (isAssignable_iff.mp hother)
  have hself : hierarchy.isAssignable info.name info.name = true := isAssignable_iff.mpr .refl
  have hnot : hierarchy.isAssignable sup info.name = false := by
    by_contra hback
    exact hacyclic _ (.head' h (isAssignable_iff.mp (by simpa using hback)))
  have hfront := hmono front
  have hrest := hmono rest
  rw [depth, depth, hsplit]
  simp only [List.countP_append, List.countP_cons, hself, hnot, if_true, Bool.false_eq_true,
    if_false]
  omega

/-! ## Along superclasses -/

/-- Whether a known class has another one as its superclass. -/
def HasSuper (hierarchy : Hierarchy) (sub sup : String) : Prop := hierarchy.superOf? sub = some sup

theorem HasSuper.exists_get? {sub sup : String} (h : hierarchy.HasSuper sub sup) :
    ∃ info, hierarchy.get? sub = some info ∧ info.superName = some sup :=
  Option.bind_eq_some_iff.mp h

theorem hasSuper_of_get? {sub sup : String} {info : ClassInfo}
    (hget : hierarchy.get? sub = some info) (h : info.superName = some sup) :
    hierarchy.HasSuper sub sup := by
  rw [HasSuper, superOf?, hget, Option.bind_some, h]

theorem HasSuper.extends {sub sup : String} (h : hierarchy.HasSuper sub sup) :
    hierarchy.Extends sub sup := by
  obtain ⟨info, hget, hsuper⟩ := h.exists_get?
  exact extends_of_get? hget (by simp [ClassInfo.supertypes, hsuper])

theorem reflTransGen_extends {sub sup : String} (h : ReflTransGen hierarchy.HasSuper sub sup) :
    ReflTransGen hierarchy.Extends sub sup :=
  h.lift id fun _ _ hstep => hstep.extends

/-- Whether a class is the first one from another class upwards along superclasses that satisfies a
test. -/
inductive First (hierarchy : Hierarchy) (test : ClassInfo → Bool) : String → String → Prop
  | here {name : String} {info : ClassInfo} (hget : hierarchy.get? name = some info)
      (htest : test info = true) : First hierarchy test name name
  | above {name parent found : String} {info : ClassInfo} (hget : hierarchy.get? name = some info)
      (htest : test info = false) (hparent : info.superName = some parent)
      (hfound : First hierarchy test parent found) : First hierarchy test name found

namespace First

variable {test : ClassInfo → Bool} {name found : String}

theorem passes (h : hierarchy.First test name found) : ReflTransGen hierarchy.HasSuper name found ∧
    ∃ info, hierarchy.get? found = some info ∧ test info = true := by
  induction h with
  | here hget htest => exact ⟨.refl, _, hget, htest⟩
  | above hget _ hparent _ ih => exact ⟨.head (hasSuper_of_get? hget hparent) ih.1, ih.2⟩

/-- No class before the first one satisfies the test. -/
theorem none_before (hacyclic : hierarchy.Acyclic) (h : hierarchy.First test name found)
    {before : String} {info : ClassInfo} (hbefore : ReflTransGen hierarchy.HasSuper name before)
    (hfound : TransGen hierarchy.HasSuper before found) (hget : hierarchy.get? before = some info) :
    test info = false := by
  induction h with
  | @here name =>
    have hcycle : TransGen hierarchy.HasSuper name name := .trans_right hbefore hfound
    exact absurd (hcycle.lift id fun _ _ hstep => hstep.extends) (hacyclic name)
  | above hget' htest hparent _ ih =>
    rcases hbefore.cases_head with rfl | ⟨next, hstep, hbefore⟩
    · cases hget.symm.trans hget'
      exact htest
    · cases hstep.symm.trans (hasSuper_of_get? hget' hparent)
      exact ih hbefore hfound

/-- If a class along superclasses satisfies the test, one of them is the first. -/
theorem exists_of_passes {sup : String} (h : ReflTransGen hierarchy.HasSuper name sup)
    {info : ClassInfo} (hget : hierarchy.get? sup = some info) (htest : test info = true) :
    ∃ found, hierarchy.First test name found := by
  induction h using ReflTransGen.head_induction_on with
  | refl => exact ⟨sup, .here hget htest⟩
  | @head below above hstep _ ih =>
    obtain ⟨found, hfound⟩ := ih
    obtain ⟨info', hget', hsuper⟩ := hstep.exists_get?
    cases htest' : test info' with
    | true => exact ⟨below, .here hget' htest'⟩
    | false => exact ⟨found, .above hget' htest' hsuper hfound⟩

end First

section

variable {test : ClassInfo → Bool} {bound : Nat} {name found : String}

/-- The walk along superclasses finds the first class that satisfies the test. -/
theorem findOnChain?_of_first (hacyclic : hierarchy.Acyclic)
    (hbound : hierarchy.depth name ≤ bound) (h : hierarchy.First test name found) :
    hierarchy.findOnChain? test bound (some name) = some (some found) := by
  induction bound generalizing name with
  | zero =>
    cases h with
    | here hget | above hget =>
      have := depth_pos_of_get? hget
      omega
  | succ bound ih =>
    cases h with
    | here hget htest =>
      simp only [findOnChain?, hget, htest, if_true, (get?_eq_some hget).2]
    | above hget htest hparent hfound =>
      have hless := depth_lt_of_extends hacyclic (hasSuper_of_get? hget hparent).extends
      simp only [findOnChain?, hget, htest, hparent, Bool.false_eq_true, if_false]
      exact ih (by omega) hfound

theorem first_of_findOnChain?
    (h : hierarchy.findOnChain? test bound (some name) = some (some found)) :
    hierarchy.First test name found := by
  induction bound generalizing name with
  | zero => cases h
  | succ bound ih =>
    rw [findOnChain?] at h
    split at h
    · cases h
    · rename_i info hget
      split at h
      · rename_i htest
        cases h
        rw [(get?_eq_some hget).2]
        exact .here hget htest
      · rename_i htest
        cases hparent : info.superName with
        | none =>
          rw [hparent] at h
          cases bound <;> cases h
        | some parent =>
          rw [hparent] at h
          exact .above hget (by simpa using htest) hparent (ih h)

/-- A walk that leaves the known classes has come to an unknown one. -/
theorem exists_unknown_of_findOnChain? (hacyclic : hierarchy.Acyclic)
    (hbound : hierarchy.depth name ≤ bound)
    (h : hierarchy.findOnChain? test bound (some name) = none) :
    ∃ sup, ReflTransGen hierarchy.HasSuper name sup ∧ hierarchy.get? sup = none := by
  induction bound generalizing name with
  | zero => exact ⟨name, .refl, get?_eq_none_of_depth hbound⟩
  | succ bound ih =>
    rw [findOnChain?] at h
    split at h
    · rename_i hget
      exact ⟨name, .refl, hget⟩
    · rename_i info hget
      split at h
      · cases h
      · cases hparent : info.superName with
        | none =>
          rw [hparent] at h
          cases bound <;> cases h
        | some parent =>
          have hstep := hasSuper_of_get? hget hparent
          have hless := depth_lt_of_extends hacyclic hstep.extends
          rw [hparent] at h
          obtain ⟨sup, hpath, hunknown⟩ := ih (by omega) h
          exact ⟨sup, .head hstep hpath, hunknown⟩

end

/-! ## In superinterfaces -/

/-- Whether a class or one above it lists an interface. -/
def ListsAbove (hierarchy : Hierarchy) (start interface : String) : Prop :=
  ∃ sub info, ReflTransGen hierarchy.Extends start sub ∧ hierarchy.get? sub = some info ∧
    interface ∈ info.interfaces

theorem ListsAbove.reflTransGen {start interface : String}
    (h : hierarchy.ListsAbove start interface) :
    ReflTransGen hierarchy.Extends start interface := by
  obtain ⟨sub, info, hpath, hget, hlists⟩ := h
  exact hpath.tail (extends_of_get? hget (List.mem_append_right _ hlists))

theorem ListsAbove.head {sub sup interface : String} (hstep : hierarchy.Extends sub sup)
    (h : hierarchy.ListsAbove sup interface) : hierarchy.ListsAbove sub interface := by
  obtain ⟨lister, info, hpath, hget, hlists⟩ := h
  exact ⟨lister, info, .head hstep hpath, hget, hlists⟩

/-- What a class lists itself, and what its supertypes list. -/
theorem listsAbove_cases {start interface : String} {info : ClassInfo}
    (hget : hierarchy.get? start = some info) (h : hierarchy.ListsAbove start interface) :
    interface ∈ info.interfaces ∨ ∃ sup ∈ info.supertypes, hierarchy.ListsAbove sup interface := by
  obtain ⟨lister, info', hpath, hget', hlists⟩ := h
  rcases hpath.cases_head with rfl | ⟨sup, hstep, hpath⟩
  · cases hget.symm.trans hget'
    exact .inl hlists
  · rw [Extends, supertypesOf_of_get? hget] at hstep
    exact .inr ⟨sup, hstep, lister, info', hpath, hget', hlists⟩

/-- Whether a known class declares a method. -/
def declaresMethod (hierarchy : Hierarchy) (name descriptor owner : String) : Bool :=
  ((hierarchy.get? owner).map (·.declaresMethod name descriptor)).getD false

section

variable (hierarchy : Hierarchy) (name descriptor : String)

/-- Looks at one more interface, unless the method was found before. -/
def lookAt (bound : Nat) (state : Option String × List String) (interface : String) :
    Option String × List String :=
  if state.1.isSome then (state.1, state.2)
  else if state.2.contains interface then (none, state.2)
  else if hierarchy.declaresMethod name descriptor interface then
    (some interface, interface :: state.2)
  else hierarchy.findInInterfaces name descriptor bound interface (interface :: state.2)

/-- What a search in superinterfaces leaves behind that found nothing: the interfaces that were seen
do not declare the method, and whatever they inherit was seen as well, but for those through which
the search is still on its way. -/
structure Searched (pending : String → Prop) (seen : List String) : Prop where
  silent : ∀ interface ∈ seen, hierarchy.declaresMethod name descriptor interface = false
  closed : ∀ interface ∈ seen, pending interface ∨
    ∀ above, hierarchy.ListsAbove interface above → above ∈ seen

/-- What a search in the superinterfaces of a class adds to what was seen, if it finds nothing. -/
structure SearchedAbove (pending : String → Prop) (start : String) (seen seen' : List String) :
    Prop where
  kept : seen ⊆ seen'
  searched : hierarchy.Searched name descriptor pending seen'
  above : ∀ above, hierarchy.ListsAbove start above → above ∈ seen'

/-- Whether the search that starts at a class looks at all interfaces that are listed above it if it
finds nothing, on its way from whichever classes below. -/
def Exhausts (bound : Nat) (start : String) : Prop :=
  ∀ (pending : String → Prop) (seen seen' : List String),
    hierarchy.findInInterfaces name descriptor bound start seen = (none, seen') →
    hierarchy.Searched name descriptor pending seen →
    (∀ below, pending below → ReflTransGen hierarchy.Extends below start) →
    hierarchy.SearchedAbove name descriptor pending start seen seen'

end

section

variable {name descriptor : String} {bound : Nat} {current found : String} {info : ClassInfo}
  {seen seen' : List String} {state : Option String × List String}

theorem findInInterfaces_succ (hget : hierarchy.get? current = some info)
    (hfold : info.interfaces.foldl (hierarchy.lookAt name descriptor bound) (none, seen) = state) :
    hierarchy.findInInterfaces name descriptor (bound + 1) current seen =
      match state.1, info.superName with
      | some owner, _ => (some owner, state.2)
      | none, none => (none, state.2)
      | none, some parent => hierarchy.findInInterfaces name descriptor bound parent state.2 := by
  subst hfold
  rw [findInInterfaces, hget]
  rfl

theorem foldl_lookAt_some {interfaces : List String} :
    interfaces.foldl (hierarchy.lookAt name descriptor bound) (some found, seen) =
      (some found, seen) := by
  induction interfaces with
  | nil => rfl
  | cons head tail ih => exact ih

/-- A fold that found nothing found nothing at its first interface. -/
theorem exists_of_foldl_lookAt {head : String} {tail : List String}
    (h : (head :: tail).foldl (hierarchy.lookAt name descriptor bound) (none, seen) =
      (none, seen')) :
    ∃ next, hierarchy.lookAt name descriptor bound (none, seen) head = (none, next) ∧
      tail.foldl (hierarchy.lookAt name descriptor bound) (none, next) = (none, seen') := by
  rw [List.foldl_cons] at h
  rcases hlook : hierarchy.lookAt name descriptor bound (none, seen) head with ⟨found?, next⟩
  rw [hlook] at h
  cases found? with
  | none => exact ⟨next, rfl, h⟩
  | some found =>
    rw [foldl_lookAt_some] at h
    cases h

/-- What the interfaces of a class lead to is listed above the class, given that this holds of the
searches that start at one of them. -/
theorem listsAbove_of_foldl_lookAt (hget : hierarchy.get? current = some info)
    {interfaces : List String} (hsub : interfaces ⊆ info.interfaces)
    (hinner : ∀ {interface : String} {seen seen' : List String},
      hierarchy.findInInterfaces name descriptor bound interface seen = (some found, seen') →
      hierarchy.ListsAbove interface found ∧
        hierarchy.declaresMethod name descriptor found = true)
    (h : interfaces.foldl (hierarchy.lookAt name descriptor bound) (none, seen) =
      (some found, seen')) :
    hierarchy.ListsAbove current found ∧ hierarchy.declaresMethod name descriptor found = true := by
  induction interfaces generalizing seen with
  | nil => cases h
  | cons head tail ih =>
    obtain ⟨hhead, htail⟩ := List.cons_subset.mp hsub
    rw [List.foldl_cons] at h
    rcases hlook : hierarchy.lookAt name descriptor bound (none, seen) head with ⟨found?, next⟩
    rw [hlook] at h
    cases found? with
    | none => exact ih htail h
    | some owner =>
      rw [foldl_lookAt_some] at h
      cases h
      simp only [lookAt, Option.isSome_none, Bool.false_eq_true, if_false] at hlook
      split at hlook
      · cases hlook
      · split at hlook
        · rename_i hdeclares
          cases hlook
          exact ⟨⟨current, info, .refl, hget, hhead⟩, hdeclares⟩
        · have hstep := extends_of_get? hget (List.mem_append_right _ hhead)
          exact (hinner hlook).imp_left (.head hstep)

/-- **What the search in superinterfaces finds** is listed above the class, and declares the
method. -/
theorem listsAbove_of_findInInterfaces
    (h : hierarchy.findInInterfaces name descriptor bound current seen = (some found, seen')) :
    hierarchy.ListsAbove current found ∧ hierarchy.declaresMethod name descriptor found = true := by
  induction bound generalizing current seen seen' with
  | zero => cases h
  | succ bound ih =>
    cases hget : hierarchy.get? current with
    | none =>
      rw [findInInterfaces, hget] at h
      cases h
    | some info =>
      rcases hstate : info.interfaces.foldl (hierarchy.lookAt name descriptor bound) (none, seen)
        with ⟨found?, next⟩
      rw [findInInterfaces_succ hget hstate] at h
      cases found? with
      | some owner =>
        cases h
        exact listsAbove_of_foldl_lookAt hget (List.Subset.refl _) ih hstate
      | none =>
        cases hparent : info.superName with
        | none =>
          rw [hparent] at h
          cases h
        | some parent =>
          rw [hparent] at h
          exact (ih h).imp_left (.head (hasSuper_of_get? hget hparent).extends)

theorem not_listsAbove_of_unknown (hget : hierarchy.get? current = none) (above : String) :
    ¬ hierarchy.ListsAbove current above := by
  rintro ⟨sub, info, hpath, hget', -⟩
  rcases hpath.cases_head with rfl | ⟨_, hstep, -⟩
  · cases hget.symm.trans hget'
  · obtain ⟨_, hget', -⟩ := exists_get?_of_extends hstep
    cases hget.symm.trans hget'

/-- Looking at one interface, given that the search that starts there misses none. -/
theorem searchedAbove_of_lookAt (hacyclic : hierarchy.Acyclic) {pending : String → Prop}
    {interface : String} {next : List String} (hstep : hierarchy.Extends current interface)
    (hinner : hierarchy.Exhausts name descriptor bound interface)
    (hlook : hierarchy.lookAt name descriptor bound (none, seen) interface = (none, next))
    (hseen : hierarchy.Searched name descriptor pending seen)
    (hpending : ∀ below, pending below → ReflTransGen hierarchy.Extends below current) :
    interface ∈ next ∧ hierarchy.SearchedAbove name descriptor pending interface seen next := by
  simp only [lookAt, Option.isSome_none, Bool.false_eq_true, if_false] at hlook
  split at hlook
  · rename_i hmem
    cases hlook
    have hmem : interface ∈ seen := List.contains_iff_mem.mp hmem
    refine ⟨hmem, List.Subset.refl _, hseen, ?_⟩
    refine (hseen.closed interface hmem).resolve_left fun hopen => ?_
    exact hacyclic current (.head' hstep (hpending interface hopen))
  · split at hlook
    · cases hlook
    · rename_i hsilent
      have hopened : hierarchy.Searched name descriptor
          (fun below => pending below ∨ below = interface) (interface :: seen) := by
        constructor
        · intro other hother
          rcases List.mem_cons.mp hother with rfl | hother
          · simpa using hsilent
          · exact hseen.silent other hother
        · intro other hother
          rcases List.mem_cons.mp hother with rfl | hother
          · exact .inl (.inr rfl)
          · exact (hseen.closed other hother).imp .inl fun habove above hlists =>
              List.mem_cons_of_mem _ (habove above hlists)
      obtain ⟨hkept, hsearched, habove⟩ := hinner _ _ _ hlook hopened fun below hbelow =>
        hbelow.elim (fun hopen => (hpending below hopen).tail hstep) (fun heq => heq ▸ .refl)
      obtain ⟨hmem, hkept⟩ := List.cons_subset.mp hkept
      refine ⟨hmem, hkept, ⟨hsearched.silent, fun other hother => ?_⟩, habove⟩
      rcases hsearched.closed other hother with (hopen | rfl) | hall
      · exact .inl hopen
      · exact .inr habove
      · exact .inr hall

/-- Looking at one interface after the other: what is seen at one of them stays seen. -/
theorem searched_of_foldl_lookAt (hacyclic : hierarchy.Acyclic) {pending : String → Prop}
    {interfaces : List String}
    (hsteps : ∀ interface ∈ interfaces, hierarchy.Extends current interface)
    (hinner : ∀ interface ∈ interfaces, hierarchy.Exhausts name descriptor bound interface)
    (h : interfaces.foldl (hierarchy.lookAt name descriptor bound) (none, seen) = (none, seen'))
    (hseen : hierarchy.Searched name descriptor pending seen)
    (hpending : ∀ below, pending below → ReflTransGen hierarchy.Extends below current) :
    seen ⊆ seen' ∧ hierarchy.Searched name descriptor pending seen' ∧
      ∀ interface ∈ interfaces, interface ∈ seen' ∧
        ∀ above, hierarchy.ListsAbove interface above → above ∈ seen' := by
  induction interfaces generalizing seen with
  | nil =>
    cases h
    exact ⟨List.Subset.refl _, hseen, by simp⟩
  | cons head tail ih =>
    obtain ⟨hstep, hsteps⟩ := List.forall_mem_cons.mp hsteps
    obtain ⟨hhead, htail⟩ := List.forall_mem_cons.mp hinner
    obtain ⟨next, hlook, hrest⟩ := exists_of_foldl_lookAt h
    obtain ⟨hmem, hnext⟩ := searchedAbove_of_lookAt hacyclic hstep hhead hlook hseen hpending
    obtain ⟨hkept, hlast, hall⟩ := ih hsteps htail hrest hnext.searched
    refine ⟨List.Subset.trans hnext.kept hkept, hlast, List.forall_mem_cons.mpr ⟨?_, hall⟩⟩
    exact ⟨hkept hmem, fun above habove => hkept (hnext.above above habove)⟩

/-- **The search in superinterfaces misses none of them.** If it finds nothing, all interfaces that
are listed above the class have been seen, and none of them declares the method. -/
theorem exhausts_of_depth (hacyclic : hierarchy.Acyclic)
    (hbound : hierarchy.depth current ≤ bound) :
    hierarchy.Exhausts name descriptor bound current := by
  induction bound generalizing current with
  | zero =>
    intro pending seen seen' h hseen _
    cases h
    refine ⟨List.Subset.refl _, hseen, fun above habove => ?_⟩
    exact absurd habove (not_listsAbove_of_unknown (get?_eq_none_of_depth hbound) above)
  | succ bound ih =>
    intro pending seen seen' h hseen hpending
    cases hget : hierarchy.get? current with
    | none =>
      rw [findInInterfaces, hget] at h
      cases h
      exact ⟨List.Subset.refl _, hseen, fun above habove =>
        absurd habove (not_listsAbove_of_unknown hget above)⟩
    | some info =>
      have hinner (sup : String) (hsup : hierarchy.Extends current sup) :
          hierarchy.Exhausts name descriptor bound sup := by
        have := depth_lt_of_extends hacyclic hsup
        exact ih (by omega)
      have hsteps (interface : String) (hlists : interface ∈ info.interfaces) :
          hierarchy.Extends current interface :=
        extends_of_get? hget (List.mem_append_right _ hlists)
      rcases hstate : info.interfaces.foldl (hierarchy.lookAt name descriptor bound) (none, seen)
        with ⟨found?, next⟩
      rw [findInInterfaces_succ hget hstate] at h
      cases found? with
      | some owner => cases h
      | none =>
        obtain ⟨hkept, hnext, hall⟩ := searched_of_foldl_lookAt hacyclic hsteps
          (fun interface hlists => hinner interface (hsteps interface hlists)) hstate hseen hpending
        cases hparent : info.superName with
        | none =>
          rw [hparent] at h
          cases h
          refine ⟨hkept, hnext, fun above habove => ?_⟩
          rcases listsAbove_cases hget habove with hlists | ⟨sup, hsup, habove⟩
          · exact (hall above hlists).1
          · simp only [ClassInfo.supertypes, hparent, Option.toList_none, List.nil_append] at hsup
            exact (hall sup hsup).2 above habove
        | some parent =>
          rw [hparent] at h
          have hstep := (hasSuper_of_get? hget hparent).extends
          obtain ⟨hkept', hlast, habove'⟩ := hinner parent hstep _ _ _ h hnext fun below hopen =>
            (hpending below hopen).tail hstep
          refine ⟨List.Subset.trans hkept hkept', hlast, fun above habove => ?_⟩
          rcases listsAbove_cases hget habove with hlists | ⟨sup, hsup, habove⟩
          · exact hkept' (hall above hlists).1
          · simp only [ClassInfo.supertypes, hparent, Option.toList_some, List.singleton_append,
              List.mem_cons] at hsup
            rcases hsup with rfl | hsup
            · exact habove' above habove
            · exact hkept' ((hall sup hsup).2 above habove)

end

/-! ## Fields -/

section

variable {name descriptor : String} {bound : Nat} {owner found : String}

/-- **What the search for a field finds** is above the class, and declares the field. -/
theorem reflTransGen_of_resolveField?
    (h : hierarchy.resolveField? name descriptor bound owner = some found) :
    ReflTransGen hierarchy.Extends owner found ∧
      ∃ info, hierarchy.get? found = some info ∧ info.declaresField name descriptor = true := by
  induction bound generalizing owner with
  | zero => cases h
  | succ bound ih =>
    rw [resolveField?] at h
    split at h
    · cases h
    · rename_i info hget
      have habove {sup : String} (hsup : sup ∈ info.supertypes)
          (hfound : hierarchy.resolveField? name descriptor bound sup = some found) :
          ReflTransGen hierarchy.Extends owner found ∧
            ∃ info, hierarchy.get? found = some info ∧ info.declaresField name descriptor = true :=
        (ih hfound).imp_left (.head (extends_of_get? hget hsup))
      split at h
      · rename_i hdeclares
        cases h
        rw [(get?_eq_some hget).2]
        exact ⟨.refl, info, hget, hdeclares⟩
      · split at h
        · rename_i hfind
          cases h
          obtain ⟨sup, hmem, hfound⟩ := List.exists_of_findSome?_eq_some hfind
          exact habove (List.mem_append_right _ hmem) hfound
        · obtain ⟨sup, hparent, hfound⟩ := Option.bind_eq_some_iff.mp h
          exact habove (by simp [ClassInfo.supertypes, hparent]) hfound

/-- **The search for a field asks everything above the class.** -/
theorem declaresField_of_resolveField? (hacyclic : hierarchy.Acyclic)
    (hbound : hierarchy.depth owner ≤ bound)
    (h : hierarchy.resolveField? name descriptor bound owner = none) {sup : String}
    {info : ClassInfo} (habove : ReflTransGen hierarchy.Extends owner sup)
    (hget : hierarchy.get? sup = some info) : info.declaresField name descriptor = false := by
  induction bound generalizing owner with
  | zero =>
    have hunknown := get?_eq_none_of_depth hbound
    rcases habove.cases_head with rfl | ⟨_, hstep, -⟩
    · cases hunknown.symm.trans hget
    · obtain ⟨_, hget', -⟩ := exists_get?_of_extends hstep
      cases hunknown.symm.trans hget'
  | succ bound ih =>
    rcases habove.cases_head with rfl | ⟨next, hstep, habove⟩
    · simp only [resolveField?, hget] at h
      split at h
      · cases h
      · rename_i hdeclares
        simpa using hdeclares
    · obtain ⟨lower, hget', hnext⟩ := exists_get?_of_extends hstep
      have hless := depth_lt_of_extends hacyclic hstep
      refine ih (by omega) ?_ habove
      simp only [resolveField?, hget'] at h
      split at h
      · cases h
      · split at h
        · cases h
        · rename_i hfind
          rcases List.mem_append.mp hnext with hparent | hlists
          · rw [Option.mem_toList] at hparent
            rwa [hparent, Option.bind_some] at h
          · exact List.findSome?_eq_none_iff.mp hfind next hlists

end

/-! ## Everything above -/

/-- Whether a class is above another one but is not asked for methods: it is a superclass of an
interface there, and is neither a superclass of the lower class nor listed as an interface. -/
structure Bypassed (hierarchy : Hierarchy) (start owner : String) : Prop where
  superclass : ¬ ReflTransGen hierarchy.HasSuper start owner
  listed : ¬ hierarchy.ListsAbove start owner
  above : ∃ interface, hierarchy.ListsAbove start interface ∧
    TransGen hierarchy.HasSuper interface owner

/-- What is above a class is reached along its superclasses or along those of an interface. -/
theorem hasSuper_or_listsAbove {start owner : String}
    (h : ReflTransGen hierarchy.Extends start owner) :
    ReflTransGen hierarchy.HasSuper start owner ∨
      ∃ interface, hierarchy.ListsAbove start interface ∧
        ReflTransGen hierarchy.HasSuper interface owner := by
  induction h with
  | refl => exact .inl .refl
  | tail hpath hstep ih =>
    obtain ⟨info, hget, hmem⟩ := exists_get?_of_extends hstep
    rcases List.mem_append.mp hmem with hparent | hlists
    · have hsuper := hasSuper_of_get? hget (Option.mem_toList.mp hparent)
      exact ih.imp (.tail · hsuper) fun ⟨interface, habove, hchain⟩ =>
        ⟨interface, habove, hchain.tail hsuper⟩
    · exact .inr ⟨_, ⟨_, info, hpath, hget, hlists⟩, .refl⟩

theorem bypassed_of_not_asked {start owner : String}
    (habove : ReflTransGen hierarchy.Extends start owner)
    (hsuper : ¬ ReflTransGen hierarchy.HasSuper start owner)
    (hlists : ¬ hierarchy.ListsAbove start owner) : hierarchy.Bypassed start owner := by
  obtain ⟨interface, hinterface, hchain⟩ := (hasSuper_or_listsAbove habove).resolve_left hsuper
  rcases ReflTransGen.cases_head_iff.mp hchain with rfl | ⟨next, hstep, hchain⟩
  · exact absurd hinterface hlists
  · exact ⟨hsuper, hlists, interface, hinterface, .head' hstep hchain⟩

theorem declaresMethod_eq_true {name descriptor owner : String} :
    hierarchy.declaresMethod name descriptor owner = true ↔
      ∃ info, hierarchy.get? owner = some info ∧ info.declaresMethod name descriptor = true := by
  rw [declaresMethod]
  cases hierarchy.get? owner <;> simp

/-- What the search for a method finds is above the class, and declares the method. -/
theorem reflTransGen_of_resolveMethod? {owner name descriptor found : String}
    (h : hierarchy.resolveMethod? owner name descriptor = some found) :
    ReflTransGen hierarchy.Extends owner found ∧
      hierarchy.declaresMethod name descriptor found = true := by
  rw [resolveMethod?] at h
  split at h
  · cases h
  · rename_i hchain
    cases h
    obtain ⟨hpath, hdeclares⟩ := (first_of_findOnChain? hchain).passes
    exact ⟨reflTransGen_extends hpath, declaresMethod_eq_true.mpr hdeclares⟩
  · rcases hfind : hierarchy.findInInterfaces name descriptor (hierarchy.extent * hierarchy.extent)
      owner [] with ⟨found?, seen⟩
    rw [hfind] at h
    cases h
    obtain ⟨hlists, hdeclares⟩ := listsAbove_of_findInInterfaces hfind
    exact ⟨hlists.reflTransGen, hdeclares⟩

theorem resolveMethod?_of_first (hacyclic : hierarchy.Acyclic)
    {owner name descriptor found : String}
    (h : hierarchy.First (·.declaresMethod name descriptor) owner found) :
    hierarchy.resolveMethod? owner name descriptor = some found := by
  have hdepth := Nat.le_of_lt (hierarchy.depth_lt_extent owner)
  rw [resolveMethod?, findOnChain?_of_first hacyclic hdepth h]

/-- **A method that is not found is declared at most by a class that is not asked.** -/
theorem bypassed_of_resolveMethod? (hacyclic : hierarchy.Acyclic) {start name descriptor : String}
    (hknown : ∀ sup, ReflTransGen hierarchy.Extends start sup → hierarchy.get? sup ≠ none)
    (h : hierarchy.resolveMethod? start name descriptor = none) {owner : String}
    (habove : ReflTransGen hierarchy.Extends start owner)
    (hdeclares : hierarchy.declaresMethod name descriptor owner = true) :
    hierarchy.Bypassed start owner := by
  have hdepth := Nat.le_of_lt (hierarchy.depth_lt_extent start)
  refine bypassed_of_not_asked habove (fun hsuper => ?_) fun hlists => ?_
  · obtain ⟨info, hget, hpasses⟩ := declaresMethod_eq_true.mp hdeclares
    have hexists : ∃ found, hierarchy.First (·.declaresMethod name descriptor) start found :=
      First.exists_of_passes hsuper hget hpasses
    obtain ⟨found, hfirst⟩ := hexists
    rw [resolveMethod?_of_first hacyclic hfirst] at h
    cases h
  · rw [resolveMethod?] at h
    split at h
    · rename_i hchain
      obtain ⟨sup, hpath, hunknown⟩ := exists_unknown_of_findOnChain? hacyclic hdepth hchain
      exact hknown sup (reflTransGen_extends hpath) hunknown
    · cases h
    · rcases hfind : hierarchy.findInInterfaces name descriptor
        (hierarchy.extent * hierarchy.extent) start [] with ⟨found?, seen⟩
      rw [hfind] at h
      cases h
      have hbound : hierarchy.depth start ≤ hierarchy.extent * hierarchy.extent :=
        Nat.le_trans hdepth (Nat.le_mul_self _)
      have hempty : hierarchy.Searched name descriptor (fun _ => False) [] := ⟨by simp, by simp⟩
      have hall := exhausts_of_depth hacyclic hbound _ _ _ hfind hempty fun _ hopen => hopen.elim
      have hsilent := hall.searched.silent owner (hall.above owner hlists)
      rw [hsilent] at hdeclares
      cases hdeclares

end Hierarchy

/-! ## References into a pool -/

theorem ClassInfo.declaresField_ofClass (file : ClassFile) (name descriptor : String) :
    (ClassInfo.ofClass file).declaresField name descriptor =
      (file.field? name descriptor).isSome := by
  rw [Bool.eq_iff_iff, declaresField, ClassFile.field?, List.find?_isSome]
  simp [ofClass]

/-- Whether a class declares the member that a reference names: of that kind, name and
descriptor. -/
def ClassFile.declares (file : ClassFile) (member : MemberRef) : Bool :=
  match member.kind with
  | .field => (file.field? member.name member.descriptor).isSome
  | .method | .interfaceMethod => (file.method? member.name member.descriptor).isSome

/-- Whether a class of a pool declares the member that a reference names. -/
def ClassPool.Declares (pool : ClassPool) (member : MemberRef) (owner : String) : Prop :=
  ∃ file, pool.get? owner = some file ∧ file.declares member = true

section

variable {pool : ClassPool} {member : MemberRef} {owner : String}

theorem declares_iff_of_field (hkind : member.kind = .field) : pool.Declares member owner ↔
    ∃ info, (Hierarchy.ofPool pool).get? owner = some info ∧
      info.declaresField member.name member.descriptor = true := by
  simp [ClassPool.Declares, ClassFile.declares, hkind, Hierarchy.get?_ofPool,
    ClassInfo.declaresField_ofClass]

theorem declares_iff_of_method (hkind : member.kind ≠ .field) : pool.Declares member owner ↔
    (Hierarchy.ofPool pool).declaresMethod member.name member.descriptor owner = true := by
  rw [Hierarchy.declaresMethod_eq_true]
  cases hmember : member.kind with
  | field => exact absurd hmember hkind
  | method | interfaceMethod =>
    simp [ClassPool.Declares, ClassFile.declares, hmember, Hierarchy.get?_ofPool,
      ClassInfo.declaresMethod_ofClass]

theorem Hierarchy.resolve?_of_field {hierarchy : Hierarchy} (hkind : member.kind = .field) :
    hierarchy.resolve? member =
      (hierarchy.resolveField? member.name member.descriptor hierarchy.extent member.owner).map
        (⟨·, member.name, member.descriptor⟩) := by
  rw [resolve?, hkind]

theorem Hierarchy.resolve?_of_method {hierarchy : Hierarchy} (hkind : member.kind ≠ .field) :
    hierarchy.resolve? member =
      (hierarchy.resolveMethod? member.owner member.name member.descriptor).map
        (⟨·, member.name, member.descriptor⟩) := by
  rw [resolve?]
  cases hmember : member.kind with
  | field => exact absurd hmember hkind
  | method | interfaceMethod => rfl

/-- **What a reference leads to declares its member**, and is above the class that it names. -/
theorem resolve?_sound {resolved : ResolvedMember}
    (h : (Hierarchy.ofPool pool).resolve? member = some resolved) :
    ReflTransGen (Hierarchy.ofPool pool).Extends member.owner resolved.owner ∧
      pool.Declares member resolved.owner := by
  by_cases hkind : member.kind = .field
  · rw [Hierarchy.resolve?_of_field hkind] at h
    obtain ⟨owner, hfound, rfl⟩ := Option.map_eq_some_iff.mp h
    rw [declares_iff_of_field hkind]
    exact Hierarchy.reflTransGen_of_resolveField? hfound
  · rw [Hierarchy.resolve?_of_method hkind] at h
    obtain ⟨owner, hfound, rfl⟩ := Option.map_eq_some_iff.mp h
    rw [declares_iff_of_method hkind]
    exact Hierarchy.reflTransGen_of_resolveMethod? hfound

/-- **A method is found where superclasses declare it first.** -/
theorem resolve?_first (hacyclic : (Hierarchy.ofPool pool).Acyclic) (hkind : member.kind ≠ .field)
    (hchain : ReflTransGen (Hierarchy.ofPool pool).HasSuper member.owner owner)
    (hdeclares : pool.Declares member owner) :
    ∃ first, (Hierarchy.ofPool pool).resolve? member =
        some ⟨first, member.name, member.descriptor⟩ ∧
      ReflTransGen (Hierarchy.ofPool pool).HasSuper member.owner first ∧
      pool.Declares member first ∧
      ∀ before, ReflTransGen (Hierarchy.ofPool pool).HasSuper member.owner before →
        TransGen (Hierarchy.ofPool pool).HasSuper before first → ¬ pool.Declares member before := by
  rw [Hierarchy.resolve?_of_method hkind]
  simp only [declares_iff_of_method hkind, Hierarchy.declaresMethod_eq_true] at hdeclares ⊢
  obtain ⟨info, hget, hpasses⟩ := hdeclares
  have hexists : ∃ first, (Hierarchy.ofPool pool).First
      (·.declaresMethod member.name member.descriptor) member.owner first :=
    Hierarchy.First.exists_of_passes hchain hget hpasses
  obtain ⟨first, hfirst⟩ := hexists
  refine ⟨first, ?_, hfirst.passes.1, hfirst.passes.2, fun before hpath hbefore => ?_⟩
  · rw [Hierarchy.resolveMethod?_of_first hacyclic hfirst, Option.map_some]
  · rintro ⟨info, hget, hpasses⟩
    rw [hfirst.none_before hacyclic hpath hbefore hget] at hpasses
    cases hpasses

/-- **A member that is not found is declared by nothing above**, but for superclasses of
interfaces. -/
theorem resolve?_complete (hacyclic : (Hierarchy.ofPool pool).Acyclic)
    (hknown : ∀ sup, ReflTransGen (Hierarchy.ofPool pool).Extends member.owner sup →
      pool.get? sup ≠ none)
    (h : (Hierarchy.ofPool pool).resolve? member = none)
    (habove : ReflTransGen (Hierarchy.ofPool pool).Extends member.owner owner)
    (hdeclares : pool.Declares member owner) :
    member.kind ≠ .field ∧ (Hierarchy.ofPool pool).Bypassed member.owner owner := by
  by_cases hkind : member.kind = .field
  · rw [Hierarchy.resolve?_of_field hkind, Option.map_eq_none_iff] at h
    obtain ⟨info, hget, hpasses⟩ := (declares_iff_of_field hkind).mp hdeclares
    have hdepth := Nat.le_of_lt ((Hierarchy.ofPool pool).depth_lt_extent member.owner)
    rw [Hierarchy.declaresField_of_resolveField? hacyclic hdepth h habove hget] at hpasses
    cases hpasses
  · rw [Hierarchy.resolve?_of_method hkind, Option.map_eq_none_iff] at h
    rw [declares_iff_of_method hkind] at hdeclares
    refine ⟨hkind, Hierarchy.bypassed_of_resolveMethod? hacyclic (fun sup hsup => ?_) h habove
      hdeclares⟩
    rw [Hierarchy.get?_ofPool]
    exact fun hunknown => hknown sup hsup (Option.map_eq_none_iff.mp hunknown)

/-- If a pool has the supertypes of its classes, it has all that is above one of them. -/
theorem ClassPool.get?_ne_none_of_closed
    (h : ∀ file ∈ pool.classes, ∀ sup ∈ (ClassInfo.ofClass file).supertypes, pool.get? sup ≠ none)
    {start sup : String} (hstart : pool.get? start ≠ none)
    (habove : ReflTransGen (Hierarchy.ofPool pool).Extends start sup) : pool.get? sup ≠ none := by
  rcases habove.cases_tail with rfl | ⟨lower, -, hstep⟩
  · exact hstart
  · obtain ⟨info, hget, hmem⟩ := Hierarchy.exists_get?_of_extends hstep
    obtain ⟨file, hfile, rfl⟩ := List.mem_map.mp (Hierarchy.get?_eq_some hget).1
    exact h file hfile sup hmem

end

/-- **Resolution is sound and complete.** In an acyclic hierarchy a reference leads to a class that
declares its member and that is the class it names or one above it, and a method is found where the
superclasses declare it first. If all classes above are known and a reference leads nowhere, nothing
above declares its member, but for a method of a superclass of an interface that is neither a
superclass of the class nor an interface that is listed above it. -/
theorem resolve?_sound_and_complete {pool : ClassPool} (hacyclic : (Hierarchy.ofPool pool).Acyclic)
    (member : MemberRef) :
    (∀ resolved, (Hierarchy.ofPool pool).resolve? member = some resolved →
      resolved.name = member.name ∧ resolved.descriptor = member.descriptor ∧
      ReflTransGen (Hierarchy.ofPool pool).Extends member.owner resolved.owner ∧
      pool.Declares member resolved.owner) ∧
    (member.kind ≠ .field → ∀ owner,
      ReflTransGen (Hierarchy.ofPool pool).HasSuper member.owner owner →
      pool.Declares member owner →
      ∃ first, (Hierarchy.ofPool pool).resolve? member =
          some ⟨first, member.name, member.descriptor⟩ ∧
        ReflTransGen (Hierarchy.ofPool pool).HasSuper member.owner first ∧
        pool.Declares member first ∧
        ∀ before, ReflTransGen (Hierarchy.ofPool pool).HasSuper member.owner before →
          TransGen (Hierarchy.ofPool pool).HasSuper before first →
          ¬ pool.Declares member before) ∧
    ((∀ sup, ReflTransGen (Hierarchy.ofPool pool).Extends member.owner sup →
        pool.get? sup ≠ none) →
      (Hierarchy.ofPool pool).resolve? member = none →
      ∀ owner, ReflTransGen (Hierarchy.ofPool pool).Extends member.owner owner →
        pool.Declares member owner →
        member.kind ≠ .field ∧ (Hierarchy.ofPool pool).Bypassed member.owner owner) := by
  refine ⟨fun resolved h => ?_, fun hkind owner => resolve?_first hacyclic hkind,
    fun hknown h owner => resolve?_complete hacyclic hknown h⟩
  have hnames : resolved.name = member.name ∧ resolved.descriptor = member.descriptor := by
    obtain ⟨_, -, rfl⟩ := Option.map_eq_some_iff.mp h
    exact ⟨rfl, rfl⟩
  exact ⟨hnames.1, hnames.2, resolve?_sound h⟩

/-- Interfaces that inherit from one another. The class lists the first one of them, which has a
field, both directly and through the second one; its superclass, which has a method, lists the third
one, which has another. -/
def diamond : ClassPool :=
  let file (name : String) (access : AccessFlags) (parent : Option String)
      (interfaces : List String) (fields : List Field) (methods : List Method) : ClassFile :=
    { name, superName := parent, interfaces, access, pool := .empty, fields, methods
      isLibrary := false }
  ⟨[{ file "java/lang/Object" 0x1 none [] [] [] with isLibrary := true },
    file "a/I" 0x601 (some "java/lang/Object") [] [⟨0x19, "f", "I", none⟩] [],
    file "a/J" 0x601 (some "java/lang/Object") ["a/I"] [] [],
    file "a/K" 0x601 (some "java/lang/Object") ["a/I"] [] [⟨0x401, "k", "()V", none⟩],
    file "a/B" 0x1 (some "java/lang/Object") ["a/K"] [] [⟨0x401, "b", "()V", none⟩],
    file "a/C" 0x1 (some "a/B") ["a/J", "a/I"] [] []]⟩

/-- The method of the third interface is found through the superclass, that of the superclass itself
before any interface is asked, and a field that nothing declares is not found. -/
theorem resolve?_sound_and_complete_diamond :
    (Hierarchy.ofPool diamond).Acyclic ∧
      diamond.Declares ⟨"a/C", "k", "()V", .method⟩ "a/K" ∧
      (∃ first, (Hierarchy.ofPool diamond).resolve? ⟨"a/C", "b", "()V", .method⟩ =
        some ⟨first, "b", "()V"⟩ ∧ ReflTransGen (Hierarchy.ofPool diamond).HasSuper "a/C" first) ∧
      ∀ owner, ReflTransGen (Hierarchy.ofPool diamond).Extends "a/C" owner →
        ¬ diamond.Declares ⟨"a/C", "g", "I", .field⟩ owner := by
  have hacyclic : (Hierarchy.ofPool diamond).Acyclic := Hierarchy.acyclic_of_rank
    ["java/lang/Object", "a/I", "a/J", "a/K", "a/B", "a/C"].idxOf (by decide +kernel)
  refine ⟨hacyclic, ?_, ?_, fun owner habove hdeclares => ?_⟩
  · have hsome : (Hierarchy.ofPool diamond).resolve? ⟨"a/C", "k", "()V", .method⟩ =
        some ⟨"a/K", "k", "()V"⟩ := by decide +kernel
    exact ((resolve?_sound_and_complete hacyclic _).1 _ hsome).2.2.2
  · have hchain : ReflTransGen (Hierarchy.ofPool diamond).HasSuper "a/C" "a/B" := .single rfl
    obtain ⟨first, hfirst, hpath, -⟩ := (resolve?_sound_and_complete hacyclic
      ⟨"a/C", "b", "()V", .method⟩).2.1 (by decide) "a/B" hchain ⟨_, rfl, by decide +kernel⟩
    exact ⟨first, hfirst, hpath⟩
  · refine ((resolve?_sound_and_complete hacyclic ⟨"a/C", "g", "I", .field⟩).2.2 ?_ ?_ owner habove
      hdeclares).1 rfl
    · exact fun sup => ClassPool.get?_ne_none_of_closed (by decide +kernel) (by decide +kernel)
    · decide +kernel

/-- A class that implements an interface with a superclass of its own, which declares a method. -/
def superclassedInterface : ClassPool :=
  let file (name : String) (access : AccessFlags) (parent : Option String)
      (interfaces : List String) (methods : List Method) : ClassFile :=
    { name, superName := parent, interfaces, access, pool := .empty, fields := [], methods
      isLibrary := false }
  ⟨[{ file "java/lang/Object" 0x1 none [] [] with isLibrary := true },
    file "a/X" 0x1 (some "java/lang/Object") [] [⟨0x101, "m", "()V", none⟩],
    file "a/I" 0x601 (some "a/X") [] [],
    file "a/C" 0x1 (some "java/lang/Object") ["a/I"] []]⟩

/-- **A superclass of an interface is not asked.** All that is above the class is known, and a class
there declares the method, but the reference leads nowhere. -/
theorem resolve?_misses_superclass_of_interface :
    (Hierarchy.ofPool superclassedInterface).Acyclic ∧
      (∀ sup, ReflTransGen (Hierarchy.ofPool superclassedInterface).Extends "a/C" sup →
        superclassedInterface.get? sup ≠ none) ∧
      (Hierarchy.ofPool superclassedInterface).resolve? ⟨"a/C", "m", "()V", .method⟩ = none ∧
      ReflTransGen (Hierarchy.ofPool superclassedInterface).Extends "a/C" "a/X" ∧
      superclassedInterface.Declares ⟨"a/C", "m", "()V", .method⟩ "a/X" := by
  refine ⟨?_, fun sup => ?_, by decide +kernel, ?_, _, rfl, by decide +kernel⟩
  · exact Hierarchy.acyclic_of_rank ["java/lang/Object", "a/X", "a/I", "a/C"].idxOf
      (by decide +kernel)
  · exact ClassPool.get?_ne_none_of_closed (by decide +kernel) (by decide +kernel)
  · exact Hierarchy.isAssignable_iff.mp (by decide +kernel)

end JvmTrim
