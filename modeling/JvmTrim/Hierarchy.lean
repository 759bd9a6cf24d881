import JvmTrim.ClassFile.Class

/-!
# The class hierarchy

A snapshot of what the classes of a pool declare and inherit, taken before a pass changes them.
Missing classes are answered cautiously: an unknown supertype may declare anything, and an unknown
class may have a static initializer.

Walks that collect the classes they have seen visit each class once, on any hierarchy. Walks along
superclasses and the search for fields collect nothing and would not end where classes stand above
themselves. They are bounded by the number of classes and edges of the snapshot, which they do not
exceed on an acyclic hierarchy. On a cyclic one they stop with none or false when the bound is used
up, where a walk without a bound would not come to an answer.

## Main definitions

* `Hierarchy.ofPool`: the snapshot
* `Hierarchy.isAssignable`, `Hierarchy.allSubclasses`: closures of the edges
* `Hierarchy.resolve?`: the class that declares a member
* `Hierarchy.mayTriggerInitializer`, `Hierarchy.overrides`, `Hierarchy.isOverridden`
-/

namespace JvmTrim

/-- A declared method or field. -/
structure Declaration where
  /-- Property flags. -/
  access : AccessFlags
  /-- Name. -/
  name : String
  /-- Descriptor. -/
  descriptor : String
  deriving DecidableEq, Repr, Inhabited

/-- What the hierarchy knows of a class. -/
structure ClassInfo where
  /-- Internal name. -/
  name : String
  /-- Name of the superclass. -/
  superName : Option String
  /-- Names of the direct superinterfaces. -/
  interfaces : List String
  /-- Property flags. -/
  access : AccessFlags
  /-- Whether the class is a library class. -/
  isLibrary : Bool
  /-- Declared methods. -/
  methods : List Declaration
  /-- Declared fields. -/
  fields : List Declaration
  deriving DecidableEq, Repr, Inhabited

namespace ClassInfo

/-- What the hierarchy takes from a class. -/
def ofClass (file : ClassFile) : ClassInfo where
  name := file.name
  superName := file.superName
  interfaces := file.interfaces
  access := file.access
  isLibrary := file.isLibrary
  methods := file.methods.map fun m => ⟨m.access, m.name, m.descriptor⟩
  fields := file.fields.map fun f => ⟨f.access, f.name, f.descriptor⟩

/-- Whether the class is an interface. -/
def isInterface (info : ClassInfo) : Bool := info.access.has AccessFlags.interface

/-- The declared method with a name and descriptor. -/
def method? (info : ClassInfo) (name descriptor : String) : Option Declaration :=
  info.methods.find? fun m => m.name == name && m.descriptor == descriptor

/-- Whether the class declares a method. -/
def declaresMethod (info : ClassInfo) (name descriptor : String) : Bool :=
  (info.method? name descriptor).isSome

/-- Whether the class declares a field. -/
def declaresField (info : ClassInfo) (name descriptor : String) : Bool :=
  info.fields.any fun f => f.name == name && f.descriptor == descriptor

/-- Whether the class has a static initializer. -/
def hasStaticInitializer (info : ClassInfo) : Bool :=
  info.methods.any fun m => m.name == "<clinit>"

/-- The names of the direct supertypes, the superclass first. -/
def supertypes (info : ClassInfo) : List String := info.superName.toList ++ info.interfaces

end ClassInfo

/-- The class that declares a resolved member, with the member's name and descriptor. -/
structure ResolvedMember where
  /-- The declaring class. -/
  owner : String
  /-- Name. -/
  name : String
  /-- Descriptor. -/
  descriptor : String
  deriving DecidableEq, Repr, Inhabited

/-- What the classes of a pool declare and inherit. -/
structure Hierarchy where
  /-- The classes in the order of the pool. -/
  classes : List ClassInfo
  deriving DecidableEq, Repr, Inhabited

namespace Hierarchy

/-- The hierarchy without classes. -/
def empty : Hierarchy := ⟨[]⟩

/-- The snapshot of a pool. -/
def ofPool (pool : ClassPool) : Hierarchy := ⟨pool.classes.map ClassInfo.ofClass⟩

/-- What is known of a class. -/
def get? (hierarchy : Hierarchy) (name : String) : Option ClassInfo :=
  hierarchy.classes.find? (·.name == name)

/-- The superclass of a known class. -/
def superOf? (hierarchy : Hierarchy) (name : String) : Option String :=
  (hierarchy.get? name).bind (·.superName)

/-- The classes whose superclass is `name`. -/
def directSubclasses (hierarchy : Hierarchy) (name : String) : List String :=
  (hierarchy.classes.filter (·.superName == some name)).map (·.name)

/-- The classes and interfaces that list `name` among their superinterfaces, once for each time
they list it. -/
def directImplementors (hierarchy : Hierarchy) (name : String) : List String :=
  hierarchy.classes.flatMap fun info =>
    (info.interfaces.filter (· == name)).map fun _ => info.name

/-- Number of classes and supertype edges, a bound on every walk that visits a class once. -/
def extent (hierarchy : Hierarchy) : Nat :=
  hierarchy.classes.foldr (fun info size => 2 + info.interfaces.length + size) 2

/-! ### Closures -/

/-- The values of `values` that are not in `seen` yet, each of them once. -/
def freshOf (seen : List String) (values : List String) : List String :=
  values.foldl (fun fresh value =>
    if seen.contains value || fresh.contains value then fresh else fresh ++ [value]) []

/-- Extends `found` by the direct subclasses of each pending class and then by theirs, last pending
class first. -/
def collectSubclasses (hierarchy : Hierarchy) : Nat → List String → List String → List String
  | _, [], found => found
  | 0, _, found => found
  | bound + 1, current :: pending, found =>
    let fresh := freshOf found (hierarchy.directSubclasses current)
    collectSubclasses hierarchy bound (fresh.reverse ++ pending) (found ++ fresh)

/-- All classes below `name`, itself excluded unless it is below itself. -/
def allSubclasses (hierarchy : Hierarchy) (name : String) : List String :=
  hierarchy.collectSubclasses hierarchy.extent [name] []

/-- Whether `goal` is pending or above a pending class; classes in `seen` are not visited again. -/
def reaches (hierarchy : Hierarchy) (goal : String) : Nat → List String → List String → Bool
  | _, [], _ => false
  | 0, _, _ => false
  | bound + 1, current :: pending, seen =>
    if current == goal then true
    else if seen.contains current then hierarchy.reaches goal bound pending seen
    else
      let above := ((hierarchy.get? current).map (·.supertypes)).getD []
      hierarchy.reaches goal bound (above.reverse ++ pending) (current :: seen)

/-- Whether `sub` is `sup` or inherits from it. -/
def isAssignable (hierarchy : Hierarchy) (sub sup : String) : Bool :=
  hierarchy.reaches sup hierarchy.extent [sub] []

/-! ### Resolution -/

/-- The first class from `name` upwards along superclasses that satisfies `test`; the inner none
means that the chain ended, the outer none that it left the known classes or, on a cyclic hierarchy,
that it did not end. -/
def findOnChain? (hierarchy : Hierarchy) (test : ClassInfo → Bool) :
    Nat → Option String → Option (Option String)
  | _, none => some none
  | 0, _ => none
  | bound + 1, some name =>
    match hierarchy.get? name with
    | none => none
    | some info =>
      if test info then some (some info.name)
      else hierarchy.findOnChain? test bound info.superName

/-- The first interface declaring a method among those of a class, in depth-first order, and then
among those of its superclass; `seen` holds the interfaces looked at. Superclasses are not among
them, so on a cyclic hierarchy the search may use up its bound, and gives none then. -/
def findInInterfaces (hierarchy : Hierarchy) (name descriptor : String) :
    Nat → String → List String → Option String × List String
  | 0, _, seen => (none, seen)
  | bound + 1, current, seen =>
    match hierarchy.get? current with
    | none => (none, seen)
    | some info =>
      let (found, seen) := info.interfaces.foldl (fun (found, seen) interface =>
        if found.isSome then (found, seen)
        else if seen.contains interface then (none, seen)
        else if ((hierarchy.get? interface).map (·.declaresMethod name descriptor)).getD false then
          (some interface, interface :: seen)
        else hierarchy.findInInterfaces name descriptor bound interface (interface :: seen))
        (none, seen)
      match found, info.superName with
      | some owner, _ => (some owner, seen)
      | none, none => (none, seen)
      | none, some parent => hierarchy.findInInterfaces name descriptor bound parent seen

/-- The class that declares a method: on the superclass chain if all of it is known, and else in the
superinterfaces. -/
def resolveMethod? (hierarchy : Hierarchy) (owner name descriptor : String) : Option String :=
  match hierarchy.findOnChain? (·.declaresMethod name descriptor) hierarchy.extent (some owner) with
  | none => none
  | some (some found) => some found
  | some none =>
    (hierarchy.findInInterfaces name descriptor (hierarchy.extent * hierarchy.extent) owner []).1

/-- The class that declares a field: the class itself, then its superinterfaces, then its
superclass. On a cyclic hierarchy the search may use up its bound, and gives none then. -/
def resolveField? (hierarchy : Hierarchy) (name descriptor : String) : Nat → String → Option String
  | 0, _ => none
  | bound + 1, owner =>
    match hierarchy.get? owner with
    | none => none
    | some info =>
      if info.declaresField name descriptor then some info.name
      else
        match info.interfaces.findSome? (hierarchy.resolveField? name descriptor bound) with
        | some found => some found
        | none => info.superName.bind (hierarchy.resolveField? name descriptor bound)

/-- The declaration a member reference leads to, if it is among the known classes. -/
def resolve? (hierarchy : Hierarchy) (member : MemberRef) : Option ResolvedMember :=
  let owner := match member.kind with
    | .field =>
      hierarchy.resolveField? member.name member.descriptor hierarchy.extent member.owner
    | .method | .interfaceMethod =>
      hierarchy.resolveMethod? member.owner member.name member.descriptor
  owner.map fun owner => ⟨owner, member.name, member.descriptor⟩

/-! ### Initialization and overriding -/

/-- Whether `goal` is `name` or one of its known superclasses. On a cyclic hierarchy the walk may use
up its bound, and the answer is false then. -/
def onChain (hierarchy : Hierarchy) (goal : String) : Nat → Option String → Bool
  | _, none => false
  | 0, _ => false
  | bound + 1, some name => name == goal || hierarchy.onChain goal bound (hierarchy.superOf? name)

/-- Whether a class from `name` upwards has a static initializer or is unknown. On a cyclic hierarchy
the walk may use up its bound, and the answer is false then. -/
def chainInitializes (hierarchy : Hierarchy) : Nat → Option String → Bool
  | _, none => false
  | 0, _ => false
  | bound + 1, some name =>
    match hierarchy.get? name with
    | none => true
    | some info => info.hasStaticInitializer || hierarchy.chainInitializes bound info.superName

/-- Whether touching `target` from code of the class `user` may run a static initializer that has
not run yet. A class and its superclasses are initialized when its code runs. -/
def mayTriggerInitializer (hierarchy : Hierarchy) (user target : String) : Bool :=
  !hierarchy.onChain target hierarchy.extent (some user) &&
    hierarchy.chainInitializes hierarchy.extent (some target)

/-- Whether a pending class or one above it is unknown or declares the method so that it can be
overridden; classes in `seen` are not visited again. -/
def inheritsOverridable (hierarchy : Hierarchy) (name descriptor : String) :
    Nat → List String → List String → Bool
  | _, [], _ => false
  | 0, _, _ => false
  | bound + 1, current :: pending, seen =>
    if seen.contains current then
      hierarchy.inheritsOverridable name descriptor bound pending seen
    else
      match hierarchy.get? current with
      | none => true
      | some info =>
        if (info.method? name descriptor).any fun m =>
            !m.access.hasAny (AccessFlags.private ||| AccessFlags.static) then true
        else
          hierarchy.inheritsOverridable name descriptor bound
            (info.supertypes.reverse ++ pending) (current :: seen)

/-- Whether a method of `owner` may override one of a supertype. An unknown supertype counts as
declaring it. -/
def overrides (hierarchy : Hierarchy) (owner name descriptor : String) : Bool :=
  match hierarchy.get? owner with
  | none => true
  | some info =>
    hierarchy.inheritsOverridable name descriptor (hierarchy.extent + info.supertypes.length)
      info.supertypes.reverse []

/-- Whether some class below `owner` declares a method with this name and descriptor. -/
def isOverridden (hierarchy : Hierarchy) (owner name descriptor : String) : Bool :=
  (hierarchy.allSubclasses owner).any fun sub =>
    ((hierarchy.get? sub).map (·.declaresMethod name descriptor)).getD false

end Hierarchy

end JvmTrim
