import JvmTrim.Hierarchy

/-!
# Linkage

Whether the references in the constant pools of the program classes lead to known classes and
members. A reference to an unknown class is a warning; an unknown member of a known class is only a
note, since library classes are often registered without their members. References to arrays are
not looked at: their members are those of the root class.
-/

namespace JvmTrim

/-- A reference that does not lead to a known class or member. -/
inductive LinkProblem where
  | brokenClass (user : String) (index : UInt16)
  | unknownClass (user name : String)
  | brokenMember (user : String) (index : UInt16)
  | unknownMember (user : String) (member : MemberRef)
  deriving DecidableEq, Repr

namespace LinkProblem

/-- Whether the problem is a note rather than a warning. -/
def isNote : LinkProblem → Bool
  | unknownMember .. => true
  | brokenClass .. | unknownClass .. | brokenMember .. => false

/-- The wording of a problem. -/
def message : LinkProblem → String
  | brokenClass user index => s!"{user}: broken class constant #{index}"
  | unknownClass user name => s!"{user} references unknown class {name}"
  | brokenMember user index => s!"{user}: broken member reference #{index}"
  | unknownMember user member => s!"{user} references unknown member {member.text}"

end LinkProblem

/-- Whether a class name is that of an array. -/
def isArrayName (name : String) : Bool := name.toList.head? == some '['

namespace Hierarchy

/-- What is wrong with one constant of a class. -/
def linkProblem? (hierarchy : Hierarchy) (user : ClassFile) (index : UInt16) :
    Constant → Option LinkProblem
  | .class _ =>
    match user.pool.className index with
    | .error _ => some (.brokenClass user.name index)
    | .ok name =>
      if !isArrayName name && (hierarchy.get? name).isNone then some (.unknownClass user.name name)
      else none
  | .fieldref .. | .methodref .. | .interfaceMethodref .. =>
    match user.pool.memberRef index with
    | .error _ => some (.brokenMember user.name index)
    | .ok member =>
      if isArrayName member.owner || (hierarchy.get? member.owner).isNone then none
      else if (hierarchy.resolve? member).isNone then some (.unknownMember user.name member)
      else none
  | _ => none

end Hierarchy

/-- The problems found while linking, in the order of the classes and their constants. -/
structure Linkage where
  /-- The problems. -/
  problems : List LinkProblem
  deriving DecidableEq, Repr

namespace Linkage

/-- Checks every reference of every program class. -/
def ofPool (pool : ClassPool) (hierarchy : Hierarchy) : Linkage where
  problems := pool.programClasses.flatMap fun user =>
    user.pool.toList.filterMap fun (index, constant) => hierarchy.linkProblem? user index constant

/-- Number of notes. -/
def notes (linkage : Linkage) : Nat := linkage.problems.countP (·.isNote)

/-- Number of warnings. -/
def warnings (linkage : Linkage) : Nat := linkage.problems.countP (!·.isNote)

/-- The result in one line. -/
def text (linkage : Linkage) : String :=
  s!"{linkage.warnings} warning(s), {linkage.notes} note(s)"

end Linkage

end JvmTrim
