import JvmTrim.Assumptions

/-!
# What has to stay

Classes and members that the optimization must not change from the outside: a kept class is neither
made final nor merged away, a kept method is not made private, and calls of it always count as having
side effects.

## Main definitions

* `KeepSet`, `KeepSet.keepsClass`, `KeepSet.keepsMember`
-/

namespace JvmTrim

/-- The classes and members that have to stay. -/
structure KeepSet where
  /-- Classes. -/
  classes : List String
  /-- Single members. -/
  members : List MemberKey
  /-- Classes of which every member stays. -/
  wholeClasses : List String
  deriving DecidableEq, Repr, Inhabited

namespace KeepSet

/-- Nothing has to stay. -/
def empty : KeepSet := ⟨[], [], []⟩

/-- Keeps a class. -/
def addClass (keep : KeepSet) (name : String) : KeepSet :=
  { keep with classes := keep.classes.insert name }

/-- Keeps a class with all its members. -/
def addWholeClass (keep : KeepSet) (name : String) : KeepSet :=
  { keep.addClass name with wholeClasses := keep.wholeClasses.insert name }

/-- Keeps a member. -/
def addMember (keep : KeepSet) (member : MemberKey) : KeepSet :=
  { keep with members := keep.members.insert member }

/-- Whether a class has to stay. -/
def keepsClass (keep : KeepSet) (name : String) : Bool := keep.classes.contains name

/-- Whether a member has to stay. -/
def keepsMember (keep : KeepSet) (member : MemberKey) : Bool :=
  keep.wholeClasses.contains member.owner || keep.members.contains member

/-- Number of classes and single members. -/
def size (keep : KeepSet) : Nat := keep.classes.length + keep.members.length

/-- Whether nothing has to stay. -/
def isEmpty (keep : KeepSet) : Bool := keep.classes.isEmpty && keep.members.isEmpty

end KeepSet

end JvmTrim
