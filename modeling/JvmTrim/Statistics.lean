/-!
# Statistics

What a simplification did to one method body, and what an optimization did to a program.
-/

namespace JvmTrim

/-- What a simplification did to a method body. -/
structure Report where
  /-- Instructions replaced by a push of a constant. -/
  constantsFolded : Nat := 0
  /-- Loads replaced by a load of a lower slot. -/
  loadsAliased : Nat := 0
  /-- Branches with a single possible outcome. -/
  branchesSimplified : Nat := 0
  /-- Instructions removed. -/
  instructionsDeleted : Nat := 0
  /-- Pops inserted for words that nobody uses. -/
  popsInserted : Nat := 0
  /-- Pushes inserted for words whose producer was removed. -/
  pushesInserted : Nat := 0
  /-- Infinite loops that stay. -/
  loopsPreserved : Nat := 0
  deriving DecidableEq, Repr, Inhabited

namespace Report

/-- Both reports together. -/
def add (a b : Report) : Report where
  constantsFolded := a.constantsFolded + b.constantsFolded
  loadsAliased := a.loadsAliased + b.loadsAliased
  branchesSimplified := a.branchesSimplified + b.branchesSimplified
  instructionsDeleted := a.instructionsDeleted + b.instructionsDeleted
  popsInserted := a.popsInserted + b.popsInserted
  pushesInserted := a.pushesInserted + b.pushesInserted
  loopsPreserved := a.loopsPreserved + b.loopsPreserved

/-- Whether nothing was done. -/
def isEmpty (report : Report) : Bool := report = {}

/-- The report as text. -/
def text (report : Report) : String :=
  s!"{report.constantsFolded} constants, {report.loadsAliased} aliased loads, " ++
    s!"{report.branchesSimplified} branches, {report.instructionsDeleted} deleted, " ++
    s!"{report.popsInserted} pops, {report.pushesInserted} pushes" ++
    (if report.loopsPreserved > 0 then s!", {report.loopsPreserved} infinite loops" else "")

end Report

/-- What an optimization did to a program. -/
structure Statistics where
  /-- Rounds of simplification. -/
  rounds : Nat := 0
  /-- Method bodies looked at, once for every round. -/
  methodsProcessed : Nat := 0
  /-- Method bodies changed, once for every round. -/
  methodsChanged : Nat := 0
  /-- Method bodies left alone because something failed. -/
  methodsSkipped : Nat := 0
  /-- Classes made final. -/
  classesFinalized : Nat := 0
  /-- Methods made private. -/
  methodsPrivatized : Nat := 0
  /-- Interfaces replaced by their implementation. -/
  interfacesMerged : Nat := 0
  /-- References to unknown classes. -/
  linkWarnings : Nat := 0
  /-- References to unknown members. -/
  linkNotes : Nat := 0
  /-- Size of the changed bodies before. -/
  bytesBefore : Nat := 0
  /-- Size of the changed bodies after. -/
  bytesAfter : Nat := 0
  /-- What was done to method bodies. -/
  report : Report := {}
  deriving DecidableEq, Repr, Inhabited

namespace Statistics

/-- Adds what was done to the method bodies of another part of the program; the counts that belong
to the program as a whole stay. -/
def addBodies (a b : Statistics) : Statistics :=
  { a with
    methodsProcessed := a.methodsProcessed + b.methodsProcessed
    methodsChanged := a.methodsChanged + b.methodsChanged
    methodsSkipped := a.methodsSkipped + b.methodsSkipped
    bytesBefore := a.bytesBefore + b.bytesBefore
    bytesAfter := a.bytesAfter + b.bytesAfter
    report := a.report.add b.report }

/-- Number of bytes saved, negative if the bodies grew. -/
def bytesSaved (statistics : Statistics) : Int := statistics.bytesBefore - statistics.bytesAfter

/-- Whether anything changed. -/
def hasChanges (statistics : Statistics) : Bool :=
  statistics.methodsChanged > 0 || statistics.classesFinalized > 0 ||
    statistics.methodsPrivatized > 0 || statistics.interfacesMerged > 0

/-- The statistics as text, with the time that was taken as it is to be written. -/
def text (statistics : Statistics) (elapsed : String) : String :=
  s!"{statistics.methodsChanged} of {statistics.methodsProcessed} method bodies changed in " ++
    s!"{statistics.rounds} round(s), {statistics.methodsSkipped} skipped, " ++
    s!"{statistics.bytesSaved} bytes saved ({elapsed})\n" ++
    s!"  code: {statistics.report.text}\n" ++
    s!"  classes: {statistics.classesFinalized} finalized, " ++
    s!"{statistics.methodsPrivatized} methods privatized, " ++
    s!"{statistics.interfacesMerged} interfaces inlined" ++
    (if statistics.linkWarnings + statistics.linkNotes > 0 then
      s!"\n  linking: {statistics.linkWarnings} unresolved classes, " ++
        s!"{statistics.linkNotes} unresolved members"
    else "")

/-- The text of a time span of no length. -/
def noTime : String := "0.00ns"

end Statistics

end JvmTrim
