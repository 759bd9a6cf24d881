import JvmTrim.Hierarchy
import JvmTrim.KeepSet

/-!
# Making classes final

A class of the program that has no subclasses becomes final, unless it has to stay as it is or is
final, abstract or an interface already.
-/

namespace JvmTrim

/-- Whether a class can be made final. -/
def ClassFile.canBeFinal (hierarchy : Hierarchy) (keep : KeepSet) (file : ClassFile) : Bool :=
  !file.isLibrary && !keep.keepsClass file.name &&
    !file.access.hasAny (AccessFlags.final ||| AccessFlags.abstract ||| AccessFlags.interface) &&
    (hierarchy.directSubclasses file.name).isEmpty

/-- The class made final if it can be. -/
def ClassFile.madeFinal (hierarchy : Hierarchy) (keep : KeepSet) (file : ClassFile) : ClassFile :=
  if file.canBeFinal hierarchy keep then { file with access := file.access.insert AccessFlags.final }
  else file

/-- Makes classes final, and tells how many. -/
def finalizeClasses (hierarchy : Hierarchy) (keep : KeepSet) : Change ClassPool Nat := do
  let pool ← getThe ClassPool
  set (ClassPool.mk (pool.classes.map (·.madeFinal hierarchy keep)))
  return pool.classes.countP (·.canBeFinal hierarchy keep)

end JvmTrim
