import JvmTrim.ConstantPool
import JvmTrim.Evaluation.Fixpoint

/-!
# Settings

Which parts of the optimization run, how often, and how careful they are.
-/

namespace JvmTrim

/-- Which single simplifications of code are made. Whether the marks are logged is no part of the
options, as it changes no code. -/
structure SimplifyOptions where
  /-- Results that are known become constants. -/
  foldConstants : Bool := true
  /-- A variable is loaded from the lowest slot that holds the same value. -/
  aliasLoads : Bool := true
  /-- A branch with one possible outcome is replaced by it. -/
  simplifyBranches : Bool := true
  deriving DecidableEq, Repr, Inhabited

/-- The settings of an optimization. -/
structure Settings where
  /-- How often all method bodies are simplified at most. -/
  passes : Nat := 2
  /-- Whether method bodies are simplified. -/
  simplifyCode : Bool := true
  /-- Whether classes without subclasses become final. -/
  finalizeClasses : Bool := true
  /-- Whether methods that no other class uses become private. -/
  privatizeMethods : Bool := true
  /-- Whether interfaces with one implementation are replaced by it. -/
  mergeInterfaces : Bool := true
  /-- Whether instructions stay that may throw. -/
  conservative : Bool := true
  /-- Whether classes may be worked on at the same time; results do not depend on it. -/
  parallel : Bool := false
  /-- How often one offset may be visited in an evaluation. -/
  maxVisits : Nat := EvaluationOptions.defaultMaxVisits
  /-- The simplifications that are made. -/
  simplify : SimplifyOptions := {}
  /-- The methods assumed to be free of side effects, as class, name and descriptor in one text. -/
  pureMethods : List String := []
  deriving DecidableEq, Repr

namespace Settings

/-- The settings that apply if nothing is said. -/
def standard : Settings := {}

instance : Inhabited Settings := ⟨standard⟩

/-- Only method bodies are changed. -/
def codeOnly : Settings :=
  { standard with finalizeClasses := false, privatizeMethods := false, mergeInterfaces := false }

/-- A method as class, name and descriptor in one text. -/
def methodText (owner name descriptor : String) : String := s!"{owner}.{name}{descriptor}"

/-- Assumes that a method is free of side effects. -/
def assumePure (settings : Settings) (owner name descriptor : String) : Settings :=
  let method := methodText owner name descriptor
  if settings.pureMethods.contains method then settings
  else { settings with pureMethods := settings.pureMethods ++ [method] }

/-- Whether a method is assumed to be free of side effects. -/
def isPure (settings : Settings) (method : MemberRef) : Bool :=
  settings.pureMethods.contains (methodText method.owner method.name method.descriptor)

/-- Whether anything is to be done. -/
def isActive (settings : Settings) : Bool :=
  settings.simplifyCode || settings.finalizeClasses || settings.privatizeMethods ||
    settings.mergeInterfaces

end Settings

end JvmTrim
