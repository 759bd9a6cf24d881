import JvmTrim.Tighten.Final
import JvmTrim.Tighten.Merge
import JvmTrim.Tighten.Private

/-!
# Passes over declarations

The passes that tighten the declarations of a program, each with a name and a short description. A
pass looks at the class hierarchy as it is when the pass starts.
-/

namespace JvmTrim

/-- A pass over the declarations of a program. -/
inductive Pass where
  | mergeInterfaces
  | finalizeClasses
  | privatizeMethods
  deriving DecidableEq, Repr, Inhabited

namespace Pass

/-- The name of a pass. -/
def name : Pass → String
  | mergeInterfaces => "single-implementation-inliner"
  | finalizeClasses => "class-finalizer"
  | privatizeMethods => "method-privatizer"

/-- What a pass does, in a few words. -/
def description : Pass → String
  | mergeInterfaces => "Replaces interfaces that have one implementation by that implementation"
  | finalizeClasses => "Marks leaf classes final"
  | privatizeMethods => "Makes methods only used by their own class private"

/-- Runs a pass with the hierarchy that the program has now, and tells how much it changed. -/
def run (pass : Pass) (keep : KeepSet) : Change ClassPool Nat := do
  let hierarchy := Hierarchy.ofPool (← getThe ClassPool)
  match pass with
  | mergeInterfaces => JvmTrim.mergeInterfaces hierarchy keep
  | finalizeClasses => JvmTrim.finalizeClasses hierarchy keep
  | privatizeMethods => JvmTrim.privatizeMethods hierarchy keep

end Pass

end JvmTrim
