import JvmTrim.Simplify.Body
import JvmTrim.Tighten.Pass

/-!
# Optimizing a program

First the declarations of the program are tightened, then its method bodies are simplified in rounds
until a round changes nothing. A method body that cannot be simplified stays as it is, together with
the constants of its class.

## Main definitions

* `optimizeMethod`: simplifies one method, all or nothing
* `optimizeRound`: simplifies all methods once
* `optimize`: optimizes a program
-/

namespace JvmTrim

/-- What is used to optimize a program. -/
structure Optimizer where
  /-- The settings. -/
  settings : Settings
  /-- What has to stay. -/
  keep : KeepSet
  /-- What is assumed about values from outside a method; if nothing is said, the constants of static
  final fields. -/
  seeds : Option Seeds

/-- A failure of a method; a fault is reported with the name of the method. -/
def Failure.inMethod (method : String) : Failure → Failure
  | .fault cause => .abandoned method cause
  | failure => failure

/-- Simplifies a method. If that fails or changes nothing, the constants that it added on the way are
dropped. -/
def optimizeMethod (around : Surroundings) (assumptions : Assumptions) (owner : String) :
    Change (ConstantPool × Method) (Option Report) :=
  Change.ofEffect fun (pool, method) =>
    match method.code with
    | none => (.ok none, pool, method)
    | some code =>
      let context : MethodContext := ⟨around, assumptions, owner, method, code⟩
      match context.simplify.apply pool with
      | (.ok (some (simplified, report)), grown) =>
        (.ok (some report), grown, { method with code := some simplified })
      | (.ok none, grown) => (.ok none, grown.truncate pool.length, method)
      | (.error failure, grown) =>
        let name := Settings.methodText owner method.name method.descriptor
        (.error (failure.inMethod name), grown.truncate pool.length, method)

/-- Simplifies a method with code, and counts what happened. A failure is counted and goes no
further. -/
def countMethod (around : Surroundings) (assumptions : Assumptions) (owner : String) :
    Change ((ConstantPool × Statistics) × Method) Unit :=
  Change.ofEffect fun ((pool, statistics), method) =>
    match method.code with
    | none => (.ok (), (pool, statistics), method)
    | some code =>
      let statistics := { statistics with methodsProcessed := statistics.methodsProcessed + 1 }
      match (optimizeMethod around assumptions owner).apply (pool, method) with
      | (.ok (some report), pool, simplified) =>
        let after := (simplified.code.map (·.size)).getD 0
        (.ok (), (pool, { statistics with
          methodsChanged := statistics.methodsChanged + 1
          bytesBefore := statistics.bytesBefore + code.size
          bytesAfter := statistics.bytesAfter + after
          report := statistics.report.add report }), simplified)
      | (.ok none, pool, method) => (.ok (), (pool, statistics), method)
      | (.error _, pool, method) =>
        (.ok (), (pool, { statistics with methodsSkipped := statistics.methodsSkipped + 1 }), method)

/-- Simplifies the methods of a class, and counts what happened. -/
def optimizeClass (around : Surroundings) (assumptions : Assumptions) (file : ClassFile) :
    Statistics × ClassFile :=
  if file.isLibrary then ({}, file)
  else
    let (_, (pool, statistics), methods) :=
      Change.eachOf (countMethod around assumptions file.name) (file.pool, {}) file.methods
    (statistics, { file with pool, methods })

namespace Optimizer

variable (optimizer : Optimizer)

/-- Simplifies all methods of a program once. -/
def optimizeRound (pool : ClassPool) : Statistics × ClassPool :=
  let around : Surroundings := ⟨Hierarchy.ofPool pool, optimizer.settings, optimizer.keep⟩
  let assumptions := (optimizer.seeds.getD (Seeds.ofClassPool pool)).assumptions
  let results := pool.classes.map (optimizeClass around assumptions)
  (results.foldl (fun total result => total.addBodies result.1) {}, ⟨results.map (·.2)⟩)

/-- Simplifies all methods of a program until nothing changes, at most `bound` times. -/
def optimizeRounds : Nat → Statistics → ClassPool → Statistics × ClassPool
  | 0, statistics, pool => (statistics, pool)
  | bound + 1, statistics, pool =>
    let (round, pool) := optimizer.optimizeRound pool
    let statistics := { statistics with rounds := statistics.rounds + 1 }.addBodies round
    -- A round that changed nothing would only be repeated.
    if round.methodsChanged = 0 then (statistics, pool)
    else optimizeRounds bound statistics pool

/-- Runs a pass if the settings ask for it, and tells how much it changed. -/
def runPass (enabled : Bool) (pass : Pass) : Change ClassPool Nat :=
  if enabled then pass.run optimizer.keep else return 0

/-- Optimizes a program. Only a pass over its declarations can fail. -/
def optimize : Change ClassPool Statistics := do
  let settings := optimizer.settings
  if !settings.isActive then return {}
  let pool ← getThe ClassPool
  let linkage := Linkage.ofPool pool (Hierarchy.ofPool pool)
  let interfacesMerged ← optimizer.runPass settings.mergeInterfaces .mergeInterfaces
  let classesFinalized ← optimizer.runPass settings.finalizeClasses .finalizeClasses
  let methodsPrivatized ← optimizer.runPass settings.privatizeMethods .privatizeMethods
  let statistics : Statistics := {
    linkWarnings := linkage.warnings, linkNotes := linkage.notes
    interfacesMerged, classesFinalized, methodsPrivatized }
  if settings.simplifyCode then
    let pool ← getThe ClassPool
    let (statistics, pool) := optimizer.optimizeRounds settings.passes statistics pool
    set pool
    return statistics
  else return statistics

end Optimizer

end JvmTrim
