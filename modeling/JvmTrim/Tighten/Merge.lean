import JvmTrim.Edit.Apply
import JvmTrim.Hierarchy
import JvmTrim.KeepSet
import JvmTrim.Linkage

/-!
# Merging interfaces into their only implementation

An interface of the program that declares nothing but abstract methods and has exactly one
implementation is replaced by it: every mention of the interface in constants and descriptors becomes
a mention of the implementation, calls through the interface become ordinary calls, and the interface
is removed. It stays if it has to, if a member that has to stay mentions it, if it takes part in a call
site, whose implementation may be made at run time, or if two members would become the same.

## Main definitions

* `mergeCandidates`: interfaces with the implementations that they can be merged into
* `Replacement`: an interface with the class that takes its place
* `mergeInterfaces`
-/

namespace JvmTrim

/-- An interface with the class that takes its place. -/
structure Replacement where
  /-- The interface. -/
  source : String
  /-- The class. -/
  target : String
  deriving DecidableEq, Repr, Inhabited

/-! ## Candidates -/

/-- Whether an interface declares nothing but abstract methods. -/
def ClassFile.isBareInterface (file : ClassFile) : Bool :=
  file.isInterface && file.interfaces.isEmpty && file.fields.isEmpty &&
    file.methods.all (·.access.has AccessFlags.abstract)

/-- Whether a class is a concrete class of the program without subclasses. -/
def Hierarchy.isConcreteLeaf (hierarchy : Hierarchy) (name : String) : Bool :=
  ((hierarchy.get? name).any fun info =>
    !info.isLibrary && !info.isInterface && !info.access.has AccessFlags.abstract) &&
    (hierarchy.directSubclasses name).isEmpty

/-- Whether a call site of some class mentions an interface. -/
def ClassPool.hasCallSiteOf (pool : ClassPool) (name : String) : Bool :=
  pool.programClasses.any fun file => file.pool.toList.any fun (index, constant) =>
    match constant with
    | .invokeDynamic .. =>
      match file.pool.callSiteDescriptor index with
      | .ok descriptor => mentionsClass descriptor name
      | .error _ => false
    | _ => false

/-- Whether a member that has to stay mentions an interface. -/
def ClassPool.isKeptInSignature (pool : ClassPool) (keep : KeepSet) (name : String) : Bool :=
  pool.programClasses.any fun file =>
    let isKept (member descriptor : String) :=
      mentionsClass descriptor name && keep.keepsMember ⟨file.name, member, descriptor⟩
    file.methods.any (fun m => isKept m.name m.descriptor) ||
      file.fields.any (fun f => isKept f.name f.descriptor)

namespace Replacement

variable (replacement : Replacement)

/-- A descriptor in which the class takes the place of the interface, if it mentions it. -/
def descriptor? (descriptor : String) : Option String :=
  retargetDescriptor? descriptor replacement.source replacement.target

/-- A descriptor in which the class takes the place of the interface. -/
def descriptor (descriptor : String) : String :=
  (replacement.descriptor? descriptor).getD descriptor

/-- Whether two of the named descriptors become the same. -/
def clashes (members : List (String × String)) : Bool :=
  !decide (members.map fun (name, descriptor) => (name, replacement.descriptor descriptor)).Nodup

/-- Whether two members of some class become the same. -/
def clashesIn (pool : ClassPool) : Bool :=
  pool.programClasses.any fun file =>
    replacement.clashes (file.methods.map fun m => (m.name, m.descriptor)) ||
      replacement.clashes (file.fields.map fun f => (f.name, f.descriptor))

end Replacement

/-- The class that can take the place of an interface. -/
def mergeCandidate? (pool : ClassPool) (hierarchy : Hierarchy) (keep : KeepSet)
    (file : ClassFile) : Option Replacement :=
  if !file.isBareInterface || keep.keepsClass file.name then none
  else
    match hierarchy.directImplementors file.name with
    | [implementation] =>
      let replacement : Replacement := ⟨file.name, implementation⟩
      if !hierarchy.isConcreteLeaf implementation || pool.hasCallSiteOf file.name ||
          pool.isKeptInSignature keep file.name || replacement.clashesIn pool then none
      else some replacement
    | _ => none

/-- The interfaces that can be merged into a class. -/
def mergeCandidates (pool : ClassPool) (hierarchy : Hierarchy) (keep : KeepSet) :
    List Replacement :=
  pool.programClasses.filterMap (mergeCandidate? pool hierarchy keep)

/-! ## Replacing -/

namespace Replacement

variable (replacement : Replacement)

/-- The name of a class or array class in which the class takes the place of the interface, if it
mentions it. -/
def className? (name : String) : Option String :=
  if name = replacement.source then some replacement.target
  else if isArrayName name then replacement.descriptor? name
  else none

/-- The indices of the references to methods of the interface. -/
def methodReferences (pool : ConstantPool) : Except Failure (List UInt16) :=
  pool.toList.foldlM (fun (found : List UInt16) (index, constant) =>
    match constant with
    | .interfaceMethodref owner _ => do
      return if (← pool.className owner) = replacement.source then index :: found else found
    | _ => return found) []

/-- The kind of a method handle that calls through an interface. -/
def interfaceHandle : UInt8 := 9

/-- The kind of a method handle that calls through a class. -/
def virtualHandle : UInt8 := 5

/-- The index of a text in its place, if the text at an index mentions the interface. -/
def textIndex? (rename : String → Option String) (index : UInt16) : PoolM (Option UInt16) := do
  let pool ← getThe ConstantPool
  match rename (← pool.utf8 index) with
  | some text => some <$> ConstantPool.utf8Index text
  | none => return none

/-- The constant in the place of a constant, where `references` are the references to methods of the
interface. -/
def constant? (references : List UInt16) (index : UInt16) : Constant → PoolM (Option Constant)
  | .class name => do
    return (← textIndex? replacement.className? name).map .class
  | .nameAndType name descriptor => do
    return (← textIndex? replacement.descriptor? descriptor).map (.nameAndType name ·)
  | .methodType descriptor => do
    return (← textIndex? replacement.descriptor? descriptor).map .methodType
  | .interfaceMethodref owner nameAndType =>
    return if references.contains index then some (.methodref owner nameAndType) else none
  | .methodHandle kind reference =>
    return if kind = interfaceHandle && references.contains reference then
        some (.methodHandle virtualHandle reference)
      else none
  | _ => return none

/-- Replaces the interface in the constants of a class, and gives the indices of the references to
its methods. -/
def changeConstants : PoolM (List UInt16) := do
  let pool ← getThe ConstantPool
  let references ← replacement.methodReferences pool
  pool.toList.forM fun (index, constant) => do
    match ← replacement.constant? references index constant with
    | some changed =>
      let pool ← getThe ConstantPool
      set (← pool.set index changed)
    | none => pure ()
  return references

/-- Replaces the interface in the descriptor of a variable. -/
def changeVariable : Change (ConstantPool × VariableEntry) Unit := do
  let (_, entry) ← getThe (ConstantPool × VariableEntry)
  match ← Change.onFirst (textIndex? replacement.descriptor? entry.descriptor) with
  | some descriptor => modify fun (pool, entry) => (pool, { entry with descriptor })
  | none => pure ()

/-- The edit that turns calls of methods of the interface into ordinary calls. -/
def ordinaryCalls (references : List UInt16) (code : Code) : Except Failure Edit := do
  return (← decodeAll code.bytes).foldl (fun (edit : Edit) (offset, instruction) =>
    match instruction.operand with
    | .interfaceCall index _ =>
      if references.contains index then
        edit.replace offset [⟨Opcode.invokevirtual, .constant index⟩]
      else edit
    | _ => edit) (Edit.ofSize code.size)

/-- Replaces the interface in a method body. -/
def changeCode (references : List UInt16) : Change (ConstantPool × Code) Unit := do
  Change.ofEffect fun (pool, code) =>
    let (result, pool, localRanges) :=
      Change.eachOf replacement.changeVariable pool code.localRanges
    (result, pool, { code with localRanges })
  let (pool, code) ← getThe (ConstantPool × Code)
  let edit ← ordinaryCalls references code
  if edit.isModified then set (pool, ← edit.apply code pool)

/-- Replaces the interface in a method. -/
def changeMethod (references : List UInt16) : Change (ConstantPool × Method) Unit := do
  modify fun ((pool, method) : ConstantPool × Method) =>
    (pool, { method with descriptor := replacement.descriptor method.descriptor })
  Change.ofEffect fun (pool, method) =>
    match method.code with
    | none => (.ok (), pool, method)
    | some code =>
      let (result, pool, code) := (replacement.changeCode references).apply (pool, code)
      (result, pool, { method with code := some code })

/-- Replaces the interface in a class. -/
def changeClass : Change ClassFile Unit := do
  modify fun (file : ClassFile) =>
    { file with interfaces := file.interfaces.filter (· != replacement.source) }
  let references ← Change.ofEffect fun (file : ClassFile) =>
    let (result, pool) := replacement.changeConstants.apply file.pool
    (result, { file with pool })
  modify fun (file : ClassFile) =>
    { file with fields := file.fields.map fun field =>
        { field with descriptor := replacement.descriptor field.descriptor } }
  Change.ofEffect fun (file : ClassFile) =>
    let (result, pool, methods) :=
      Change.eachOf (replacement.changeMethod references) file.pool file.methods
    (result, { file with pool, methods })

/-- Replaces the interface in a class of the program other than itself. -/
def changeOther : Change (Unit × ClassFile) Unit :=
  Change.ofEffect fun (shared, file) =>
    if !file.isLibrary && file.name != replacement.source then
      let (result, file) := replacement.changeClass.apply file
      (result, shared, file)
    else (.ok (), shared, file)

/-- Replaces the interface in the program and removes it. -/
def merge : Change ClassPool Unit := do
  Change.ofEffect fun pool =>
    let (result, _, classes) := Change.eachOf replacement.changeOther () pool.classes
    (result, ClassPool.mk classes)
  modify (·.remove replacement.source)

end Replacement

/-- Merges interfaces into their only implementation, and tells how many. -/
def mergeInterfaces (hierarchy : Hierarchy) (keep : KeepSet) : Change ClassPool Nat := do
  let candidates := mergeCandidates (← getThe ClassPool) hierarchy keep
  candidates.forM (·.merge)
  return candidates.length

end JvmTrim
