import JvmTrim.Edit.Apply
import JvmTrim.Hierarchy
import JvmTrim.KeepSet

/-!
# Making methods private

A method of a class becomes private if no other class refers to it and it takes no part in
overriding. References through method handles count as references from elsewhere. Calls of such a
method that look it up in the class of the receiver become direct calls.

## Main definitions

* `foreignReferences`: the methods that are referred to from elsewhere
* `canBePrivate`, `directCalls`
* `privatizeMethods`
-/

namespace JvmTrim

/-- The index of the method reference that a constant is or holds, and whether it is a handle. -/
def methodReference? (index : UInt16) : Constant → Option (UInt16 × Bool)
  | .methodref .. | .interfaceMethodref .. => some (index, false)
  | .methodHandle _ reference => some (reference, true)
  | _ => none

/-- The method that a constant of a class refers to as a class other than its own does. -/
def foreignReference? (hierarchy : Hierarchy) (file : ClassFile) (index : UInt16)
    (constant : Constant) : Option MemberKey := do
  let (reference, isHandle) ← methodReference? index constant
  let member ← (file.pool.memberRef reference).toOption
  let declaring := ((hierarchy.resolve? member).map (·.owner)).getD member.owner
  if isHandle || member.owner != file.name || declaring != file.name then
    some ⟨declaring, member.name, member.descriptor⟩
  else none

/-- The methods that are referred to from outside the class that declares them. -/
def foreignReferences (hierarchy : Hierarchy) (pool : ClassPool) : List MemberKey :=
  pool.programClasses.flatMap fun file =>
    file.pool.toList.filterMap fun (index, constant) =>
      foreignReference? hierarchy file index constant

/-- Whether a method of class `owner` can be made private. -/
def Method.canBePrivate (hierarchy : Hierarchy) (keep : KeepSet) (used : List MemberKey)
    (owner : String) (method : Method) : Bool :=
  let key : MemberKey := ⟨owner, method.name, method.descriptor⟩
  method.name.toList.head? != some '<' &&
    !method.access.hasAny (AccessFlags.private ||| AccessFlags.abstract) &&
    !keep.keepsMember key && !used.contains key &&
    !hierarchy.overrides owner method.name method.descriptor &&
    !hierarchy.isOverridden owner method.name method.descriptor

/-- The method as a private one. -/
def Method.madePrivate (method : Method) : Method :=
  let hidden := method.access.remove (AccessFlags.public ||| AccessFlags.protected)
  { method with access := hidden.insert AccessFlags.private }

/-- The edit that makes calls of private methods of class `owner` direct. -/
def directCalls (pool : ConstantPool) (owner : String) (made : List (String × String))
    (code : Code) : Except Failure Edit := do
  (← decodeAll code.bytes).foldlM (fun (edit : Edit) (offset, instruction) => do
    match instruction.operation, instruction.constantIndex? with
    | .invoke .virtual, some index =>
      let member ← pool.memberRef index
      return if member.owner = owner && made.contains (member.name, member.descriptor) then
          edit.replace offset [⟨Opcode.invokespecial, instruction.operand⟩]
        else edit
    | _, _ => return edit) (Edit.ofSize code.size)

/-- Makes the calls of private methods in a method direct. -/
def Method.callDirectly (pool : ConstantPool) (owner : String) (made : List (String × String))
    (method : Method) : Except Failure Method := do
  match method.code with
  | none => return method
  | some code =>
    let edit ← directCalls pool owner made code
    if edit.isModified then return { method with code := some (← edit.apply code pool) }
    else return method

/-- Changes a method so that its calls of private methods are direct. -/
def Method.makeCallsDirect (pool : ConstantPool) (owner : String) (made : List (String × String)) :
    Change (Unit × Method) Unit :=
  Change.ofEffect fun (shared, method) =>
    match method.callDirectly pool owner made with
    | .ok changed => (.ok (), shared, changed)
    | .error failure => (.error failure, shared, method)

/-- Makes methods of a class private, and adds their number. -/
def privatizeClass (hierarchy : Hierarchy) (keep : KeepSet) (used : List MemberKey) :
    Change (Nat × ClassFile) Unit := do
  let (total, file) ← getThe (Nat × ClassFile)
  if file.isLibrary || file.isInterface then return ()
  let canBe (method : Method) := method.canBePrivate hierarchy keep used file.name
  let made := (file.methods.filter canBe).foldl (fun (made : List (String × String)) method =>
    made.insert (method.name, method.descriptor)) []
  if made.isEmpty then return ()
  let methods := file.methods.map fun method => if canBe method then method.madePrivate else method
  Change.ofEffect fun _ =>
    let (result, _, methods) :=
      Change.eachOf (Method.makeCallsDirect file.pool file.name made) () methods
    (result, total + made.length, { file with methods })

/-- Makes methods private, and tells how many. -/
def privatizeMethods (hierarchy : Hierarchy) (keep : KeepSet) : Change ClassPool Nat :=
  Change.ofEffect fun pool =>
    let used := foreignReferences hierarchy pool
    let (result, total, classes) :=
      Change.eachOf (privatizeClass hierarchy keep used) 0 pool.classes
    (result.map fun _ => total, ⟨classes⟩)

end JvmTrim
