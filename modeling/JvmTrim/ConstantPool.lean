import JvmTrim.Change

/-!
# The constant pool

Constants are addressed by index from 1 on. A long or a double takes two indices, of which the
second is unusable, and slot 0 is unusable too. The pool only ever grows at its end, and
`ConstantPool.truncate` takes back what was appended since a given length.

Growing is a computation in `PoolM`, which keeps what was appended before a failure.

## Main definitions

* `Constant`, `MemberRef`
* `ConstantPool`, with `get`, `add`, `findOrAdd` and `truncate`
* `ConstantPool.memberRef`, `ConstantPool.memberRefIndex`: symbolic references, read and written
-/

namespace JvmTrim

/-- A constant pool entry. Floating point numbers are kept as their bits, and all other constants
refer to their parts by index. -/
inductive Constant where
  | utf8 (text : String)
  | integer (value : Int32)
  | float (bits : UInt32)
  | long (value : Int64)
  | double (bits : UInt64)
  | class (name : UInt16)
  | string (contents : UInt16)
  | fieldref (owner nameAndType : UInt16)
  | methodref (owner nameAndType : UInt16)
  | interfaceMethodref (owner nameAndType : UInt16)
  | nameAndType (name descriptor : UInt16)
  | methodHandle (kind : UInt8) (reference : UInt16)
  | methodType (descriptor : UInt16)
  | dynamic (bootstrap nameAndType : UInt16)
  | invokeDynamic (bootstrap nameAndType : UInt16)
  | module (name : UInt16)
  | package (name : UInt16)
  deriving DecidableEq, Repr, Inhabited

namespace Constant

/-- Whether the constant takes two indices. -/
def isWide : Constant → Bool
  | long _ | double _ => true
  | _ => false

/-- Number of indices the constant takes. -/
def slots (constant : Constant) : Nat := if constant.isWide then 2 else 1

/-- The name of the constant's sort. -/
def sort : Constant → String
  | utf8 _ => "Utf8"
  | integer _ => "Integer"
  | float _ => "Float"
  | long _ => "Long"
  | double _ => "Double"
  | «class» _ => "Class"
  | string _ => "String"
  | fieldref .. => "Fieldref"
  | methodref .. => "Methodref"
  | interfaceMethodref .. => "InterfaceMethodref"
  | nameAndType .. => "NameAndType"
  | methodHandle .. => "MethodHandle"
  | methodType _ => "MethodType"
  | dynamic .. => "Dynamic"
  | invokeDynamic .. => "InvokeDynamic"
  | module _ => "Module"
  | package _ => "Package"

/-- Whether an equal entry may stand in for the constant. Handles, call sites and the names of
modules and packages are never shared. -/
def isShareable : Constant → Bool
  | methodHandle .. | dynamic .. | invokeDynamic .. | module _ | package _ => false
  | _ => true

end Constant

/-- What a member reference refers to. -/
inductive MemberKind where
  | field
  | method
  | interfaceMethod
  deriving DecidableEq, Repr, Inhabited

/-- A symbolic reference to a member: the class it names, the member's name and its descriptor. -/
structure MemberRef where
  /-- Internal name of the class the reference names. -/
  owner : String
  /-- Name of the member. -/
  name : String
  /-- Descriptor of the member. -/
  descriptor : String
  /-- What the reference refers to. -/
  kind : MemberKind
  deriving DecidableEq, Repr, Inhabited

/-- Whether a method name is that of an instance or class initializer. -/
def isInitializerName (name : String) : Bool := name == "<init>" || name == "<clinit>"

namespace MemberRef

/-- Whether the reference is to an instance or class initializer. -/
def isInitializer (member : MemberRef) : Bool := isInitializerName member.name

/-- The reference as text. -/
def text (member : MemberRef) : String :=
  match member.kind with
  | .field => s!"{member.owner}.{member.name}:{member.descriptor}"
  | .method | .interfaceMethod => s!"{member.owner}.{member.name}{member.descriptor}"

end MemberRef

/-- The constants of a class by index. -/
structure ConstantPool where
  /-- The entry at each index; slot 0 and the second index of a wide constant hold none. -/
  entries : Array (Option Constant)
  deriving DecidableEq, Repr

/-- A computation that may append to a constant pool. What it appended stays if it fails. -/
abbrev PoolM := Change ConstantPool

namespace ConstantPool

/-- The pool without constants. -/
def empty : ConstantPool := ⟨#[none]⟩

instance : Inhabited ConstantPool := ⟨empty⟩

/-- One more than the highest index. -/
def length (pool : ConstantPool) : Nat := pool.entries.size

/-- Whether there are no constants. -/
def isEmpty (pool : ConstantPool) : Bool := pool.length ≤ 1

/-- Drops every entry from index `length` on; slot 0 stays. -/
def truncate (pool : ConstantPool) (length : Nat) : ConstantPool :=
  ⟨pool.entries.take (max length 1)⟩

/-- The usable entries with their indices. -/
def toList (pool : ConstantPool) : List (UInt16 × Constant) :=
  pool.entries.toList.zipIdx.filterMap fun (entry, index) =>
    entry.map fun constant => (UInt16.ofNat index, constant)

/-- The entry at an index. -/
def get (pool : ConstantPool) (index : UInt16) : Except Failure Constant :=
  orFail (.poolIndex index .unusable) (pool.entries[index.toNat]?).join

/-- Replaces the entry at an index, which has to be usable. -/
def set (pool : ConstantPool) (index : UInt16) (constant : Constant) :
    Except Failure ConstantPool := do
  let _ ← pool.get index
  return ⟨pool.entries.setIfInBounds index.toNat (some constant)⟩

/-- The pool with a constant at its end. -/
def append (pool : ConstantPool) (constant : Constant) : ConstantPool :=
  if constant.isWide then ⟨(pool.entries.push (some constant)).push none⟩
  else ⟨pool.entries.push (some constant)⟩

/-- The first index of an entry that may stand in for the constant. -/
def find? (pool : ConstantPool) (constant : Constant) : Option UInt16 :=
  if constant.isShareable then
    (pool.entries.findIdx? (· == some constant)).map UInt16.ofNat
  else none

/-- Appends a constant and gives its index. The length of the pool stays below 65536. -/
def add (constant : Constant) : PoolM UInt16 :=
  Change.ofEffect fun pool =>
    let index := pool.length
    if index + constant.slots > 65535 then (.error .poolOverflow, pool)
    else (.ok (UInt16.ofNat index), pool.append constant)

/-- The index of an equal entry, appended if there is none. -/
def findOrAdd (constant : Constant) : PoolM UInt16 := do
  match (← getThe ConstantPool).find? constant with
  | some index => return index
  | none => add constant

/-- The index of a text. -/
def utf8Index (text : String) : PoolM UInt16 := findOrAdd (.utf8 text)

/-- The index of a class constant. -/
def classIndex (name : String) : PoolM UInt16 := do
  findOrAdd (.class (← utf8Index name))

/-- The index of a name with a descriptor. -/
def nameAndTypeIndex (name descriptor : String) : PoolM UInt16 := do
  let name ← utf8Index name
  let descriptor ← utf8Index descriptor
  findOrAdd (.nameAndType name descriptor)

/-- The index of a member reference. -/
def memberRefIndex (member : MemberRef) : PoolM UInt16 := do
  let owner ← classIndex member.owner
  let nameAndType ← nameAndTypeIndex member.name member.descriptor
  findOrAdd (match member.kind with
    | .field => .fieldref owner nameAndType
    | .method => .methodref owner nameAndType
    | .interfaceMethod => .interfaceMethodref owner nameAndType)

/-- The text at an index. -/
def utf8 (pool : ConstantPool) (index : UInt16) : Except Failure String := do
  match ← pool.get index with
  | .utf8 text => return text
  | _ => throw (.poolIndex index .notUtf8)

/-- The name of the class at an index. -/
def className (pool : ConstantPool) (index : UInt16) : Except Failure String := do
  match ← pool.get index with
  | .class name => pool.utf8 name
  | _ => throw (.poolIndex index .notClass)

/-- The name and descriptor at an index. -/
def nameAndType (pool : ConstantPool) (index : UInt16) : Except Failure (String × String) := do
  match ← pool.get index with
  | .nameAndType name descriptor =>
    let name ← pool.utf8 name
    let descriptor ← pool.utf8 descriptor
    return (name, descriptor)
  | _ => throw (.poolIndex index .notNameAndType)

/-- The member reference at an index. -/
def memberRef (pool : ConstantPool) (index : UInt16) : Except Failure MemberRef := do
  let (owner, nameAndType, kind) ← match ← pool.get index with
    | .fieldref owner nameAndType => pure (owner, nameAndType, MemberKind.field)
    | .methodref owner nameAndType => pure (owner, nameAndType, MemberKind.method)
    | .interfaceMethodref owner nameAndType =>
      pure (owner, nameAndType, MemberKind.interfaceMethod)
    | _ => throw (.poolIndex index .notMember)
  let (name, descriptor) ← pool.nameAndType nameAndType
  return ⟨← pool.className owner, name, descriptor, kind⟩

/-- The method descriptor of the call site at an index. -/
def callSiteDescriptor (pool : ConstantPool) (index : UInt16) : Except Failure String := do
  match ← pool.get index with
  | .invokeDynamic _ nameAndType => return (← pool.nameAndType nameAndType).2
  | _ => throw (.poolIndex index .notCallSite)

end ConstantPool

end JvmTrim
