import JvmTrim.ClassFile.Access
import JvmTrim.ClassFile.Code
import JvmTrim.ConstantPool
import JvmTrim.Descriptor

/-!
# Classes and the class pool

The classes of a program, and the library classes that are only consulted about the hierarchy.
A class pool holds them in the order in which they were added; adding a class under a name that is
taken replaces the class in its place.

## Main definitions

* `Method`, `Field`, `ClassFile`
* `ClassPool`, with `add`, `remove` and `get?`
-/

namespace JvmTrim

/-- A method. -/
structure Method where
  /-- Property flags. -/
  access : AccessFlags
  /-- Name. -/
  name : String
  /-- Descriptor. -/
  descriptor : String
  /-- Body; none for abstract and native methods. -/
  code : Option Code
  deriving DecidableEq, Repr, Inhabited

namespace Method

/-- Whether the method has no receiver. -/
def isStatic (method : Method) : Bool := method.access.has AccessFlags.static

/-- Whether the method initializes an instance. -/
def isConstructor (method : Method) : Bool := method.name == "<init>"

/-- Whether the method initializes an instance or the class. -/
def isInitializer (method : Method) : Bool := isInitializerName method.name

end Method

/-- A field. -/
structure Field where
  /-- Property flags. -/
  access : AccessFlags
  /-- Name. -/
  name : String
  /-- Descriptor. -/
  descriptor : String
  /-- Constant pool index of its initial value, if it has one. -/
  constant : Option UInt16
  deriving DecidableEq, Repr, Inhabited

/-- A class or interface. -/
structure ClassFile where
  /-- Internal name. -/
  name : String
  /-- Name of the superclass; none for the root of the hierarchy. -/
  superName : Option String
  /-- Names of the direct superinterfaces. -/
  interfaces : List String
  /-- Property flags. -/
  access : AccessFlags
  /-- Constants. -/
  pool : ConstantPool
  /-- Declared fields. -/
  fields : List Field
  /-- Declared methods. -/
  methods : List Method
  /-- Library classes are consulted and never changed. -/
  isLibrary : Bool
  deriving DecidableEq, Repr, Inhabited

namespace ClassFile

/-- Whether the class is an interface. -/
def isInterface (file : ClassFile) : Bool := file.access.has AccessFlags.interface

/-- The declared method with a name and descriptor. -/
def method? (file : ClassFile) (name descriptor : String) : Option Method :=
  file.methods.find? fun m => m.name == name && m.descriptor == descriptor

/-- The declared field with a name and descriptor. -/
def field? (file : ClassFile) (name descriptor : String) : Option Field :=
  file.fields.find? fun f => f.name == name && f.descriptor == descriptor

/-- Whether the class has a static initializer. -/
def hasStaticInitializer (file : ClassFile) : Bool :=
  file.methods.any fun m => m.name == "<clinit>"

/-- Changes the first method with a name and descriptor, if there is one. -/
def modifyMethod (file : ClassFile) (name descriptor : String) (change : Method → Method) :
    ClassFile :=
  let rec go : List Method → List Method
    | [] => []
    | m :: rest =>
      if m.name == name && m.descriptor == descriptor then change m :: rest else m :: go rest
  { file with methods := go file.methods }

end ClassFile

/-- All known classes, in the order in which their names were first added. -/
structure ClassPool where
  /-- The classes, no two of them with the same name. -/
  classes : List ClassFile
  deriving DecidableEq, Repr, Inhabited

namespace ClassPool

/-- The pool without classes. -/
def empty : ClassPool := ⟨[]⟩

/-- The class with a name. -/
def get? (pool : ClassPool) (name : String) : Option ClassFile :=
  pool.classes.find? (·.name == name)

/-- Adds a class, in place of the class with the same name if there is one. -/
def add (pool : ClassPool) (file : ClassFile) : ClassPool :=
  if pool.classes.any (·.name == file.name) then
    ⟨pool.classes.map fun c => if c.name == file.name then file else c⟩
  else ⟨pool.classes ++ [file]⟩

/-- Removes the class with a name; the others keep their order. -/
def remove (pool : ClassPool) (name : String) : ClassPool :=
  ⟨pool.classes.filter (·.name != name)⟩

/-- The pool with these classes added in order. -/
def ofList (classes : List ClassFile) : ClassPool := classes.foldl add empty

/-- The classes that are not library classes. -/
def programClasses (pool : ClassPool) : List ClassFile := pool.classes.filter (!·.isLibrary)

end ClassPool

end JvmTrim
