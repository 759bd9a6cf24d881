/-!
# Access flags

The property flags of classes, methods and fields are single bits of a 16-bit word. Bits without a
known meaning are kept as they are.

## Main definitions

* `AccessFlags`, with `has`, `hasAny`, `insert` and `remove`
* `AccessFlags.classFlags`, `methodFlags`, `fieldFlags`: the known bits by name
-/

namespace JvmTrim

/-- The property flags of a class or a member. -/
abbrev AccessFlags := UInt16

namespace AccessFlags

/-- Accessible from everywhere. -/
def «public» : AccessFlags := 0x0001

/-- Accessible in the class only. -/
def «private» : AccessFlags := 0x0002

/-- Accessible in the package and in subclasses. -/
def «protected» : AccessFlags := 0x0004

/-- Not bound to an instance. -/
def static : AccessFlags := 0x0008

/-- Not to be extended, overridden or assigned again. -/
def final : AccessFlags := 0x0010

/-- Implemented outside the class. -/
def native : AccessFlags := 0x0100

/-- An interface and not a class. -/
def interface : AccessFlags := 0x0200

/-- Not to be instantiated, or without a body. -/
def «abstract» : AccessFlags := 0x0400

/-- Whether all bits of `mask` are set. -/
def has (flags mask : AccessFlags) : Bool := flags &&& mask == mask

/-- Whether some bit of `mask` is set. -/
def hasAny (flags mask : AccessFlags) : Bool := flags &&& mask != 0

/-- Sets the bits of `mask`. -/
def insert (flags mask : AccessFlags) : AccessFlags := flags ||| mask

/-- Clears the bits of `mask`. -/
def remove (flags mask : AccessFlags) : AccessFlags := flags &&& ~~~mask

/-- The flags of classes. -/
def classFlags : List (String × AccessFlags) := [
  ("PUBLIC", 0x0001), ("FINAL", 0x0010), ("SUPER", 0x0020), ("INTERFACE", 0x0200),
  ("ABSTRACT", 0x0400), ("SYNTHETIC", 0x1000), ("ANNOTATION", 0x2000), ("ENUM", 0x4000),
  ("MODULE", 0x8000)]

/-- The flags of methods. -/
def methodFlags : List (String × AccessFlags) := [
  ("PUBLIC", 0x0001), ("PRIVATE", 0x0002), ("PROTECTED", 0x0004), ("STATIC", 0x0008),
  ("FINAL", 0x0010), ("SYNCHRONIZED", 0x0020), ("BRIDGE", 0x0040), ("VARARGS", 0x0080),
  ("NATIVE", 0x0100), ("ABSTRACT", 0x0400), ("STRICT", 0x0800), ("SYNTHETIC", 0x1000)]

/-- The flags of fields. -/
def fieldFlags : List (String × AccessFlags) := [
  ("PUBLIC", 0x0001), ("PRIVATE", 0x0002), ("PROTECTED", 0x0004), ("STATIC", 0x0008),
  ("FINAL", 0x0010), ("VOLATILE", 0x0040), ("TRANSIENT", 0x0080), ("SYNTHETIC", 0x1000),
  ("ENUM", 0x4000)]

/-- The names of the known flags that are set. -/
def names (known : List (String × AccessFlags)) (flags : AccessFlags) : List String :=
  (known.filter fun (_, mask) => flags.has mask).map (·.1)

/-- Whether a method with these flags has a body. -/
def hasCode (flags : AccessFlags) : Bool := !flags.hasAny («abstract» ||| native)

end AccessFlags

end JvmTrim
