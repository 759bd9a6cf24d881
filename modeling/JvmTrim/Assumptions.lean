import JvmTrim.Association
import JvmTrim.ClassFile.Class
import JvmTrim.Value

/-!
# Assumptions about the rest of the program

An evaluation of one method may be told what its parameters hold, what a field read gives and what a
call returns. `Assumptions` are these answers as functions; `Seeds` are tables that give them, matched
exactly by the class that a reference names.

## Main definitions

* `Assumptions`, `Assumptions.none`
* `Seeds`, `Seeds.ofClassPool`: the constants of static final fields
* `Seeds.assumptions`: the answers of the tables
-/

namespace JvmTrim

/-- What is assumed about values that come from outside a method. -/
structure Assumptions where
  /-- The value of a parameter slot when a method of a class is entered. -/
  parameter : String → Method → UInt16 → Option Value
  /-- The value that reading a field gives. -/
  field : MemberRef → Option Value
  /-- The value that a call returns. -/
  result : MemberRef → Option Value

/-- No assumptions at all. -/
def Assumptions.none : Assumptions where
  parameter _ _ _ := Option.none
  field _ := Option.none
  result _ := Option.none

instance : Inhabited Assumptions := ⟨Assumptions.none⟩

/-- A member by the class that is named for it, its name and its descriptor. -/
structure MemberKey where
  /-- Class. -/
  owner : String
  /-- Name. -/
  name : String
  /-- Descriptor. -/
  descriptor : String
  deriving DecidableEq, Repr, Inhabited, Hashable

/-- The key of a member reference. -/
def MemberRef.key (member : MemberRef) : MemberKey :=
  ⟨member.owner, member.name, member.descriptor⟩

/-- Tables of values that come from outside a method. -/
structure Seeds where
  /-- Parameters, by method and slot. -/
  parameters : List ((MemberKey × UInt16) × Value)
  /-- Fields. -/
  fields : List (MemberKey × Value)
  /-- Results of calls. -/
  results : List (MemberKey × Value)
  deriving Repr

namespace Seeds

/-- Empty tables. -/
def empty : Seeds := ⟨[], [], []⟩

instance : Inhabited Seeds := ⟨empty⟩

/-- Sets the value of a parameter slot. -/
def setParameter (seeds : Seeds) (method : MemberKey) (slot : UInt16) (value : Value) : Seeds :=
  { seeds with parameters := assign (method, slot) value seeds.parameters }

/-- Sets the value of a field. -/
def setField (seeds : Seeds) (field : MemberKey) (value : Value) : Seeds :=
  { seeds with fields := assign field value seeds.fields }

/-- Sets the result of calling a method. -/
def setResult (seeds : Seeds) (method : MemberKey) (value : Value) : Seeds :=
  { seeds with results := assign method value seeds.results }

/-- The constant that initializes a field, if it fits the field's descriptor. -/
def constantOf? (descriptor : String) : Constant → Option Value
  | .integer value =>
    if ["I", "S", "C", "B", "Z"].contains descriptor then some (.ofInt value) else none
  | .long value => if descriptor == "J" then some (.ofLong value) else none
  | .float bits => if descriptor == "F" then some (.ofFloat bits) else none
  | .double bits => if descriptor == "D" then some (.ofDouble bits) else none
  | _ => none

/-- The value of a field that is static and final and has a numeric initial value. -/
def fieldConstant? (file : ClassFile) (field : Field) : Option Value :=
  if field.access.has (AccessFlags.static ||| AccessFlags.final) then
    match field.constant with
    | none => none
    | some index =>
      match file.pool.get index with
      | .ok constant => constantOf? field.descriptor constant
      | .error _ => none
  else none

/-- The constants of the static final fields of a pool. -/
def ofClassPool (pool : ClassPool) : Seeds :=
  pool.classes.foldl (fun seeds file =>
    file.fields.foldl (fun seeds field =>
      match fieldConstant? file field with
      | some value => seeds.setField ⟨file.name, field.name, field.descriptor⟩ value
      | none => seeds) seeds) empty

/-- The answers of the tables. -/
def assumptions (seeds : Seeds) : Assumptions where
  parameter owner method slot :=
    seeds.parameters.lookup (⟨owner, method.name, method.descriptor⟩, slot)
  field member := seeds.fields.lookup member.key
  result member := seeds.results.lookup member.key

end Seeds

end JvmTrim
