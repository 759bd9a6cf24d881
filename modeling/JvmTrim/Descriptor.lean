import JvmTrim.Failure
import JvmTrim.Kind

/-!
# Field and method descriptors

A field descriptor writes a type in a few characters (`I`, `[J`, `La/B;`), a method descriptor a
list of parameter types and a return type (`(IJ)V`). Reading is the inverse of writing: a
descriptor is accepted exactly if it is what some type writes.

## Main definitions

* `FieldType`, `FieldType.chars`, `FieldType.parse`
* `MethodDescriptor`, `MethodDescriptor.chars`, `MethodDescriptor.parse`
* `retargetDescriptor?`: one class name replaced by another wherever a descriptor names it
-/

namespace JvmTrim

/-- The type of a field, a parameter or a result. -/
inductive FieldType where
  | byte
  | char
  | double
  | float
  | int
  | long
  | short
  | boolean
  /-- A class or interface, by its internal name. -/
  | object (name : String)
  | array (component : FieldType)
  deriving DecidableEq, Repr, Inhabited

namespace FieldType

/-- The descriptor of a type, as characters. -/
def chars : FieldType → List Char
  | byte => ['B']
  | char => ['C']
  | double => ['D']
  | float => ['F']
  | int => ['I']
  | long => ['J']
  | short => ['S']
  | boolean => ['Z']
  | object name => 'L' :: (name.toList ++ [';'])
  | array component => '[' :: component.chars

/-- The descriptor of a type. -/
def text (type : FieldType) : String := String.ofList type.chars

/-- The kind that values of the type have on the operand stack. -/
def kind : FieldType → Kind
  | long => .long
  | float => .float
  | double => .double
  | object _ | array _ => .reference
  | byte | char | int | short | boolean => .int

/-- Number of words a value of the type occupies. -/
def size (type : FieldType) : Nat := type.kind.size

/-- The type with every mention of the class `source` replaced by `target`. -/
def retarget (source target : String) : FieldType → FieldType
  | object name => if name = source then object target else object name
  | array component => array (component.retarget source target)
  | type => type

/-- Reads a type from the front of some characters, and gives the characters behind it. A class
name runs to the first semicolon and is not empty. -/
def parseFront? : List Char → Option (FieldType × List Char)
  | 'B' :: rest => some (byte, rest)
  | 'C' :: rest => some (char, rest)
  | 'D' :: rest => some (double, rest)
  | 'F' :: rest => some (float, rest)
  | 'I' :: rest => some (int, rest)
  | 'J' :: rest => some (long, rest)
  | 'S' :: rest => some (short, rest)
  | 'Z' :: rest => some (boolean, rest)
  | 'L' :: rest =>
    match rest.takeWhile (· != ';'), rest.dropWhile (· != ';') with
    | [], _ => none
    | _, [] => none
    | name, _ :: behind => some (object (String.ofList name), behind)
  | '[' :: rest => (parseFront? rest).map fun (component, behind) => (array component, behind)
  | _ => none

/-- The type that a descriptor writes. -/
def parse (descriptor : String) : Except Failure FieldType :=
  match parseFront? descriptor.toList with
  | some (type, []) => .ok type
  | _ => .error (.invalidDescriptor descriptor)

theorem length_lt_of_parseFront? {input behind : List Char} {type : FieldType}
    (h : parseFront? input = some (type, behind)) : behind.length < input.length := by
  fun_induction parseFront? input generalizing type behind with
  | case11 rest _ after hdrop _ =>
    cases h
    have hle : (List.dropWhile (· != ';') rest).length ≤ rest.length :=
      (List.dropWhile_sublist _).length_le
    simp only [hdrop, List.length_cons] at hle ⊢
    omega
  | case12 rest ih =>
    obtain ⟨⟨component, behind'⟩, hp, he⟩ := Option.map_eq_some_iff.mp h
    cases he
    have := ih hp
    simp only [List.length_cons]
    omega
  | _ => simp_all

end FieldType

/-- The parameter types of a method and its result, if it has one. -/
structure MethodDescriptor where
  /-- Parameter types in order. -/
  parameters : List FieldType
  /-- The type of the result; none for `void`. -/
  result : Option FieldType
  deriving DecidableEq, Repr, Inhabited

namespace MethodDescriptor

/-- The descriptor of a method, as characters. -/
def chars (descriptor : MethodDescriptor) : List Char :=
  '(' :: (descriptor.parameters.flatMap FieldType.chars ++
    ')' :: (match descriptor.result with
      | some type => type.chars
      | none => ['V']))

/-- The descriptor of a method. -/
def text (descriptor : MethodDescriptor) : String := String.ofList descriptor.chars

/-- Reads parameter types up to the closing parenthesis, and gives the characters behind it. -/
def parseParameters? (input : List Char) : Option (List FieldType × List Char) :=
  match input with
  | ')' :: rest => some ([], rest)
  | input =>
    match h : FieldType.parseFront? input with
    | none => none
    | some (type, rest) =>
      have := FieldType.length_lt_of_parseFront? h
      (parseParameters? rest).map fun (types, behind) => (type :: types, behind)
termination_by input.length

/-- Reads a complete method descriptor. -/
def parseChars? : List Char → Option MethodDescriptor
  | '(' :: rest =>
    match parseParameters? rest with
    | some (parameters, ['V']) => some ⟨parameters, none⟩
    | some (parameters, behind) =>
      match FieldType.parseFront? behind with
      | some (type, []) => some ⟨parameters, some type⟩
      | _ => none
    | none => none
  | _ => none

/-- The parameter and result types that a descriptor writes. -/
def parse (descriptor : String) : Except Failure MethodDescriptor :=
  orFail (.invalidDescriptor descriptor) (parseChars? descriptor.toList)

/-- Number of words the parameters occupy, a receiver not counted. -/
def parameterSlots (descriptor : MethodDescriptor) : Nat :=
  descriptor.parameters.foldr (fun type slots => type.size + slots) 0

/-- Number of words the result occupies. -/
def resultSlots (descriptor : MethodDescriptor) : Nat :=
  match descriptor.result with
  | some type => type.size
  | none => 0

/-- The descriptor with every mention of the class `source` replaced by `target`. -/
def retarget (source target : String) (descriptor : MethodDescriptor) : MethodDescriptor where
  parameters := descriptor.parameters.map (FieldType.retarget source target)
  result := descriptor.result.map (FieldType.retarget source target)

end MethodDescriptor

/-- Whether `needle` occurs in some characters. -/
def occursIn (needle : List Char) : List Char → Bool
  | [] => needle.isEmpty
  | c :: rest => needle.isPrefixOf (c :: rest) || occursIn needle rest

/-- Whether a descriptor mentions a class as an object type. -/
def mentionsClass (descriptor name : String) : Bool :=
  occursIn (FieldType.object name).chars descriptor.toList

/-- A field or method descriptor with the class `source` replaced by `target`; none if it does not
mention the class or is no descriptor. -/
def retargetDescriptor? (descriptor source target : String) : Option String :=
  if !mentionsClass descriptor source then none
  else if descriptor.toList.head? = some '(' then
    match MethodDescriptor.parse descriptor with
    | .ok parsed => some (parsed.retarget source target).text
    | .error _ => none
  else
    match FieldType.parse descriptor with
    | .ok parsed => some (parsed.retarget source target).text
    | .error _ => none

end JvmTrim
