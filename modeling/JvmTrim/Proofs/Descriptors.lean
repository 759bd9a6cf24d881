import JvmTrim.Proofs.Outcome
import JvmTrim.Tighten.Merge
import Mathlib.Data.List.TakeWhile

/-!
# Class names in descriptors

A descriptor is what some type writes, and it is read back as that type, as long as the class names in
it can be written: a name that is empty or has a semicolon cannot. Replacing a class by another one
whose name can be written therefore replaces it among the names that a descriptor mentions, and
changes nothing else about them.

## Main definitions

* `IsClassName`: a name that can be written in a descriptor
* `descriptorNames`: the class names that a descriptor mentions
* `constantNames`: the class names that the name in a class constant mentions

## Main results

* `FieldType.parse_eq_ok`, `MethodDescriptor.parse_eq_ok`: reading is the inverse of writing
* `descriptors_read_as_written`: what is read are exactly the texts of types that can be written
* `Replacement.parse_descriptor`, `Replacement.parse_descriptor_field`: the types in a descriptor with a
  class replaced
* `Replacement.descriptorNames_descriptor`: the names in a descriptor with a class replaced
* `Replacement.mem_constantNames_className`: the names in a class constant with a class replaced
-/

namespace JvmTrim

/-- Whether a name can be written in a descriptor: it is not empty and has no semicolon. -/
def IsClassName (name : String) : Prop := name ≠ "" ∧ ';' ∉ name.toList

instance (name : String) : Decidable (IsClassName name) := inferInstanceAs (Decidable (_ ∧ _))

theorem IsClassName.toList_ne_nil {name : String} (h : IsClassName name) : name.toList ≠ [] := by
  simpa using h.1

/-! ## Types -/

namespace FieldType

/-- The class that a type names, itself or as the component of an array. -/
def className? : FieldType → Option String
  | object name => some name
  | array component => component.className?
  | _ => none

/-- Whether the class that a type names can be written. -/
def Writable (type : FieldType) : Prop := ∀ name, type.className? = some name → IsClassName name

theorem parseFront?_chars {type : FieldType} (h : type.Writable) (behind : List Char) :
    parseFront? (type.chars ++ behind) = some (type, behind) := by
  induction type with
  | object name =>
    have hname := h name rfl
    have hall : ∀ c ∈ name.toList, (c != ';') = true := by
      intro c hc
      rw [bne_iff_ne]
      rintro rfl
      exact hname.2 hc
    have hchars : (object name).chars ++ behind = 'L' :: (name.toList ++ ';' :: behind) := by
      simp [chars]
    have htake : (name.toList ++ ';' :: behind).takeWhile (· != ';') = name.toList := by
      simp [List.takeWhile_append_of_pos hall]
    have hdrop : (name.toList ++ ';' :: behind).dropWhile (· != ';') = ';' :: behind := by
      simp [List.dropWhile_append_of_pos hall]
    rw [hchars, parseFront?, htake, hdrop]
    obtain ⟨first, rest, hcons⟩ := List.exists_cons_of_ne_nil hname.toList_ne_nil
    have hread : String.ofList (first :: rest) = name := by rw [← hcons, String.ofList_toList]
    rw [hcons, ← hread]
  | array component ih =>
    rw [chars, List.cons_append, parseFront?, ih h]
    rfl
  | _ => rfl

theorem parseFront?_eq_some {input behind : List Char} {type : FieldType} :
    parseFront? input = some (type, behind) ↔ input = type.chars ++ behind ∧ type.Writable := by
  refine ⟨fun h => ?_, fun h => h.1 ▸ parseFront?_chars h.2 behind⟩
  fun_induction parseFront? input generalizing type behind with
  | case11 rest stop after hdrop hne =>
    cases h
    have hstop : stop = ';' := by
      have hhead := List.head?_dropWhile_not (· != ';') rest
      simpa [hdrop] using hhead
    have hsplit := List.takeWhile_append_dropWhile (p := (· != ';')) (l := rest)
    rw [hdrop, hstop] at hsplit
    refine ⟨by simp [chars, hsplit], ?_⟩
    intro name hname
    cases hname
    refine ⟨by simpa using hne, fun hsemicolon => ?_⟩
    rw [String.toList_ofList] at hsemicolon
    have hother := List.mem_takeWhile_imp hsemicolon
    simp at hother
  | case12 rest ih =>
    obtain ⟨⟨component, behind'⟩, hp, he⟩ := Option.map_eq_some_iff.mp h
    cases he
    obtain ⟨rfl, hwritable⟩ := ih hp
    exact ⟨rfl, hwritable⟩
  | _ =>
    first
    | cases h
      exact ⟨rfl, fun _ hname => by cases hname⟩
    | cases h

/-- A type is read from what it writes, and from nothing else. -/
theorem parse_eq_ok {descriptor : String} {type : FieldType} :
    parse descriptor = .ok type ↔ descriptor.toList = type.chars ∧ type.Writable := by
  have hfront : parse descriptor = .ok type ↔
      parseFront? descriptor.toList = some (type, []) := by
    unfold parse
    split
    · rename_i found heq
      simp [heq]
    · rename_i hne
      simp only [reduceCtorEq, false_iff]
      exact hne type
  rw [hfront, parseFront?_eq_some, List.append_nil]

theorem parse_text {type : FieldType} (h : type.Writable) : parse type.text = .ok type :=
  parse_eq_ok.mpr ⟨String.toList_ofList, h⟩

theorem text_of_parse {text : String} {type : FieldType} (h : parse text = .ok type) :
    type.text = text := by
  rw [FieldType.text, ← (parse_eq_ok.mp h).1, String.ofList_toList]

/-- What a type writes starts with none of the marks of a method descriptor. -/
theorem chars_append_ne_cons (type : FieldType) (behind : List Char) {mark : Char}
    (hmark : mark ∈ ['(', ')', 'V']) (rest : List Char) : type.chars ++ behind ≠ mark :: rest := by
  simp only [List.mem_cons, List.not_mem_nil, or_false] at hmark
  rcases hmark with rfl | rfl | rfl <;> cases type <;> simp [chars]

theorem head?_ne_of_parse {text : String} {type : FieldType} (h : parse text = .ok type) :
    text.toList.head? ≠ some '(' := by
  rw [(parse_eq_ok.mp h).1]
  intro hhead
  obtain ⟨rest, hrest⟩ := List.head?_eq_some_iff.mp hhead
  exact type.chars_append_ne_cons [] List.mem_cons_self rest ((List.append_nil _).trans hrest)

/-- A semicolon is written behind the name of a class, and nowhere else. -/
theorem semicolon_mem_chars {type : FieldType} : ';' ∈ type.chars ↔ type.className?.isSome := by
  induction type with
  | array component ih => simpa [chars, className?] using ih
  | _ => simp [chars, className?]

/-- Where a class is named, its object type is written. -/
theorem infix_chars {type : FieldType} {name : String} (h : type.className? = some name) :
    (object name).chars <:+: type.chars := by
  induction type with
  | object other =>
    cases h
    exact List.infix_rfl
  | array component ih => exact (ih h).trans (List.suffix_cons '[' _).isInfix
  | _ => cases h

/-- The name that takes the place of a class name. -/
def renamed (source target name : String) : String := if name = source then target else name

theorem className?_retarget (source target : String) (type : FieldType) :
    (type.retarget source target).className? = type.className?.map (renamed source target) := by
  induction type with
  | object name =>
    by_cases hname : name = source
    · simp [retarget, className?, renamed, hname]
    · simp [retarget, className?, renamed, hname]
  | array component ih => exact ih
  | _ => rfl

theorem retarget_of_ne {source target : String} {type : FieldType}
    (h : type.className? ≠ some source) : type.retarget source target = type := by
  induction type with
  | object name =>
    have hname : name ≠ source := fun heq => h (congrArg some heq)
    simp [retarget, hname]
  | array component ih => exact congrArg array (ih h)
  | _ => rfl

theorem Writable.retarget {type : FieldType} (h : type.Writable) (source : String) {target : String}
    (htarget : IsClassName target) : (type.retarget source target).Writable := by
  intro name hname
  rw [className?_retarget, Option.map_eq_some_iff] at hname
  obtain ⟨original, horiginal, rfl⟩ := hname
  rw [renamed]
  split
  · exact htarget
  · exact h original horiginal

end FieldType

/-! ## Descriptors of methods -/

namespace MethodDescriptor

/-- The types of the parameters and of the result. -/
def types (descriptor : MethodDescriptor) : List FieldType :=
  descriptor.parameters ++ descriptor.result.toList

/-- Whether the classes that a method descriptor names can be written. -/
def Writable (descriptor : MethodDescriptor) : Prop := ∀ type ∈ descriptor.types, type.Writable

theorem parseParameters?_eq_some {input behind : List Char} {types : List FieldType} :
    parseParameters? input = some (types, behind) ↔
      input = types.flatMap FieldType.chars ++ ')' :: behind ∧ ∀ type ∈ types, type.Writable := by
  constructor
  · intro h
    fun_induction parseParameters? input generalizing types with
    | case1 rest =>
      cases h
      exact ⟨rfl, fun _ hname => by cases hname⟩
    | case2 => cases h
    | case3 input hne type rest hfront _ ih =>
      obtain ⟨⟨others, behind'⟩, hothers, he⟩ := Option.map_eq_some_iff.mp h
      cases he
      obtain ⟨rfl, hwritable⟩ := FieldType.parseFront?_eq_some.mp hfront
      obtain ⟨rfl, hall⟩ := ih hothers
      exact ⟨by simp, List.forall_mem_cons.mpr ⟨hwritable, hall⟩⟩
  · rintro ⟨rfl, hwritable⟩
    induction types with
    | nil => simp [parseParameters?]
    | cons type types ih =>
      rw [List.forall_mem_cons] at hwritable
      have hfront := FieldType.parseFront?_chars hwritable.1
        (types.flatMap FieldType.chars ++ ')' :: behind)
      rw [List.flatMap_cons, List.append_assoc, parseParameters?]
      · split
        · rename_i hnone
          rw [hfront] at hnone
          cases hnone
        · rename_i found rest hsome
          rw [hfront] at hsome
          cases hsome
          simp [ih hwritable.2]
      · intro rest heq
        exact type.chars_append_ne_cons _ (by simp) rest heq

/-- The parameters and the result of a method are read from what they write. -/
theorem parseChars?_chars {descriptor : MethodDescriptor} (h : descriptor.Writable) :
    parseChars? descriptor.chars = some descriptor := by
  obtain ⟨parameters, result⟩ := descriptor
  have hread (behind : List Char) : parseParameters?
      (parameters.flatMap FieldType.chars ++ ')' :: behind) = some (parameters, behind) :=
    parseParameters?_eq_some.mpr ⟨rfl, fun type htype => h type (List.mem_append_left _ htype)⟩
  cases result with
  | none => simp [chars, parseChars?, hread]
  | some type =>
    have htype : FieldType.parseFront? type.chars = some (type, []) := by
      simpa using FieldType.parseFront?_chars (h type (by simp [types])) []
    have hvoid : type.chars ≠ ['V'] := by
      simpa using type.chars_append_ne_cons [] (List.mem_of_getLast? rfl) []
    simp only [chars, parseChars?, hread, htype]

theorem eq_chars_of_parseChars? {input : List Char} {descriptor : MethodDescriptor}
    (h : parseChars? input = some descriptor) :
    input = descriptor.chars ∧ descriptor.Writable := by
  unfold parseChars? at h
  split at h
  · rename_i rest
    split at h
    · rename_i parameters hparameters
      cases h
      obtain ⟨rfl, hwritable⟩ := parseParameters?_eq_some.mp hparameters
      exact ⟨rfl, by simpa [Writable, types] using hwritable⟩
    · rename_i parameters behind _ hparameters
      obtain ⟨rfl, hwritable⟩ := parseParameters?_eq_some.mp hparameters
      split at h
      · rename_i type htype
        cases h
        obtain ⟨rfl, hresult⟩ := FieldType.parseFront?_eq_some.mp htype
        refine ⟨by simp [chars], fun other hother => ?_⟩
        rcases List.mem_append.mp hother with hother | hother
        · exact hwritable other hother
        · obtain rfl : other = type := by simpa using hother
          exact hresult
      · cases h
    · cases h
  · cases h

/-- A method descriptor is read from what it writes, and from nothing else. -/
theorem parse_eq_ok {text : String} {descriptor : MethodDescriptor} :
    parse text = .ok descriptor ↔ text.toList = descriptor.chars ∧ descriptor.Writable := by
  rw [parse, orFail_eq_ok]
  exact ⟨eq_chars_of_parseChars?, fun ⟨htext, hwritable⟩ => htext ▸ parseChars?_chars hwritable⟩

theorem parse_text {descriptor : MethodDescriptor} (h : descriptor.Writable) :
    parse descriptor.text = .ok descriptor :=
  parse_eq_ok.mpr ⟨String.toList_ofList, h⟩

theorem text_of_parse {text : String} {descriptor : MethodDescriptor}
    (h : parse text = .ok descriptor) : descriptor.text = text := by
  rw [MethodDescriptor.text, ← (parse_eq_ok.mp h).1, String.ofList_toList]

theorem head?_of_parse {text : String} {descriptor : MethodDescriptor}
    (h : parse text = .ok descriptor) : text.toList.head? = some '(' := by
  rw [(parse_eq_ok.mp h).1]
  rfl

theorem types_retarget (source target : String) (descriptor : MethodDescriptor) :
    (descriptor.retarget source target).types =
      descriptor.types.map (FieldType.retarget source target) := by
  obtain ⟨parameters, result⟩ := descriptor
  cases result <;> simp [types, retarget]

/-- Where a class is not named, there is nothing to replace. -/
theorem retarget_of_ne {source target : String} {descriptor : MethodDescriptor}
    (h : ∀ type ∈ descriptor.types, type.className? ≠ some source) :
    descriptor.retarget source target = descriptor := by
  obtain ⟨parameters, result⟩ := descriptor
  have hparameters : parameters.map (FieldType.retarget source target) = parameters.map id :=
    List.map_congr_left fun type htype =>
      FieldType.retarget_of_ne (h type (List.mem_append_left _ htype))
  rw [retarget, hparameters, List.map_id]
  cases result with
  | none => rfl
  | some type => rw [Option.map_some, FieldType.retarget_of_ne (h type (by simp [types]))]

theorem Writable.retarget {descriptor : MethodDescriptor} (h : descriptor.Writable)
    (source : String) {target : String} (htarget : IsClassName target) :
    (descriptor.retarget source target).Writable := by
  intro type htype
  rw [types_retarget] at htype
  obtain ⟨original, horiginal, rfl⟩ := List.mem_map.mp htype
  exact (h original horiginal).retarget source htarget

/-- What the types write is part of what the descriptor writes. -/
theorem infix_chars {descriptor : MethodDescriptor} {type : FieldType}
    (h : type ∈ descriptor.types) : type.chars <:+: descriptor.chars := by
  obtain ⟨parameters, result⟩ := descriptor
  rcases List.mem_append.mp h with h | h
  · obtain ⟨front, back, rfl⟩ := List.append_of_mem h
    have hpart : type.chars <:+: (front ++ type :: back).flatMap FieldType.chars :=
      ⟨front.flatMap FieldType.chars, back.flatMap FieldType.chars, by simp⟩
    exact (hpart.trans (List.prefix_append _ _).isInfix).trans (List.suffix_cons _ _).isInfix
  · obtain rfl : result = some type := by simpa using h
    refine ⟨'(' :: (parameters.flatMap FieldType.chars ++ [')']), [], ?_⟩
    simp [chars]

theorem exists_of_semicolon_mem {descriptor : MethodDescriptor} (h : ';' ∈ descriptor.chars) :
    ∃ type ∈ descriptor.types, ';' ∈ type.chars := by
  obtain ⟨parameters, result⟩ := descriptor
  cases result with
  | none => simpa [chars, types] using h
  | some type =>
    rcases (by simpa [chars] using h : (∃ p ∈ parameters, ';' ∈ p.chars) ∨ ';' ∈ type.chars) with
      ⟨parameter, hmem, hsemicolon⟩ | hsemicolon
    · exact ⟨parameter, List.mem_append_left _ hmem, hsemicolon⟩
    · exact ⟨type, by simp [types], hsemicolon⟩

end MethodDescriptor

/-- **Descriptors are read exactly as they are written.** A text is read as a type, or as the types of
a method, if and only if they write it and every class in them has a name that can be written. So the
texts that can be read are those that such types write, and no others. -/
theorem descriptors_read_as_written (text : String) :
    (∀ type, FieldType.parse text = .ok type ↔ type.text = text ∧ type.Writable) ∧
      (∀ descriptor, MethodDescriptor.parse text = .ok descriptor ↔
        descriptor.text = text ∧ descriptor.Writable) ∧
      ((∃ type, FieldType.parse text = .ok type) ↔ ∃ type : FieldType, type.Writable ∧ type.text = text) ∧
      ((∃ descriptor, MethodDescriptor.parse text = .ok descriptor) ↔
        ∃ descriptor : MethodDescriptor, descriptor.Writable ∧ descriptor.text = text) := by
  have hfield (type : FieldType) :
      FieldType.parse text = .ok type ↔ type.text = text ∧ type.Writable := by
    constructor
    · exact fun h => ⟨FieldType.text_of_parse h, (FieldType.parse_eq_ok.mp h).2⟩
    · rintro ⟨rfl, hwritable⟩
      exact FieldType.parse_text hwritable
  have hmethod (descriptor : MethodDescriptor) :
      MethodDescriptor.parse text = .ok descriptor ↔
        descriptor.text = text ∧ descriptor.Writable := by
    constructor
    · exact fun h => ⟨MethodDescriptor.text_of_parse h, (MethodDescriptor.parse_eq_ok.mp h).2⟩
    · rintro ⟨rfl, hwritable⟩
      exact MethodDescriptor.parse_text hwritable
  refine ⟨hfield, hmethod, exists_congr fun type => ?_, exists_congr fun descriptor => ?_⟩
  · exact (hfield type).trans and_comm
  · exact (hmethod descriptor).trans and_comm

/-! ## The names in a descriptor -/

/-- Whether a text is the descriptor of a field or of a method. -/
def IsDescriptor (text : String) : Prop :=
  (∃ type, FieldType.parse text = .ok type) ∨ ∃ descriptor, MethodDescriptor.parse text = .ok descriptor

/-- The types in a descriptor: those of the parameters and the result of a method, or the type of a
field. -/
def descriptorTypes (text : String) : List FieldType :=
  match MethodDescriptor.parse text, FieldType.parse text with
  | .ok descriptor, _ => descriptor.types
  | .error _, .ok type => [type]
  | .error _, .error _ => []

/-- The class names that a descriptor mentions. -/
def descriptorNames (text : String) : List String :=
  (descriptorTypes text).filterMap FieldType.className?

/-- The class names that the name in a class constant mentions: the name itself, and the classes in
it if it is the name of an array class. -/
def constantNames (name : String) : List String :=
  name :: if isArrayName name then descriptorNames name else []

theorem occursIn_iff {needle chars : List Char} : occursIn needle chars = true ↔ needle <:+: chars := by
  induction chars with
  | nil => simp [occursIn]
  | cons c rest ih => simp [occursIn, ih, List.infix_cons_iff]

/-- The descriptor of a type mentions what the type names, and only that. -/
theorem descriptorTypes_of_parse_field {text : String} {type : FieldType}
    (h : FieldType.parse text = .ok type) : descriptorTypes text = [type] := by
  have hmethod : ∀ descriptor, MethodDescriptor.parse text ≠ .ok descriptor := by
    intro descriptor hdescriptor
    have hchars := (FieldType.parse_eq_ok.mp h).1
    rw [(MethodDescriptor.parse_eq_ok.mp hdescriptor).1] at hchars
    exact type.chars_append_ne_cons [] List.mem_cons_self _ ((List.append_nil _).trans hchars.symm)
  rw [descriptorTypes, h]
  split
  · rename_i hdescriptor
    exact absurd hdescriptor (hmethod _)
  · rename_i heq
    cases heq
    rfl
  · rename_i heq
    cases heq

theorem descriptorTypes_of_parse_method {text : String} {descriptor : MethodDescriptor}
    (h : MethodDescriptor.parse text = .ok descriptor) :
    descriptorTypes text = descriptor.types := by
  rw [descriptorTypes, h]

theorem descriptorTypes_of_not_isDescriptor {text : String} (h : ¬ IsDescriptor text) :
    descriptorTypes text = [] := by
  rw [descriptorTypes]
  split
  · rename_i hdescriptor
    exact absurd (.inr ⟨_, hdescriptor⟩) h
  · rename_i _ htype
    exact absurd (.inl ⟨_, htype⟩) h
  · rfl

/-- What the types in a descriptor write is part of it. -/
theorem infix_of_mem_descriptorTypes {text : String} {type : FieldType}
    (h : type ∈ descriptorTypes text) : type.chars <:+: text.toList := by
  by_cases hdescriptor : IsDescriptor text
  · obtain ⟨found, hfound⟩ | ⟨found, hfound⟩ := hdescriptor
    · rw [descriptorTypes_of_parse_field hfound] at h
      obtain rfl := List.mem_singleton.mp h
      exact (FieldType.parse_eq_ok.mp hfound).1 ▸ List.infix_rfl
    · rw [descriptorTypes_of_parse_method hfound] at h
      rw [(MethodDescriptor.parse_eq_ok.mp hfound).1]
      exact MethodDescriptor.infix_chars h
  · rw [descriptorTypes_of_not_isDescriptor hdescriptor] at h
    cases h

theorem mentionsClass_of_mem_descriptorNames {text name : String}
    (h : name ∈ descriptorNames text) : mentionsClass text name = true := by
  obtain ⟨type, htype, hname⟩ := List.mem_filterMap.mp h
  exact occursIn_iff.mpr ((FieldType.infix_chars hname).trans (infix_of_mem_descriptorTypes htype))

/-- Behind a class name in a descriptor there is a semicolon. -/
theorem semicolon_mem_of_mem_descriptorNames {text name : String}
    (h : name ∈ descriptorNames text) : ';' ∈ text.toList := by
  obtain ⟨type, htype, hname⟩ := List.mem_filterMap.mp h
  have hsemicolon : ';' ∈ type.chars := FieldType.semicolon_mem_chars.mpr (by simp [hname])
  exact (infix_of_mem_descriptorTypes htype).subset hsemicolon

/-- Before a semicolon in a descriptor there is a class name. -/
theorem exists_mem_descriptorNames {text : String} (h : IsDescriptor text)
    (hsemicolon : ';' ∈ text.toList) : ∃ name, name ∈ descriptorNames text := by
  obtain ⟨type, htype, hmem⟩ : ∃ type ∈ descriptorTypes text, ';' ∈ type.chars := by
    obtain ⟨type, htype⟩ | ⟨descriptor, hdescriptor⟩ := h
    · rw [(FieldType.parse_eq_ok.mp htype).1] at hsemicolon
      exact ⟨type, by simp [descriptorTypes_of_parse_field htype], hsemicolon⟩
    · rw [(MethodDescriptor.parse_eq_ok.mp hdescriptor).1] at hsemicolon
      rw [descriptorTypes_of_parse_method hdescriptor]
      exact MethodDescriptor.exists_of_semicolon_mem hsemicolon
  obtain ⟨name, hname⟩ := Option.isSome_iff_exists.mp (FieldType.semicolon_mem_chars.mp hmem)
  exact ⟨name, List.mem_filterMap.mpr ⟨type, htype, hname⟩⟩

/-! ## Replacing a class -/

namespace Replacement

variable {replacement : Replacement} {text changed : String}

/-- The name that takes the place of a class name. -/
def renamed (replacement : Replacement) (name : String) : String :=
  FieldType.renamed replacement.source replacement.target name

/-- What is replaced is a descriptor in which the class occurs. -/
theorem descriptor?_cases (h : replacement.descriptor? text = some changed) :
    mentionsClass text replacement.source = true ∧
      ((∃ type, FieldType.parse text = .ok type ∧
          changed = (type.retarget replacement.source replacement.target).text) ∨
        ∃ parsed, MethodDescriptor.parse text = .ok parsed ∧
          changed = (parsed.retarget replacement.source replacement.target).text) := by
  rw [descriptor?, retargetDescriptor?] at h
  split at h
  · cases h
  · rename_i hmentions
    refine ⟨by simpa using hmentions, ?_⟩
    split at h
    · split at h
      · rename_i parsed hparsed
        cases h
        exact .inr ⟨parsed, hparsed, rfl⟩
      · cases h
    · split at h
      · rename_i type htype
        cases h
        exact .inl ⟨type, htype, rfl⟩
      · cases h

/-- A descriptor in which a class was replaced. -/
theorem descriptor?_eq_some (htarget : IsClassName replacement.target)
    (h : replacement.descriptor? text = some changed) :
    IsDescriptor changed ∧ descriptorTypes changed = (descriptorTypes text).map
      (FieldType.retarget replacement.source replacement.target) := by
  obtain ⟨-, ⟨type, htype, rfl⟩ | ⟨parsed, hparsed, rfl⟩⟩ := descriptor?_cases h
  · have hwritable := (FieldType.parse_eq_ok.mp htype).2
    have hread := FieldType.parse_text (hwritable.retarget replacement.source htarget)
    rw [descriptorTypes_of_parse_field htype, descriptorTypes_of_parse_field hread]
    exact ⟨.inl ⟨_, hread⟩, rfl⟩
  · have hwritable := (MethodDescriptor.parse_eq_ok.mp hparsed).2
    have hread := MethodDescriptor.parse_text (hwritable.retarget replacement.source htarget)
    rw [descriptorTypes_of_parse_method hparsed, descriptorTypes_of_parse_method hread]
    exact ⟨.inr ⟨_, hread⟩, MethodDescriptor.types_retarget _ _ parsed⟩

/-- A descriptor in which there was nothing to replace. -/
theorem descriptor?_eq_none (h : replacement.descriptor? text = none) {type : FieldType}
    (htype : type ∈ descriptorTypes text) : type.className? ≠ some replacement.source := by
  intro hname
  have hmentions : mentionsClass text replacement.source = true :=
    mentionsClass_of_mem_descriptorNames (List.mem_filterMap.mpr ⟨type, htype, hname⟩)
  rw [descriptor?, retargetDescriptor?, hmentions] at h
  by_cases hdescriptor : IsDescriptor text
  · obtain ⟨found, hfound⟩ | ⟨found, hfound⟩ := hdescriptor
    · simp [FieldType.head?_ne_of_parse hfound, hfound] at h
    · simp [MethodDescriptor.head?_of_parse hfound, hfound] at h
  · rw [descriptorTypes_of_not_isDescriptor hdescriptor] at htype
    cases htype

theorem descriptorTypes_descriptor (htarget : IsClassName replacement.target) (text : String) :
    descriptorTypes (replacement.descriptor text) = (descriptorTypes text).map
      (FieldType.retarget replacement.source replacement.target) := by
  rw [descriptor]
  cases h : replacement.descriptor? text with
  | some changed => exact (descriptor?_eq_some htarget h).2
  | none =>
    have hsame : ∀ type ∈ descriptorTypes text,
        type.retarget replacement.source replacement.target = id type := fun type htype =>
      FieldType.retarget_of_ne (descriptor?_eq_none h htype)
    rw [List.map_congr_left hsame, List.map_id]
    rfl

theorem isDescriptor_descriptor (htarget : IsClassName replacement.target)
    (h : IsDescriptor text) : IsDescriptor (replacement.descriptor text) := by
  rw [descriptor]
  cases hchanged : replacement.descriptor? text with
  | some changed => exact (descriptor?_eq_some htarget hchanged).1
  | none => exact h

/-- **Replacing a class in the descriptor of a method** replaces it in the types. -/
theorem parse_descriptor (htarget : IsClassName replacement.target) {parsed : MethodDescriptor}
    (h : MethodDescriptor.parse text = .ok parsed) :
    MethodDescriptor.parse (replacement.descriptor text) =
      .ok (parsed.retarget replacement.source replacement.target) := by
  rw [descriptor]
  cases hchanged : replacement.descriptor? text with
  | none =>
    rw [Option.getD_none, h, MethodDescriptor.retarget_of_ne fun type htype =>
      descriptor?_eq_none hchanged (descriptorTypes_of_parse_method h ▸ htype)]
  | some changed =>
    obtain ⟨-, ⟨type, htype, -⟩ | ⟨found, hfound, rfl⟩⟩ := descriptor?_cases hchanged
    · exact absurd (MethodDescriptor.head?_of_parse h) (FieldType.head?_ne_of_parse htype)
    · obtain rfl : parsed = found := Except.ok.inj (h.symm.trans hfound)
      exact MethodDescriptor.parse_text ((MethodDescriptor.parse_eq_ok.mp h).2.retarget _ htarget)

/-- **Replacing a class in the descriptor of a field** replaces it in the type. -/
theorem parse_descriptor_field (htarget : IsClassName replacement.target) {type : FieldType}
    (h : FieldType.parse text = .ok type) :
    FieldType.parse (replacement.descriptor text) =
      .ok (type.retarget replacement.source replacement.target) := by
  rw [descriptor]
  cases hchanged : replacement.descriptor? text with
  | none =>
    rw [Option.getD_none, h, FieldType.retarget_of_ne (descriptor?_eq_none hchanged
      (descriptorTypes_of_parse_field h ▸ List.mem_singleton_self type))]
  | some changed =>
    obtain ⟨-, ⟨found, hfound, rfl⟩ | ⟨parsed, hparsed, -⟩⟩ := descriptor?_cases hchanged
    · obtain rfl : type = found := Except.ok.inj (h.symm.trans hfound)
      exact FieldType.parse_text ((FieldType.parse_eq_ok.mp h).2.retarget _ htarget)
    · exact absurd (MethodDescriptor.head?_of_parse hparsed) (FieldType.head?_ne_of_parse h)

/-- **Replacing a class in a descriptor** replaces it among the names that the descriptor mentions. -/
theorem descriptorNames_descriptor (htarget : IsClassName replacement.target) (text : String) :
    descriptorNames (replacement.descriptor text) =
      (descriptorNames text).map replacement.renamed := by
  rw [descriptorNames, descriptorNames, descriptorTypes_descriptor htarget, List.filterMap_map,
    List.map_filterMap]
  exact List.filterMap_congr fun type _ => FieldType.className?_retarget _ _ type

/-- The names in a changed descriptor: the class that was replaced is not among them, and the only
new one is the class in its place. -/
theorem mem_descriptorNames_descriptor (htarget : IsClassName replacement.target)
    (hne : replacement.target ≠ replacement.source) {name : String}
    (h : name ∈ descriptorNames (replacement.descriptor text)) :
    name ≠ replacement.source ∧ (name = replacement.target ∨ name ∈ descriptorNames text) := by
  rw [descriptorNames_descriptor htarget] at h
  obtain ⟨original, horiginal, rfl⟩ := List.mem_map.mp h
  by_cases hsource : original = replacement.source
  · have hrenamed : replacement.renamed original = replacement.target := if_pos hsource
    rw [hrenamed]
    exact ⟨hne, .inl rfl⟩
  · have hrenamed : replacement.renamed original = original := if_neg hsource
    rw [hrenamed]
    exact ⟨hsource, .inr horiginal⟩

/-- The name in a class constant in which the class takes the place of the interface. -/
def className (replacement : Replacement) (name : String) : String :=
  (replacement.className? name).getD name

/-- Where a class was replaced, its name is followed by a semicolon. -/
theorem semicolon_mem_of_descriptor? (htarget : IsClassName replacement.target)
    (h : replacement.descriptor? text = some changed) : ';' ∈ changed.toList := by
  obtain ⟨hmentions, hparsed⟩ := descriptor?_cases h
  have hdescriptor : IsDescriptor text :=
    hparsed.imp (fun ⟨type, htype, _⟩ => ⟨type, htype⟩) fun ⟨parsed, hread, _⟩ => ⟨parsed, hread⟩
  have hsemicolon : ';' ∈ text.toList :=
    (occursIn_iff.mp hmentions).subset (FieldType.semicolon_mem_chars.mpr rfl)
  obtain ⟨name, hname⟩ := exists_mem_descriptorNames hdescriptor hsemicolon
  have hrenamed : replacement.renamed name ∈ descriptorNames (replacement.descriptor text) := by
    rw [descriptorNames_descriptor htarget]
    exact List.mem_map_of_mem hname
  rw [descriptor, h] at hrenamed
  exact semicolon_mem_of_mem_descriptorNames hrenamed

/-- **Replacing a class in a class constant**: it is not among the names that the constant mentions,
and the only new one that can be written is the class in its place. -/
theorem mem_constantNames_className (htarget : IsClassName replacement.target)
    (hne : replacement.target ≠ replacement.source) {name : String} (hname : IsClassName name)
    (h : name ∈ constantNames (replacement.className text)) :
    name ≠ replacement.source ∧ (name = replacement.target ∨ name ∈ constantNames text) := by
  by_cases hsource : text = replacement.source
  · have hclass : replacement.className text = replacement.target := by
      simp [className, className?, hsource]
    rw [hclass, constantNames, List.mem_cons] at h
    rcases h with rfl | h
    · exact ⟨hne, .inl rfl⟩
    · split at h
      · exact absurd (semicolon_mem_of_mem_descriptorNames h) htarget.2
      · cases h
  · by_cases harray : isArrayName text = true
    · have hclass : replacement.className text = replacement.descriptor text := by
        simp [className, className?, descriptor, hsource, harray]
      rw [hclass, constantNames, List.mem_cons] at h
      rcases h with heq | h
      · cases hchanged : replacement.descriptor? text with
        | some changed =>
          have hsemicolon := semicolon_mem_of_descriptor? htarget hchanged
          rw [descriptor, hchanged] at heq
          exact absurd (heq ▸ hsemicolon) hname.2
        | none =>
          rw [descriptor, hchanged] at heq
          exact ⟨fun hsame => hsource (heq.symm.trans hsame), .inr (heq ▸ List.mem_cons_self)⟩
      · split at h
        · obtain ⟨hother, h⟩ := mem_descriptorNames_descriptor htarget hne h
          refine ⟨hother, h.imp_right fun hmem => ?_⟩
          simp [constantNames, harray, hmem]
        · cases h
    · have hclass : replacement.className text = text := by
        simp [className, className?, hsource, harray]
      rw [hclass] at h
      refine ⟨?_, .inr h⟩
      rintro rfl
      have heq : replacement.source = text := by simpa [constantNames, harray] using h
      exact hsource heq.symm

/-- Another name than that of the interface stays, if it can be written. -/
theorem className_of_ne (hname : IsClassName text) (hne : text ≠ replacement.source) :
    replacement.className text = text := by
  have hnone : replacement.descriptor? text = none := by
    refine Option.eq_none_iff_forall_ne_some.mpr fun changed hchanged => hname.2 ?_
    exact (occursIn_iff.mp (descriptor?_cases hchanged).1).subset
      (FieldType.semicolon_mem_chars.mpr rfl)
  simp [className, className?, hne, hnone]

/-- A name that can be written comes from the same name, unless it is that of the class in the place
of the interface. -/
theorem eq_of_className_eq (htarget : IsClassName replacement.target) {name : String}
    (hname : IsClassName name) (hne : name ≠ replacement.target)
    (h : replacement.className text = name) : text = name := by
  rw [className, className?] at h
  split at h
  · exact absurd h.symm hne
  · split at h
    · cases hchanged : replacement.descriptor? text with
      | some changed =>
        rw [hchanged] at h
        exact absurd (h ▸ semicolon_mem_of_descriptor? htarget hchanged) hname.2
      | none =>
        rw [hchanged] at h
        exact h
    · exact h

end Replacement

end JvmTrim
