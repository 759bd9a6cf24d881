import JvmTrim.Instruction.Basic

/-!
# Instructions as text

The mnemonic followed by the operand: constant pool indices are marked with `#`, displacements
carry their sign, and switches list their cases before the default.
-/

namespace JvmTrim

/-- Items in square brackets, separated by commas. -/
def bracketed (items : List String) : String :=
  "[" ++ String.intercalate ", " items ++ "]"

/-- An operand as it follows the mnemonic. -/
def Operand.text : Operand → String
  | none => ""
  | byte value => s!" {value.toInt}"
  | short value => s!" {value.toInt}"
  | slot index => s!" {index}"
  | increment index delta => s!" {index} {delta.toInt}"
  | constant index => s!" #{index}"
  | branch displacement => s!" {signed displacement.toInt}"
  | arrayType code => s!" {code}"
  | interfaceCall index count => s!" #{index} {count}"
  | multiArray index dimensions => s!" #{index} {dimensions}"
  | table default low high displacements =>
    let cases := bracketed (displacements.map fun d => toString d.toInt)
    s!" {low.toInt}..={high.toInt} {cases} default {signed default.toInt}"
  | lookup default cases =>
    let cases := bracketed (cases.map fun c => s!"({c.1.toInt}, {c.2.toInt})")
    s!" {cases} default {signed default.toInt}"

/-- An instruction as text. -/
def Instruction.text (instruction : Instruction) : String :=
  instruction.mnemonic ++ instruction.operand.text

end JvmTrim
