import JvmTrim.Association
import JvmTrim.Instruction.Basic

/-!
# Edits of a method body

Edits are collected by the offset of the instruction that they are attached to, and nothing happens
to the body before they are applied. For one instruction an edit can put instructions in front of it,
replace it, and put instructions behind it. Displacements inside an edit count from the offset of the
instruction it is attached to.

## Main definitions

* `SiteEdit`: what happens at one instruction
* `Edit`: what happens to a body
-/

namespace JvmTrim

/-- What happens at one instruction. -/
structure SiteEdit where
  /-- Put in front of it. -/
  before : List Instruction
  /-- Put in its place; it stays if there is no replacement, and goes if that is empty. -/
  replacement : Option (List Instruction)
  /-- Put behind it. -/
  after : List Instruction
  deriving DecidableEq, Repr, Inhabited

namespace SiteEdit

/-- Nothing happens. -/
def keep : SiteEdit := ⟨[], none, []⟩

/-- What stands in the edited body for an instruction. -/
def emitted (edit : SiteEdit) (instruction : Instruction) : List Instruction :=
  edit.before ++ edit.replacement.getD [instruction] ++ edit.after

@[simp] theorem emitted_keep (instruction : Instruction) : keep.emitted instruction = [instruction] :=
  rfl

end SiteEdit

/-- What happens to a body. -/
structure Edit where
  /-- Length of the body in bytes. -/
  size : Nat
  /-- What happens at which offset. -/
  sites : List (Nat × SiteEdit)
  /-- The entries of the exception table that go. -/
  removedHandlers : List Nat
  deriving DecidableEq, Repr, Inhabited

namespace Edit

/-- No edits of a body of some length. -/
def ofSize (size : Nat) : Edit := ⟨size, [], []⟩

/-- Whether anything happens. -/
def isModified (edit : Edit) : Bool := !edit.sites.isEmpty || !edit.removedHandlers.isEmpty

/-- What happens at an offset. -/
def site (edit : Edit) (offset : Nat) : SiteEdit := (edit.sites.lookup offset).getD .keep

/-- Changes what happens at an offset. -/
def modifySite (edit : Edit) (offset : Nat) (change : SiteEdit → SiteEdit) : Edit :=
  { edit with sites := assign offset (change (edit.site offset)) edit.sites }

/-- Puts instructions in front of an instruction, behind those that are there already. -/
def insertBefore (edit : Edit) (offset : Nat) (instructions : List Instruction) : Edit :=
  if instructions.isEmpty then edit
  else edit.modifySite offset fun site => { site with before := site.before ++ instructions }

/-- Puts instructions behind an instruction and those that are there already. -/
def insertAfter (edit : Edit) (offset : Nat) (instructions : List Instruction) : Edit :=
  if instructions.isEmpty then edit
  else edit.modifySite offset fun site => { site with after := site.after ++ instructions }

/-- Replaces an instruction. -/
def replace (edit : Edit) (offset : Nat) (instructions : List Instruction) : Edit :=
  edit.modifySite offset fun site => { site with replacement := some instructions }

/-- Deletes an instruction. -/
def delete (edit : Edit) (offset : Nat) : Edit := edit.replace offset []

/-- Whether an instruction is replaced or deleted. -/
def isReplaced (edit : Edit) (offset : Nat) : Bool := (edit.site offset).replacement.isSome

/-- Removes an entry of the exception table. -/
def removeHandler (edit : Edit) (index : Nat) : Edit :=
  if edit.removedHandlers.contains index then edit
  else { edit with removedHandlers := edit.removedHandlers ++ [index] }

end Edit

end JvmTrim
