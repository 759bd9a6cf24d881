import JvmTrim.Proofs.Exchange
import JvmTrim.Proofs.Merging

/-!
# Calls that become ordinary

Turning calls through an interface into ordinary calls exchanges single instructions for shorter ones.
This is done for one interface after another, and a body that is changed several times never gets
longer than twice its first length.

## Main definitions

* `Instruction.madeOrdinary`: a call through an interface as an ordinary call
* `Instruction.Follows`: an instruction of a changed body and the one in its place before
* `Code.Follows`: a body in which calls became ordinary

## Main results

* `Code.Follows.trans`: making calls ordinary repeatedly
* `Replacement.follows_of_ordinaryCalls`: making calls ordinary changes nothing else
-/

namespace JvmTrim

/-! ## Single instructions -/

namespace Instruction

/-- The instruction, as an ordinary call if it is a call through an interface by one of the references
that are to be changed. -/
def madeOrdinary (isCall : UInt16 → Bool) (instruction : Instruction) : Instruction :=
  match instruction.operand with
  | .interfaceCall index _ =>
    if isCall index then ⟨Opcode.invokevirtual, .constant index⟩ else instruction
  | _ => instruction

variable {isCall other : UInt16 → Bool} {instruction : Instruction}

theorem displacements_madeOrdinary :
    (instruction.madeOrdinary isCall).displacements = instruction.displacements := by
  obtain ⟨opcode, operand⟩ := instruction
  cases operand with
  | interfaceCall index count =>
    by_cases h : isCall index = true <;> simp [madeOrdinary, h, displacements]
  | _ => rfl

theorem madeOrdinary_madeOrdinary :
    (instruction.madeOrdinary isCall).madeOrdinary other =
      instruction.madeOrdinary fun index => isCall index || other index := by
  obtain ⟨opcode, operand⟩ := instruction
  cases operand with
  | interfaceCall index count =>
    by_cases h : isCall index = true <;> simp [madeOrdinary, h]
  | _ => rfl

theorem madeOrdinary_false : (instruction.madeOrdinary fun _ => false) = instruction := by
  obtain ⟨opcode, operand⟩ := instruction
  cases operand <;> rfl

/-- Neither the width of a jump nor displacements decide what becomes an ordinary call. -/
theorem form_madeOrdinary :
    (instruction.madeOrdinary isCall).form = instruction.form.madeOrdinary isCall := by
  obtain ⟨opcode, operand⟩ := instruction
  cases operand with
  | interfaceCall index count =>
    have hoperand : (form ⟨opcode, .interfaceCall index count⟩).operand =
        .interfaceCall index count := by
      simp [form, mapDisplacements]
    by_cases h : isCall index = true
    · simp only [madeOrdinary, hoperand, h, if_true]
      rfl
    · simp [madeOrdinary, hoperand, h]
  | _ => simp [madeOrdinary, form, mapDisplacements]

theorem WellFormed.madeOrdinary (h : instruction.WellFormed) :
    (instruction.madeOrdinary isCall).WellFormed := by
  have hlayout : Opcode.invokevirtual.layout? = some .constant := by decide +kernel
  rw [Instruction.madeOrdinary]
  split
  · split
    · exact ⟨.constant, hlayout, trivial⟩
    · exact h
  · exact h

theorem stored_madeOrdinary (h : instruction.Fits) :
    (instruction.madeOrdinary isCall).stored = instruction.madeOrdinary isCall := by
  rw [madeOrdinary]
  split
  · split
    · exact stored_of_ne_ldc (show Opcode.invokevirtual ≠ Opcode.ldc by decide)
    · exact stored_of_fits h
  · exact stored_of_fits h

theorem length_madeOrdinary_le (isCall : UInt16 → Bool) (instruction : Instruction) (offset : Nat) :
    (instruction.madeOrdinary isCall).length offset ≤ instruction.length offset := by
  obtain ⟨opcode, operand⟩ := instruction
  cases operand with
  | interfaceCall index count =>
    by_cases h : isCall index = true
    · have hcall : (Instruction.mk Opcode.invokevirtual (.constant index)).length offset = 3 := by
        simp [length, show Opcode.invokevirtual ≠ Opcode.ldc by decide,
          show Opcode.invokevirtual ≠ Opcode.invokedynamic by decide]
      simp only [madeOrdinary, h, if_true, hcall]
      simp [length]
    · simp [madeOrdinary, h]
  | _ => exact Nat.le_refl _

theorem exchange_madeOrdinary (isCall : UInt16 → Bool) : Exchange (madeOrdinary isCall) where
  displacements _ := displacements_madeOrdinary
  wellFormed _ := WellFormed.madeOrdinary
  stored _ := stored_madeOrdinary
  length_le := length_madeOrdinary_le isCall

end Instruction

/-! ## Bodies -/

/-- Whether an instruction of a changed body follows the one in its place before: it is the same apart
from the width of a jump, or became an ordinary call, and its displacements lead to the same places. -/
structure Instruction.Follows (isCall : UInt16 → Bool) (before after : List (Nat × Instruction))
    (source result : Nat × Instruction) : Prop where
  form_eq : result.2.form = (source.2.madeOrdinary isCall).form
  targets : List.Forall₂ (fun old new => ∀ place,
      LeadsTo before source.1 old place ↔ LeadsTo after result.1 new place)
    source.2.displacements result.2.displacements

/-- Whether a body is another one in which calls by some references became ordinary. -/
def Code.Follows (isCall : UInt16 → Bool) (code changed : Code) : Prop :=
  ∀ before, decodeAll code.bytes = .ok before → ∃ after, decodeAll changed.bytes = .ok after ∧
    List.Forall₂ (Instruction.Follows isCall before after) before after

namespace Code.Follows

variable {isCall other : UInt16 → Bool} {code changed last : Code}

theorem refl (code : Code) : Code.Follows (fun _ => false) code code := by
  refine fun body hbody => ⟨body, hbody, List.forall₂_same.mpr fun entry _ => ⟨?_, ?_⟩⟩
  · rw [Instruction.madeOrdinary_false]
  · exact List.forall₂_same.mpr fun _ _ _ => Iff.rfl

/-- Making calls ordinary and then others is making both ordinary. -/
theorem trans (h : Code.Follows isCall code changed) (h' : Code.Follows other changed last) :
    Code.Follows (fun index => isCall index || other index) code last := by
  intro before hbefore
  obtain ⟨middle, hmiddle, hfirst⟩ := h before hbefore
  obtain ⟨after, hafter, hsecond⟩ := h' middle hmiddle
  refine ⟨after, hafter, forall₂_comp (fun source result final hs hr => ⟨?_, ?_⟩) hfirst hsecond⟩
  · rw [hr.form_eq, Instruction.form_madeOrdinary, hs.form_eq, ← Instruction.form_madeOrdinary,
      Instruction.madeOrdinary_madeOrdinary]
  · exact forall₂_comp (fun _ _ _ hold hnew place => (hold place).trans (hnew place)) hs.targets
      hr.targets

end Code.Follows

/-! ## The calls of an interface -/

namespace Replacement

variable {references : List UInt16}

/-- The edit that makes the calls of a body ordinary. -/
theorem ordinaryCalls_eq_ok {code : Code} {edit : Edit}
    (h : ordinaryCalls references code = .ok edit) :
    ∃ body, decodeAll code.bytes = .ok body ∧ edit.emission body =
      body.map fun entry => (entry.1, entry.2.madeOrdinary references.contains) := by
  obtain ⟨body, hbody, h⟩ := Except.bind_eq_ok.mp h
  cases h
  refine ⟨body, hbody, ?_⟩
  rw [List.foldl_ext (g := Edit.exchangeAt (Instruction.madeOrdinary references.contains))]
  · exact Edit.emission_foldl_exchangeAt (ascending_of_decodeAll hbody) fun _ _ => rfl
  · rintro edit ⟨offset, opcode, operand⟩ -
    cases operand with
    | interfaceCall index count =>
      by_cases hcall : index ∈ references <;>
        simp [Edit.exchangeAt, Instruction.madeOrdinary, hcall]
    | _ => simp [Edit.exchangeAt, Instruction.madeOrdinary]

/-- **A body in which calls through one interface after another become ordinary** follows the body
before the first of them. -/
theorem follows_of_ordinaryCalls {first code changed : Code} {isCall : UInt16 → Bool} {edit : Edit}
    {pool : ConstantPool} (hfirst : Code.Follows isCall first code) (hsize : first.size < 2 ^ 30)
    (hedit : ordinaryCalls references code = .ok edit)
    (h : edit.isModified = false ∧ changed.bytes = code.bytes ∨ edit.apply code pool = .ok changed) :
    Code.Follows (fun index => isCall index || references.contains index) first changed := by
  intro before hbefore
  obtain ⟨body, hbody, hforms⟩ := hfirst before hbefore
  obtain ⟨found, hfound, hemission⟩ := ordinaryCalls_eq_ok hedit
  cases hbody.symm.trans hfound
  have hlast : Code.Follows references.contains code changed := by
    obtain ⟨hunmodified, hbytes⟩ | happly := h
    · have hsame := Edit.change_eq_of_not_isModified hemission hunmodified
      intro original horiginal
      cases hbody.symm.trans horiginal
      refine ⟨body, hbytes ▸ hbody, List.forall₂_same.mpr fun entry hentry => ⟨?_, ?_⟩⟩
      · rw [hsame entry hentry]
      · exact List.forall₂_same.mpr fun _ _ _ => Iff.rfl
    · have hchanged : List.Forall₂ (fun (source result : Nat × Instruction) =>
          result.2.form = (source.2.madeOrdinary fun index =>
            isCall index || references.contains index).form) before (edit.emission body) := by
        rw [hemission, List.forall₂_map_right_iff]
        refine hforms.imp fun source result hs => ?_
        rw [Instruction.form_madeOrdinary, hs.form_eq, ← Instruction.form_madeOrdinary,
          Instruction.madeOrdinary_madeOrdinary]
      have hlength := Edit.size_le_of_apply (Instruction.length_madeOrdinary_le _) happly hbody
        hchanged
      have htotal := totalLength_le_of_decodeAll hbefore
      have hsmall : changed.size < 2 ^ 31 := by
        unfold Code.size at hsize ⊢ hlength
        omega
      have hexchange := Instruction.exchange_madeOrdinary references.contains
      obtain ⟨after, hafter, hforms⟩ := Edit.forms_of_exchange hexchange happly hbody hemission
      intro original horiginal
      cases hbody.symm.trans horiginal
      refine ⟨after, hafter, ?_⟩
      have htargets := Edit.targets_of_exchange hexchange happly hbody hemission hsmall hafter
      exact hforms.mp (fun _ _ hform hsame => ⟨hform, hsame⟩) htargets
  exact hfirst.trans hlast before hbefore

end Replacement

end JvmTrim
