import JvmTrim.Proofs.Emission
import JvmTrim.Proofs.Relocation
import JvmTrim.Proofs.Soundness

/-!
# What an instruction depends on

An instruction looks at the words that it takes and at the variable that it reads, and changes
nothing but the words that it gives and the variables that it writes. Two stores that agree there are
therefore treated alike, however much they differ elsewhere: the same exit is taken or the run ends
the same way, the same words are given and the same variables are written. Nor does it matter how far
a jump goes, whether it is encoded in its short or its long form, and what has been appended to the
constants.

## Main definitions

* `Instruction.reads?`, `Instruction.writes`: the variables that an instruction reads and writes
* `Machine.Rewrites`: two lists of variables in which the same numbers were written
* `Machine.Local`: a computation that depends on some words and one variable only

## Main results

* `Machine.local_execute`: an instruction depends on the words it takes and the variable it reads
* `Machine.execute_eq_of_form`: displacements and widths do not matter
* `Machine.execute_of_extends`: nor does what is appended to the constants
-/

namespace JvmTrim

/-- The variables that an instruction writes. -/
def Instruction.writes (instruction : Instruction) : List Nat :=
  match instruction.operation with
  | .store kind slot =>
    let index := (slot.getD instruction.operandSlot).toNat
    if kind.size = 2 then [index, index + 1] else [index]
  | .increment =>
    match instruction.operand with
    | .increment slot _ => [slot.toNat]
    | _ => []
  | _ => []

/-- The variable that an instruction reads. -/
def Instruction.reads? (instruction : Instruction) : Option UInt16 :=
  match instruction.operation with
  | .load _ slot => some (slot.getD instruction.operandSlot)
  | .increment =>
    match instruction.operand with
    | .increment slot _ => some slot
    | _ => none
  | _ => none

theorem Instruction.readSlot?_of_reads? {instruction : Instruction} {slot : UInt16}
    (h : instruction.reads? = some slot) : instruction.readSlot? = some slot := by
  unfold reads? at h
  cases hop : instruction.operation with
  | load kind index =>
    simp only [hop] at h
    have haccess : instruction.localAccess? =
        some (.load, kind, index.getD instruction.operandSlot) := by
      unfold localAccess?
      rw [hop]
    unfold readSlot?
    rw [haccess]
    exact h
  | increment =>
    simp only [hop] at h
    have haccess : instruction.localAccess? = none := by
      unfold localAccess?
      rw [hop]
    cases hoperand : instruction.operand with
    | increment index delta =>
      simp only [hoperand] at h
      unfold readSlot? slot?
      rw [haccess, hoperand]
      exact h
    | _ =>
      simp only [hoperand] at h
      cases h
  | _ =>
    simp only [hop] at h
    cases h

namespace Machine

/-- The variables of two stores, before and after the same numbers are written in both. -/
structure Rewrites (writes : List Nat) (locals locals' next next' : List Cell) : Prop where
  length : next.length = locals.length
  length' : next'.length = locals'.length
  kept : ∀ i, i ∉ writes → next[i]? = locals[i]? ∧ next'[i]? = locals'[i]?
  written : ∀ i ∈ writes, next'[i]? = next[i]?

namespace Rewrites

variable {first second : List Nat} {a a' b b' c c' : List Cell}

theorem refl (a a' : List Cell) : Rewrites [] a a' a a' :=
  ⟨rfl, rfl, fun _ _ => ⟨rfl, rfl⟩, by simp⟩

theorem trans (hab : Rewrites first a a' b b') (hbc : Rewrites second b b' c c') :
    Rewrites (first ++ second) a a' c c' where
  length := hbc.length.trans hab.length
  length' := hbc.length'.trans hab.length'
  kept i hi := by
    rw [List.mem_append, not_or] at hi
    obtain ⟨h, h'⟩ := hab.kept i hi.1
    obtain ⟨k, k'⟩ := hbc.kept i hi.2
    exact ⟨k.trans h, k'.trans h'⟩
  written i hi := by
    by_cases hs : i ∈ second
    · exact hbc.written i hs
    · obtain ⟨k, k'⟩ := hbc.kept i hs
      rw [k, k']
      exact hab.written i ((List.mem_append.mp hi).resolve_right hs)

/-- A variable that holds the same before holds the same afterwards. -/
theorem getElem?_eq (h : Rewrites first a a' b b') {i : Nat} (hi : a'[i]? = a[i]?) :
    b'[i]? = b[i]? := by
  by_cases hmem : i ∈ first
  · exact h.written i hmem
  · obtain ⟨k, k'⟩ := h.kept i hmem
    rw [k, k', hi]

end Rewrites

/-- Whether a computation depends only on the `pops` words on top of the stack and on the variable
that it reads, and changes nothing but those words and the variables that it writes. -/
def Local {α : Type} (read : Option UInt16) (writes : List Nat) (pops : Nat) (x : Machine α) : Prop :=
  ∀ top rest rest' locals locals' : List Cell, pops ≤ top.length → locals'.length = locals.length →
    (∀ slot, read = some slot → locals'[slot.toNat]? = locals[slot.toNat]?) →
    (∀ outcome, x ⟨top ++ rest, locals⟩ = .error (.finished outcome) →
      x ⟨top ++ rest', locals'⟩ = .error (.finished outcome)) ∧
    ∀ a next, x ⟨top ++ rest, locals⟩ = .ok (a, next) → ∃ left changed,
      top.length - pops ≤ left.length ∧ next.stack = left ++ rest ∧
      x ⟨top ++ rest', locals'⟩ = .ok (a, ⟨left ++ rest', changed⟩) ∧
      Rewrites writes locals locals' next.locals changed

section

variable {α β : Type} {read : Option UInt16} {writes writes' : List Nat} {pops pops' : Nat}

theorem local_reject : Local read writes pops (reject : Machine α) :=
  fun _ _ _ _ _ _ _ _ => ⟨nofun, nofun⟩

theorem local_finish (outcome : Outcome) : Local read [] 0 (finish outcome : Machine α) :=
  fun _ _ _ _ _ _ _ _ => ⟨fun _ h => h, nofun⟩

theorem local_pure (a : α) : Local read [] 0 (pure a : Machine α) := by
  intro top rest rest' locals locals' _ _ _
  refine ⟨nofun, fun a' next h => ?_⟩
  cases h
  exact ⟨top, locals', by omega, rfl, rfl, .refl _ _⟩

theorem local_push (words : List Cell) : Local read [] 0 (push words) := by
  intro top rest rest' locals locals' _ _ _
  refine ⟨nofun, fun a next h => ?_⟩
  cases h
  exact ⟨words ++ top, locals', by simp only [List.length_append]; omega,
    (List.append_assoc ..).symm, by simp only [push, List.append_assoc], .refl _ _⟩

theorem local_popInt : Local read [] 1 popInt := by
  intro top rest rest' locals locals' hpops _ _
  obtain ⟨word, top, rfl⟩ := List.exists_cons_of_length_pos hpops
  cases word with
  | int value =>
    refine ⟨nofun, fun a next h => ?_⟩
    cases h
    exact ⟨top, locals', by simp, rfl, rfl, .refl _ _⟩
  | _ => exact ⟨nofun, nofun⟩

theorem local_popLong : Local read [] 2 popLong := by
  intro top rest rest' locals locals' hpops _ _
  obtain ⟨first, others, rfl⟩ := List.exists_cons_of_length_pos (Nat.zero_lt_of_lt hpops)
  obtain ⟨second, top, rfl⟩ := List.exists_cons_of_length_pos (Nat.le_of_succ_le_succ hpops)
  cases first with
  | long value =>
    cases second with
    | half =>
      refine ⟨nofun, fun a next h => ?_⟩
      cases h
      exact ⟨top, locals', by simp, rfl, rfl, .refl _ _⟩
    | _ => exact ⟨nofun, nofun⟩
  | _ => exact ⟨nofun, nofun⟩

theorem local_readInt (slot : UInt16) : Local (some slot) [] 0 (readInt slot) := by
  intro top rest rest' locals locals' _ _ hread
  unfold readInt
  simp only [hread slot rfl]
  cases locals[slot.toNat]? with
  | none => exact ⟨nofun, nofun⟩
  | some word =>
    cases word with
    | int value =>
      refine ⟨nofun, fun a next h => ?_⟩
      cases h
      exact ⟨top, locals', by omega, rfl, rfl, .refl _ _⟩
    | _ => exact ⟨nofun, nofun⟩

theorem local_readLong (slot : UInt16) : Local (some slot) [] 0 (readLong slot) := by
  intro top rest rest' locals locals' _ _ hread
  unfold readLong
  simp only [hread slot rfl]
  cases locals[slot.toNat]? with
  | none => exact ⟨nofun, nofun⟩
  | some word =>
    cases word with
    | long value =>
      refine ⟨nofun, fun a next h => ?_⟩
      cases h
      exact ⟨top, locals', by omega, rfl, rfl, .refl _ _⟩
    | _ => exact ⟨nofun, nofun⟩

theorem local_write (slot : Nat) (word : Cell) : Local read [slot] 0 (write slot word) := by
  intro top rest rest' locals locals' _ hlength _
  unfold write
  simp only [hlength]
  split
  · rename_i hlt
    refine ⟨nofun, fun a next h => ?_⟩
    cases h
    refine ⟨top, locals'.set slot word, by omega, rfl, rfl, by simp, by simp, ?_, ?_⟩
    · intro i hi
      have hne : slot ≠ i := fun h => hi (by simp [h])
      simp [List.getElem?_set_ne hne]
    · intro i hi
      obtain rfl := List.mem_singleton.mp hi
      simp [hlength, hlt]
  · exact ⟨nofun, nofun⟩

/-- The words on top decide what a stack manipulation copies. -/
theorem copied?_append (move : Shuffle) {top : List Cell} (rest : List Cell)
    (h : move.pops ≤ top.length) : move.copied? (top ++ rest) = move.copied? top := by
  unfold Shuffle.copied?
  rw [if_pos h, if_pos (by rw [List.length_append]; omega), List.take_append_of_le_length h]

theorem local_shuffle (move : Shuffle) : Local read [] move.pops (shuffle move) := by
  intro top rest rest' locals locals' hpops _ _
  unfold shuffle
  simp only [copied?_append _ _ hpops]
  cases move.copied? top with
  | none => exact ⟨nofun, nofun⟩
  | some copies =>
    refine ⟨nofun, fun a next h => ?_⟩
    cases h
    refine ⟨copies ++ top.drop move.pops, locals', ?_, ?_, ?_, .refl _ _⟩
    · simp only [List.length_append, List.length_drop]
      omega
    · simp only [List.drop_append_of_le_length hpops, List.append_assoc]
    · simp only [List.drop_append_of_le_length hpops, List.append_assoc]

theorem Local.bind {x : Machine α} {f : α → Machine β} (hx : Local read writes pops x)
    (hf : ∀ a, Local read writes' pops' (f a)) :
    Local read (writes ++ writes') (pops + pops') (x >>= f) := by
  intro top rest rest' locals locals' hpops hlength hread
  obtain ⟨herror, hok⟩ := hx top rest rest' locals locals' (by omega) hlength hread
  cases hfirst : x ⟨top ++ rest, locals⟩ with
  | error halt =>
    have hbind : (x >>= f) ⟨top ++ rest, locals⟩ = .error halt := by
      simp only [Bind.bind, StateT.bind, hfirst]
      rfl
    rw [hbind]
    refine ⟨fun outcome h => ?_, nofun⟩
    cases h
    have := herror _ hfirst
    simp only [Bind.bind, StateT.bind, this]
    rfl
  | ok result =>
    obtain ⟨a, middle⟩ := result
    obtain ⟨left, changed, hleft, hstack, hsecond, hrewrites⟩ := hok a middle hfirst
    obtain ⟨stack, between⟩ := middle
    cases hstack
    have hbind : (x >>= f) ⟨top ++ rest, locals⟩ = f a ⟨left ++ rest, between⟩ := by
      simp only [Bind.bind, StateT.bind, hfirst]
      rfl
    have hbind' : (x >>= f) ⟨top ++ rest', locals'⟩ = f a ⟨left ++ rest', changed⟩ := by
      simp only [Bind.bind, StateT.bind, hsecond]
      rfl
    rw [hbind, hbind']
    obtain ⟨herror', hok'⟩ := hf a left rest rest' between changed (by omega)
      (by rw [hrewrites.length', hrewrites.length, hlength])
      fun slot hslot => hrewrites.getElem?_eq (hread slot hslot)
    refine ⟨herror', fun b next h => ?_⟩
    obtain ⟨left', changed', hleft', hstack', hthird, hrewrites'⟩ := hok' b next h
    exact ⟨left', changed', by omega, hstack', hthird, hrewrites.trans hrewrites'⟩

theorem Local.ite {p : Prop} [Decidable p] {x y : Machine α} (hx : Local read writes pops x)
    (hy : Local read writes pops y) : Local read writes pops (if p then x else y) := by
  split
  · exact hx
  · exact hy

/-- A computation that gives something else at its end. -/
theorem Local.map {x : Machine α} (hx : Local read writes pops x) (f : α → β) :
    Local read writes pops (x >>= fun a => pure (f a)) := by
  have h := hx.bind fun a => local_pure (f a)
  rwa [List.append_nil, Nat.add_zero] at h

/-- Two ints on top decide what happens. -/
theorem local_popInts {f : Int32 → Int32 → Machine α} (hf : ∀ b a, Local read writes 0 (f b a)) :
    Local read writes 2 (do
      let b ← popInt
      let a ← popInt
      f b a) :=
  local_popInt.bind fun b => local_popInt.bind fun a => hf b a

/-- Two longs on top decide what happens. -/
theorem local_popLongs {f : Int64 → Int64 → Machine α} (hf : ∀ b a, Local read writes 0 (f b a)) :
    Local read writes 4 (do
      let b ← popLong
      let a ← popLong
      f b a) :=
  local_popLong.bind fun b => local_popLong.bind fun a => hf b a

end

section

variable {pool pool' : ConstantPool} {instruction : Instruction} {effect : StackEffect}

theorem local_arithmeticInt {read : Option UInt16} (operator : Arithmetic) :
    Local read [] 2 (arithmeticInt operator) := by
  refine local_popInts fun b a => ?_
  cases operator with
  | add => exact local_push _
  | sub => exact local_push _
  | mul => exact local_push _
  | div => exact (local_finish _).ite (local_push _)
  | rem => exact (local_finish _).ite (local_push _)

theorem local_arithmeticLong {read : Option UInt16} (operator : Arithmetic) :
    Local read [] 4 (arithmeticLong operator) := by
  refine local_popLongs fun b a => ?_
  cases operator with
  | add => exact local_push _
  | sub => exact local_push _
  | mul => exact local_push _
  | div => exact local_reject
  | rem => exact local_reject

theorem local_loadConstant {read : Option UInt16} (pool : ConstantPool)
    (instruction : Instruction) : Local read [] 0 (loadConstant pool instruction) := by
  unfold loadConstant
  cases instruction.operand with
  | constant index =>
    cases hget : pool.get index with
    | error failure => simpa only [hget] using local_reject
    | ok constant =>
      cases constant <;> simp only [hget]
      case integer value => exact local_push _
      case long value => exact local_push _
      all_goals exact local_reject
  | _ => exact local_reject

/-- An instruction that goes on with the next one or ends the run depends on the words that it takes
and the variable that it reads. -/
theorem local_perform (he : instruction.stackEffect pool = .ok effect) :
    Local instruction.reads? instruction.writes effect.pops (perform pool instruction) := by
  unfold Instruction.stackEffect at he
  unfold perform Instruction.writes Instruction.reads?
  cases hop : instruction.operation with
  | nop =>
    simp only [hop] at he ⊢
    cases he
    exact local_pure ()
  | load kind slot =>
    simp only [hop] at he
    cases he
    cases kind with
    | int => exact (local_readInt _).bind fun _ => local_push _
    | long => exact (local_readLong _).bind fun _ => local_push _
    | _ => exact local_reject
  | store kind slot =>
    simp only [hop] at he
    cases he
    cases kind with
    | int => exact local_popInt.bind fun _ => local_write _ _
    | long =>
      exact local_popLong.bind fun _ => (local_write _ _).bind fun _ => local_write _ _
    | _ => exact local_reject
  | shuffle move =>
    simp only [hop] at he ⊢
    cases he
    exact local_shuffle move
  | pushInt value | pushLong value =>
    simp only [hop] at he ⊢
    cases he
    exact local_push _
  | pushImmediate =>
    simp only [hop] at he ⊢
    cases he
    cases instruction.operand with
    | byte value => exact local_push _
    | short value => exact local_push _
    | _ => exact local_reject
  | loadConstant wide =>
    simp only [hop] at he ⊢
    cases wide <;> cases he <;> exact local_loadConstant pool instruction
  | increment =>
    simp only [hop] at he ⊢
    cases he
    cases hoperand : instruction.operand with
    | increment slot delta =>
      exact (local_readInt slot).bind fun _ => local_write _ _
    | _ => exact local_reject
  | arithmetic operator kind =>
    simp only [hop] at he
    cases he
    cases kind with
    | int => exact local_arithmeticInt operator
    | long => exact local_arithmeticLong operator
    | _ => exact local_reject
  | shift operator kind =>
    simp only [hop] at he
    cases he
    cases kind with
    | int => exact local_popInts fun _ _ => local_push _
    | _ => exact local_reject
  | bitwise operator kind =>
    simp only [hop] at he
    cases he
    cases kind with
    | int => exact local_popInts fun _ _ => local_push _
    | long => exact local_popLongs fun _ _ => local_push _
  | negate kind =>
    simp only [hop] at he
    cases he
    cases kind with
    | int => exact local_popInt.bind fun _ => local_push _
    | _ => exact local_reject
  | convert source target =>
    simp only [hop] at he
    cases he
    cases source <;> cases target
    case int.long => exact local_popInt.bind fun _ => local_push _
    case long.int => exact local_popLong.bind fun _ => local_push _
    all_goals exact local_reject
  | compareLong =>
    simp only [hop] at he ⊢
    cases he
    exact local_popLongs fun _ _ => local_push _
  | returnValue kind =>
    simp only [hop] at he
    cases he
    cases kind with
    | int => exact local_popInt.bind fun _ => local_finish _
    | long => exact local_popLong.bind fun _ => local_finish _
    | _ => exact local_reject
  | returnVoid =>
    simp only [hop] at he ⊢
    cases he
    exact local_finish _
  | _ => exact local_reject

/-- **An instruction depends on the words that it takes and the variable that it reads.** -/
theorem local_execute (he : instruction.stackEffect pool = .ok effect) :
    Local instruction.reads? instruction.writes effect.pops (execute pool instruction) := by
  have hperform := local_perform he
  unfold Instruction.stackEffect at he
  unfold execute Instruction.writes Instruction.reads?
  unfold Instruction.writes Instruction.reads? at hperform
  cases hop : instruction.operation with
  | branchZero comparison =>
    simp only [hop] at he ⊢
    cases he
    exact local_popInt.map _
  | branchInt comparison =>
    simp only [hop] at he ⊢
    cases he
    exact local_popInts fun _ _ => local_pure _
  | jump =>
    simp only [hop] at he ⊢
    cases he
    exact local_pure _
  | switch =>
    simp only [hop] at he ⊢
    cases he
    exact local_popInt.map _
  | _ =>
    simp only [hop] at hperform ⊢
    exact hperform.map _

/-! ## Displacements, widths and further constants -/

theorem operation_narrowed (instruction : Instruction) :
    instruction.narrowed.operation = instruction.operation := by
  have hgoto : Opcode.gotoW.operation = Opcode.goto.operation := by decide +kernel
  have hjsr : Opcode.jsrW.operation = Opcode.jsr.operation := by decide +kernel
  unfold Instruction.narrowed Instruction.operation
  split
  · rename_i h
    rw [h, hgoto]
  · split
    · rename_i h
      rw [h, hjsr]
    · rfl

theorem operation_stored (instruction : Instruction) :
    instruction.stored.operation = instruction.operation := by
  have hldc : Opcode.ldcW.operation = Opcode.ldc.operation := by decide +kernel
  unfold Instruction.stored Instruction.operation
  split
  · split
    · rename_i h
      rw [h.1, hldc]
    · rfl
  · rfl

theorem operation_mapDisplacements (f : Int32 → Int32) (instruction : Instruction) :
    (instruction.mapDisplacements f).operation = instruction.operation := by
  unfold Instruction.mapDisplacements Instruction.operation
  split <;> rfl

/-- What an instruction does is decided by its operation and its operand. -/
theorem execute_congr {a b : Instruction} (hop : a.operation = b.operation)
    (hoperand : a.operand = b.operand) : execute pool a = execute pool b := by
  unfold execute perform loadConstant Instruction.operandSlot
  rw [hop, hoperand]

/-- The displacements of a switch do not decide which of them is followed. -/
theorem choose_mapDisplacements (f : Int32 → Int32) (instruction : Instruction) :
    choose (instruction.mapDisplacements f).operand = choose instruction.operand := by
  obtain ⟨opcode, operand⟩ := instruction
  funext key
  cases operand with
  | lookup default cases =>
    simp only [Instruction.mapDisplacements, choose, List.findIdx?_map, Function.comp_def]
  | _ => rfl

/-- Displacements are looked at only after an instruction was executed. -/
theorem execute_mapDisplacements (f : Int32 → Int32) (instruction : Instruction) :
    execute pool (instruction.mapDisplacements f) = execute pool instruction := by
  have hop := operation_mapDisplacements f instruction
  have hchoose := choose_mapDisplacements f instruction
  unfold execute perform loadConstant Instruction.operandSlot
  rw [hop, hchoose]
  generalize instruction.operation = operation
  obtain ⟨opcode, operand⟩ := instruction
  cases operand <;> rfl

/-- **Neither displacements nor widths matter** for what an instruction does to the store. -/
theorem execute_eq_of_form {a b : Instruction} (h : a.form = b.stored.form) :
    execute pool a = execute pool b := by
  have hform (instruction : Instruction) :
      execute pool instruction.form = execute pool instruction := by
    rw [Instruction.form, execute_mapDisplacements]
    exact execute_congr (operation_narrowed _) (Instruction.operand_narrowed _)
  have hstored : execute pool b.stored = execute pool b := by
    refine execute_congr (operation_stored b) ?_
    unfold Instruction.stored
    split
    · rename_i hoperand
      split
      · exact hoperand.symm
      · rfl
    · rfl
  rw [← hform a, h, hform, hstored]

/-- **Further constants do not matter** for an instruction that is not rejected. -/
theorem execute_of_extends (hextends : pool.Extends pool') (instruction : Instruction)
    (store : Store) : execute pool instruction store = .error .rejected ∨
      execute pool' instruction store = execute pool instruction store := by
  by_cases hop : ∃ wide, instruction.operation = .loadConstant wide
  · obtain ⟨wide, hop⟩ := hop
    unfold execute perform loadConstant
    simp only [hop]
    cases instruction.operand with
    | constant index =>
      simp only
      cases hget : pool.get index with
      | error failure => exact .inl rfl
      | ok constant =>
        have hget' : pool'.get index = .ok constant :=
          ConstantPool.stable_get index _ _ _ hextends hget
        rw [hget']
        exact .inr rfl
    | _ => exact .inl rfl
  · right
    unfold execute perform
    cases hoperation : instruction.operation with
    | loadConstant wide => exact absurd ⟨wide, hoperation⟩ hop
    | load kind _ | store kind _ | negate kind | returnValue kind => cases kind <;> rfl
    | arithmetic _ kind | shift _ kind | bitwise _ kind => cases kind <;> rfl
    | convert source target => cases source <;> cases target <;> rfl
    | _ => rfl

end

end Machine

end JvmTrim
