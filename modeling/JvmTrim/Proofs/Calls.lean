import JvmTrim.Assembly
import JvmTrim.Proofs.Outcome
import Mathlib.Data.List.Induction
import Mathlib.Data.List.Nodup

/-!
# Collecting the parts of a body

A body is collected by a sequence of calls. A call sees how many items there are and which labels
are defined, and nothing else of what came before it; so all that the calls leave behind can be read
off the sequence. This is said here for one call and then for all of them, and no statement about
assembled bodies has to look at how the parts were collected.

## Main definitions

* `Assembly.Call`, `Assembly.ofCalls`: the calls, and what a sequence of them collects
* `Assembly.Collects`: what was collected, told from the calls alone

## Main results

* `Assembly.collects_ofCalls`: every sequence of calls collects what it says
-/

namespace JvmTrim

namespace Assembly

/-- A call that contributes to a body. -/
inductive Call where
  | instruction (instruction : Instruction)
  | simple (opcode : Opcode)
  | load (kind : Kind) (index : UInt16)
  | store (kind : Kind) (index : UInt16)
  | increment (index : UInt16) (delta : Int16)
  | pushInt (value : Int32)
  | constant (opcode : Opcode) (index : UInt16)
  | branch (opcode : Opcode) (label : String)
  | table (low : Int32) (labels : List String) (default : String)
  | lookup (cases : List (Int32 × String)) (default : String)
  | label (name : String)
  | line (number : UInt16)
  | protect (handler : LabelledHandler)
  deriving DecidableEq, Repr, Inhabited

namespace Call

/-- The parts after the call. -/
def apply (assembly : Assembly) : Call → Assembly
  | instruction plain => assembly.instruction plain
  | simple opcode => assembly.instruction (.simple opcode)
  | load kind index => assembly.instruction (.load kind index)
  | store kind index => assembly.instruction (.store kind index)
  | increment index delta => assembly.instruction ⟨Opcode.iinc, .increment index delta⟩
  | pushInt value => assembly.pushInt value
  | constant opcode index => assembly.constant opcode index
  | branch opcode target => assembly.add (.branch opcode target)
  | table low targets default => assembly.add (.table low targets default)
  | lookup cases default => assembly.lookup cases default
  | label name => assembly.label name
  | line number => assembly.line number
  | protect handler => assembly.protect handler

/-- An instruction with a constant pool operand. How many words an interface call takes is not known
yet. -/
def constantInstruction (opcode : Opcode) (index : UInt16) : Instruction :=
  ⟨opcode, if opcode = Opcode.invokeinterface then .interfaceCall index 0 else .constant index⟩

/-- The item that the call adds, if it adds one. -/
def item? : Call → Option Item
  | instruction plain => some (.plain plain)
  | simple opcode => some (.plain (.simple opcode))
  | load kind index => some (.plain (.load kind index))
  | store kind index => some (.plain (.store kind index))
  | increment index delta => some (.plain ⟨Opcode.iinc, .increment index delta⟩)
  | pushInt value => (Instruction.pushInt? value).map .plain
  | constant opcode index => some (.plain (constantInstruction opcode index))
  | branch opcode target => some (.branch opcode target)
  | table low targets default => some (.table low targets default)
  | lookup cases default => some (.lookup (cases.mergeSort fun a b => a.1 ≤ b.1) default)
  | label _ | line _ | protect _ => none

/-- The label that the call defines, if it defines one. -/
def label? : Call → Option String
  | label name => some name
  | _ => none

/-- The range that the call protects, if it protects one. -/
def handler? : Call → Option LabelledHandler
  | protect handler => some handler
  | _ => none

/-- The line that the call starts, if it starts one. -/
def line? : Call → Option UInt16
  | line number => some number
  | _ => none

/-- Whether the call asks for a push that needs a constant. -/
def NeedsConstant (call : Call) : Prop :=
  ∃ value, call = pushInt value ∧ Instruction.pushInt? value = none

variable (assembly : Assembly) (call : Call)

/-- What a call does, apart from the problems that it notes. -/
theorem exists_apply_eq : ∃ failure, call.apply assembly =
    ⟨assembly.items ++ call.item?.toArray,
      call.label?.elim assembly.labels (assign · assembly.items.size assembly.labels),
      assembly.handlers ++ call.handler?.toArray,
      assembly.lines ++ call.line?.toArray.map (assembly.items.size, ·), failure⟩ := by
  refine ⟨(call.apply assembly).failure, ?_⟩
  cases call with
  | pushInt value =>
    simp only [apply, Assembly.pushInt, item?]
    cases Instruction.pushInt? value <;>
      simp [Assembly.instruction, Assembly.add, Assembly.note, label?, handler?, line?]
  | label name =>
    simp only [apply, Assembly.label]
    split <;> simp [Assembly.note, item?, label?, handler?, line?]
  | _ =>
    simp [apply, item?, label?, handler?, line?, constantInstruction, Assembly.instruction,
      Assembly.constant, Assembly.lookup, Assembly.line, Assembly.protect, Assembly.add]

theorem failure_note (failure : Failure) : (assembly.note failure).failure ≠ none := by
  simp [Assembly.note]

/-- Only two calls note a problem, and a problem that was noted stays. -/
theorem failure_apply : (call.apply assembly).failure = none ↔
    assembly.failure = none ∧ ¬call.NeedsConstant ∧
      ∀ name, call.label? = some name → assembly.labels.lookup name = none := by
  cases call with
  | pushInt value =>
    have hneeds : (pushInt value).NeedsConstant ↔ Instruction.pushInt? value = none := by
      simp [NeedsConstant]
    rw [hneeds]
    simp only [apply, Assembly.pushInt]
    cases Instruction.pushInt? value with
    | some push => simp [Assembly.instruction, Assembly.add, label?]
    | none => simp [failure_note]
  | label name =>
    have hneeds : ¬(label name).NeedsConstant := by simp [NeedsConstant]
    simp only [apply, Assembly.label, label?, Option.some.injEq, forall_eq', hneeds,
      not_false_eq_true, true_and]
    cases assembly.labels.lookup name with
    | some index => simp [failure_note]
    | none => simp
  | _ =>
    simp [apply, Assembly.instruction, Assembly.constant, Assembly.lookup, Assembly.line,
      Assembly.protect, Assembly.add, NeedsConstant, label?]

end Call

/-- What a sequence of calls collects. -/
def ofCalls (calls : List Call) : Assembly := calls.foldl Call.apply empty

theorem ofCalls_concat (calls : List Call) (call : Call) :
    ofCalls (calls ++ [call]) = call.apply (ofCalls calls) := by
  simp [ofCalls]

/-- The items that calls add. -/
def itemsOf (calls : List Call) : List Item := calls.filterMap Call.item?

/-- Whether a call was made when there were `index` items. -/
def MadeAt (calls : List Call) (call : Call) (index : Nat) : Prop :=
  ∃ before after, calls = before ++ call :: after ∧ (itemsOf before).length = index

/-- Whether a label stands in front of the item at `index`: it was defined there, and not moved. -/
def StandsAt (calls : List Call) (name : String) (index : Nat) : Prop :=
  ∃ before after, calls = before ++ .label name :: after ∧ .label name ∉ after ∧
    (itemsOf before).length = index

/-- What a sequence of calls has collected, told from the calls. -/
structure Collects (calls : List Call) (assembly : Assembly) : Prop where
  items : assembly.items.toList = itemsOf calls
  labels : ∀ name index, assembly.labels.lookup name = some index ↔ StandsAt calls name index
  handlers : assembly.handlers.toList = calls.filterMap Call.handler?
  numbers : assembly.lines.toList.map (·.2) = calls.filterMap Call.line?
  lines : ∀ entry ∈ assembly.lines.toList, MadeAt calls (.line entry.2) entry.1
  failure : assembly.failure = none ↔
    (∀ call ∈ calls, ¬call.NeedsConstant) ∧ (calls.filterMap Call.label?).Nodup

/-! ## One call more -/

theorem MadeAt.concat {calls : List Call} {call : Call} {index : Nat}
    (h : MadeAt calls call index) (last : Call) : MadeAt (calls ++ [last]) call index := by
  obtain ⟨before, after, rfl, hindex⟩ := h
  exact ⟨before, after ++ [last], by simp, hindex⟩

theorem madeAt_last (calls : List Call) (call : Call) :
    MadeAt (calls ++ [call]) call (itemsOf calls).length :=
  ⟨calls, [], rfl, rfl⟩

/-- The last definition of a label is the one that counts. -/
theorem standsAt_concat (calls : List Call) (last : Call) (name : String) (index : Nat) :
    StandsAt (calls ++ [last]) name index ↔
      if last = .label name then (itemsOf calls).length = index
      else StandsAt calls name index := by
  constructor
  · rintro ⟨before, after, hsplit, hnot, hindex⟩
    obtain rfl | ⟨after, final, rfl⟩ := List.eq_nil_or_concat' after
    · obtain ⟨rfl, hlast⟩ := List.append_inj' hsplit rfl
      rw [if_pos (List.cons.inj hlast).1]
      exact hindex
    · rw [← List.cons_append, ← List.append_assoc] at hsplit
      obtain ⟨rfl, hlast⟩ := List.append_inj' hsplit rfl
      rw [List.mem_append, not_or] at hnot
      have hne : last ≠ .label name := by
        rintro rfl
        exact hnot.2 (by simp [(List.cons.inj hlast).1])
      rw [if_neg hne]
      exact ⟨before, after, rfl, hnot.1, hindex⟩
  · intro h
    split at h
    · rename_i hlast
      subst hlast
      exact ⟨calls, [], rfl, List.not_mem_nil, h⟩
    · rename_i hne
      obtain ⟨before, after, rfl, hnot, hindex⟩ := h
      exact ⟨before, after ++ [last], by simp, by simp [hnot, Ne.symm hne], hindex⟩

/-- A label stands somewhere if and only if it was defined. -/
theorem exists_standsAt_iff (calls : List Call) (name : String) :
    (∃ index, StandsAt calls name index) ↔ name ∈ calls.filterMap Call.label? := by
  induction calls using List.reverseRecOn with
  | nil => simp [StandsAt]
  | append_singleton calls last ih =>
    have hlabel : last.label? = some name ↔ last = .label name := by
      cases last <;> simp [Call.label?]
    simp only [standsAt_concat]
    by_cases hlast : last = .label name
    · subst hlast
      simp [Call.label?]
    · have hnone : last.label? ≠ some name := fun h => hlast (hlabel.1 h)
      simp only [if_neg hlast, ih, List.filterMap_append, List.mem_append]
      simp [hnone]

theorem collects_nil : Collects [] empty where
  items := rfl
  labels name index := by simp [empty, StandsAt]
  handlers := rfl
  numbers := rfl
  lines := by simp [empty]
  failure := by simp [empty]

variable {calls : List Call} {assembly : Assembly}

theorem Collects.size_items (h : Collects calls assembly) :
    assembly.items.size = (itemsOf calls).length := by
  rw [← h.items, Array.length_toList]

/-- A label that was not defined is not known. -/
theorem Collects.lookup_eq_none_iff (h : Collects calls assembly) (name : String) :
    assembly.labels.lookup name = none ↔ name ∉ calls.filterMap Call.label? := by
  rw [← exists_standsAt_iff, ← not_iff_not, not_not, ← Ne.eq_def, Option.ne_none_iff_exists']
  simp only [h.labels]

theorem Collects.apply (h : Collects calls assembly) (call : Call) :
    Collects (calls ++ [call]) (call.apply assembly) := by
  obtain ⟨failure, happly⟩ := call.exists_apply_eq assembly
  have hfailure := call.failure_apply assembly
  rw [happly] at hfailure ⊢
  have hlast {β : Type} (f : Call → Option β) : [call].filterMap f = (f call).toList := by
    cases hcall : f call <;> simp [hcall]
  constructor
  case items => simp [itemsOf, List.filterMap_append, hlast, h.items]
  case labels =>
    intro name index
    rw [standsAt_concat, ← h.labels, ← h.size_items]
    cases call with
    | label other =>
      simp only [Call.label?, Option.elim_some, lookup_assign, Call.label.injEq]
      by_cases hname : name = other
      · subst hname
        simp
      · simp [hname, Ne.symm hname]
    | _ => simp [Call.label?]
  case handlers => simp [List.filterMap_append, hlast, h.handlers]
  case numbers => simp [List.filterMap_append, hlast, h.numbers, Function.comp_def]
  case lines =>
    intro entry hmem
    simp only [Array.toList_append, List.mem_append] at hmem
    obtain hmem | hmem := hmem
    · exact (h.lines entry hmem).concat call
    · have hcall : call = .line entry.2 ∧ assembly.items.size = entry.1 := by
        cases call <;> simp_all [Call.line?]
      rw [← hcall.2, h.size_items, hcall.1]
      exact madeAt_last calls _
  case failure =>
    have hcalls : (∀ c ∈ calls ++ [call], ¬c.NeedsConstant) ↔
        (∀ c ∈ calls, ¬c.NeedsConstant) ∧ ¬call.NeedsConstant := by
      simp [or_imp, forall_and]
    have hlabels : ((calls ++ [call]).filterMap Call.label?).Nodup ↔
        (calls.filterMap Call.label?).Nodup ∧
          ∀ name, call.label? = some name → assembly.labels.lookup name = none := by
      simp only [h.lookup_eq_none_iff]
      rw [List.filterMap_append, hlast]
      cases call.label? with
      | none => simp
      | some name =>
        simp only [Option.toList_some, Option.some.injEq, forall_eq']
        rw [← List.concat_eq_append, List.nodup_concat, and_comm]
    rw [hfailure, h.failure, hcalls, hlabels]
    tauto

/-- **Every sequence of calls collects what it says**: the items in order, every label in front of
the item that was added next after its last definition, the protected ranges in order, the lines in
order, each at the item that was added next, and a problem if and only if a pushed number needs a
constant or a label was defined twice. -/
theorem collects_ofCalls (calls : List Call) : Collects calls (ofCalls calls) := by
  induction calls using List.reverseRecOn with
  | nil => exact collects_nil
  | append_singleton calls call ih =>
    rw [ofCalls_concat]
    exact ih.apply call

end Assembly

end JvmTrim
