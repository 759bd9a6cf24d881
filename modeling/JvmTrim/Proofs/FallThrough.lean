import JvmTrim.Proofs.FlowEdges
import JvmTrim.Proofs.Heights

/-!
# Where control goes on

Three parts of the library say where the instruction behind another one starts: reading a body counts
the bytes that it has consumed, while an evaluation and the search for stack heights go by the length
that an instruction has when it is written. The two agree about every instruction but one with a
`wide` marker that its operand does not need: the marker is read over and lost, and whoever follows
such an instruction ends up inside it.

## Main definitions

* `ContinuesAt`: an evaluation and the stack heights of a body go on from one offset at another one

## Main results

* `continuesAt_iff`: they go on at the next instruction unless the marker is needless
-/

namespace JvmTrim

/-- Whether all that follows the control flow of a body goes on at `next` behind the instruction at
`offset`. -/
structure ContinuesAt (code : Code) (offset : Nat) (instruction : Instruction) (next : Nat) :
    Prop where
  /-- So does every record of an evaluation of the body, finished or not. -/
  recorded : ∀ evaluation : Evaluation, Listing.ofCode code.bytes = .ok evaluation.listing →
    evaluation.nextOffset offset = next
  /-- An evaluation that traces the instruction has executed it with `next` behind it, which is the
  only successor of an instruction that does not branch, and one of a branch unless the condition is
  known to hold. If it may be entered, it was, with the frame that the instruction left. -/
  evaluated : ∀ options pool owner method evaluation,
    evaluate options pool owner method code = .ok evaluation → evaluation.isTraced offset = true →
    ∃ before step, evaluation.before? offset = some before ∧
      (options.context pool).execute offset next instruction before = .ok step ∧
      evaluation.after? offset = some step.frame ∧
      (instruction.flow = .sequential → step.successors = [next]) ∧
      (instruction.flow = .conditional → next ∈ step.successors ∨
        ∃ popped, condition instruction.operation before = .ok (some true, popped)) ∧
      (next ∈ step.successors → options.allows next = true → evaluation.isTraced next = true ∧
        evaluation.Leads offset (recordedOffset next) ∧ evaluation.Receives next step.frame)
  /-- The stack is as high at `next` as the instruction leaves it. -/
  counted : ∀ pool heights before, stackHeights code pool = .ok heights →
    heights[offset]?.join = some before → instruction.fallsThrough = true →
    ∃ effect, instruction.stackEffect pool = .ok effect ∧ effect.pops ≤ before ∧
      heights[next]?.join = some (before - effect.pops + effect.pushes)

variable {code : Code} {body : List (Nat × Instruction)} {offset next : Nat}
  {instruction following : Instruction}

/-- A conditional branch may go on with the next instruction, unless its condition is known to
hold. -/
theorem Context.mem_successors_of_conditional {context : Context} {frame : Frame} {step : Step}
    (h : context.execute offset next instruction frame = .ok step)
    (hflow : instruction.flow = .conditional) : next ∈ step.successors ∨
      ∃ popped, condition instruction.operation frame = .ok (some true, popped) := by
  obtain ⟨decision, target, hcondition, -, hsuccessors⟩ := branch_of_execute h hflow
  rw [hsuccessors]
  rcases decision with _ | _ | _
  · exact .inl (mem_branchSuccessors_none target next).2
  · exact .inl (List.mem_singleton.mpr rfl)
  · exact .inr ⟨step.frame, hcondition⟩

/-- **The parts of the library agree where control goes on** behind every instruction that is as long
as it was read, which is where its length says. -/
theorem continuesAt_of_nextOffset {listing : Listing}
    (hlisting : Listing.ofCode code.bytes = .ok listing)
    (hget : listing.get? offset = some instruction) (hnext : listing.nextOffset offset = next) :
    ContinuesAt code offset instruction next := by
  have hlength := hnext ▸ Listing.nextOffset_of_get? hget
  constructor
  · intro evaluation he
    cases hlisting.symm.trans he
    exact hnext
  · intro options pool owner method evaluation hevaluate htraced
    obtain ⟨hclosed, he, -⟩ := closed_of_evaluate hevaluate
    cases hlisting.symm.trans he
    obtain ⟨before, hbefore⟩ := Option.isSome_iff_exists.mp (hclosed.traced offset htraced)
    obtain ⟨found, step, hsettled⟩ := hclosed.settled offset before hbefore
    cases hget.symm.trans hsettled.listed
    have hexecute : (options.context pool).execute offset next instruction before = .ok step :=
      hnext ▸ hsettled.execute
    refine ⟨before, step, hbefore, hexecute, hsettled.after,
      Context.successors_of_sequential hexecute, Context.mem_successors_of_conditional hexecute,
      fun hmem hallowed => ?_⟩
    obtain ⟨hleads, frame, hframe, hcovers⟩ := hsettled.successors next hmem hallowed
    obtain ⟨_, _, hsettled'⟩ := hclosed.settled next frame hframe
    exact ⟨hsettled'.traced, hleads, frame, hframe, hcovers⟩
  · intro pool heights before hheights hbefore hfalls
    obtain ⟨listing', hlisting', hclosed⟩ := heightsClosed_of_stackHeights hheights
    cases hlisting.symm.trans hlisting'
    obtain ⟨found, effect, targets, hfollowed⟩ := hclosed.followed offset before hbefore
    cases hget.symm.trans hfollowed.listed
    exact ⟨effect, hfollowed.affects, hfollowed.pops, hlength ▸ hfollowed.next hfalls⟩

/-- **All that follows the control flow of a body goes on at the next instruction**, exactly if the
instruction has no `wide` marker that its operand does not need. -/
theorem continuesAt_iff (hbody : decodeAll code.bytes = .ok body)
    (hpair : [(offset, instruction), (next, following)] <:+: body) :
    ContinuesAt code offset instruction next ↔
      ∀ first, code.bytes[offset]? = some first → instruction.isOverwide first = false := by
  have hlisting : Listing.ofCode code.bytes = .ok (.ofInstructions code.bytes.length body) := by
    rw [Listing.ofCode, hbody]
    rfl
  have hget : (Listing.ofInstructions code.bytes.length body).get? offset = some instruction :=
    (Listing.get?_eq_some_iff hlisting).mpr (hpair.subset List.mem_cons_self)
  obtain ⟨first, hfirst, hnext⟩ := next_of_decodeAll hbody hpair
  simp only at hfirst hnext
  constructor
  · intro hcontinues byte hbyte
    cases hfirst.symm.trans hbyte
    have hlength := hcontinues.recorded (.blank _) hlisting
    replace hlength := (Listing.nextOffset_of_get? hget).symm.trans hlength
    exact Instruction.surplus_eq_zero_iff.mp (by omega)
  · intro hneeded
    rw [Instruction.surplus_eq_zero_iff.mpr (hneeded first hfirst)] at hnext
    exact continuesAt_of_nextOffset hlisting hget
      ((Listing.nextOffset_of_get? hget).trans hnext.symm)

/-- A load of the variable in some slot behind a `wide` marker, and its return. -/
def markedLoad (upper lower : UInt8) : Code where
  maxStack := 1
  maxLocals := 257
  bytes := [Opcode.wide, Opcode.iload, upper, lower, 0xAC]
  handlers := []
  lines := []
  localRanges := []

/-- Slot 256 needs its marker, and the return is found behind all four bytes. -/
theorem continuesAt_markedLoad :
    decodeAll (markedLoad 1 0).bytes =
        .ok [(0, ⟨Opcode.iload, .slot 256⟩), (4, .simple 0xAC)] ∧
      stackHeights (markedLoad 1 0) ⟨#[]⟩ = .ok #[some 0, none, none, none, some 1] ∧
      ContinuesAt (markedLoad 1 0) 0 ⟨Opcode.iload, .slot 256⟩ 4 := by
  have hbody : decodeAll (markedLoad 1 0).bytes =
      .ok [(0, ⟨Opcode.iload, .slot 256⟩), (4, .simple 0xAC)] := by decide +kernel
  refine ⟨hbody, by decide +kernel, (continuesAt_iff hbody List.infix_rfl).mpr ?_⟩
  intro first hfirst
  cases hfirst
  decide +kernel

/-- Slot 2 does not: the body reads as a load at 0 and a return at 4, but an evaluation and the search
for stack heights look for the return at 2, and both fail. -/
theorem not_continuesAt_markedLoad :
    decodeAll (markedLoad 0 2).bytes =
        .ok [(0, ⟨Opcode.iload, .slot 2⟩), (4, .simple 0xAC)] ∧
      ¬ ContinuesAt (markedLoad 0 2) 0 ⟨Opcode.iload, .slot 2⟩ 4 ∧
      stackHeights (markedLoad 0 2) ⟨#[]⟩ = defect (.invalidFlow 2) ∧
      (evaluate (.precise .none) ⟨#[]⟩ "a/A" ⟨AccessFlags.static, "m", "(III)I", none⟩
        (markedLoad 0 2)).isOk = false := by
  refine ⟨by decide +kernel, ?_, by decide +kernel, by decide +kernel⟩
  intro hcontinues
  obtain ⟨listing, hlisting⟩ := Except.exists_ok (by decide +kernel :
    (Listing.ofCode (markedLoad 0 2).bytes).isOk = true)
  have hlooked : (Listing.ofCode (markedLoad 0 2).bytes).toOption.map (·.nextOffset 0) = some 2 := by
    decide +kernel
  have hnext := hcontinues.recorded (.blank listing) hlisting
  rw [hlisting] at hlooked
  cases (Option.some.inj hlooked).symm.trans hnext

end JvmTrim
