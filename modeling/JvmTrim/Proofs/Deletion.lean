import JvmTrim.Proofs.Execution
import JvmTrim.Proofs.Vacancy

/-!
# Deleted code

Where the constants that a body loads fit their loads and no initializer has a known result, the repair
of the body leaves the present words on the stack. Then a path through code of which nothing is left
changes nothing about them.

## Main definitions

* `MethodContext.Repairs`: a decision with the repair that follows from it

## Main results

* `MethodContext.Repairs.presentBefore?_eq`: dead code changes nothing about the present words
-/

namespace JvmTrim

namespace MethodContext

/-- A decision about a method body with the edits that follow from it. -/
structure Repairs (context : MethodContext) (pool pool' : ConstantPool) (decision : Decision)
    (sideEffects : IndexSet) (entry : Frame) (original : Reductions) (simple : Evaluation)
    (repair : RepairState) (live : IndexSet) : Prop
    extends context.Decided pool decision sideEffects entry original simple where
  ignores : context.assumptions.IgnoreInitializers
  appended : pool.Extends pool'
  live : (context.subject pool decision.evaluation sideEffects).liveCode decision.marks = .ok live
  repaired : ∀ offset instruction, decision.evaluation.instruction? offset = some instruction →
    decision.Repaired pool pool' repair offset instruction
  kept : ∀ offset, repair.keptPops.contains offset = true →
    decision.KeepsFor pool decision.evaluation.instructions offset

namespace Repairs

variable {context : MethodContext} {pool pool' : ConstantPool} {decision : Decision}
  {sideEffects : IndexSet} {entry before : Frame} {original : Reductions} {simple : Evaluation}
  {repair : RepairState} {live : IndexSet} {instruction : Instruction} {offset successor : Nat}
  (h : context.Repairs pool pool' decision sideEffects entry original simple repair live)

include h

theorem carried :
    context.Carried pool pool' decision sideEffects entry original simple repair live :=
  ⟨h.ruled, h.live, h.repaired, h.kept⟩

/-- **Dead code changes nothing about the present words.** -/
theorem presentBefore?_eq (hdead : live.contains offset = false)
    (hr : decision.marks.reachable.contains offset = true)
    (hr' : decision.marks.reachable.contains successor = true)
    (hl : decision.evaluation.Leads offset successor) :
    decision.presentBefore? offset = decision.presentBefore? successor := by
  obtain ⟨instruction, before, next, effect, hi, hb, hn, he, hpasses⟩ :=
    h.faithful.passes hl
  have hunkept := h.carried.not_kept_nextOffset hi (h.carried.not_necessary_of_dead hdead)
  have hnothing : decision.emittedFor repair offset instruction = [] := by
    unfold Decision.emittedFor
    simp only [hunkept, Bool.false_eq_true, if_false, List.append_nil]
    split
    · rfl
    · rename_i hkept
      exact h.carried.emitted_eq_nil hi (Bool.eq_false_iff.mpr hkept) hdead
  have hheight := h.heightAfter?_emittedFor h.ignores hr hb hi he (h.repaired _ _ hi) h.kept
  rw [hnothing, ← h.presence.presentBelow_of_passes hr hr' hb hn hpasses] at hheight
  have hsame := Option.some.inj hheight
  simp only [Decision.presentBefore?, hb, hn, Option.map_some, hsame]

end Repairs

end MethodContext

end JvmTrim
