import JvmTrim.Proofs.Reduced

/-!
# Necessity is closed

Marking applies several rules in turn, starts again for fewer live handlers and in the end takes back
some of the loops that it kept. What is left of this in the end are three facts about the necessary
instructions, which say nothing of how they were found: whatever supplies a necessary instruction
with a stack word is necessary, and so is whatever may have written a variable that it reads, as far
as the precise and the simple evaluation know; and a branch that is not necessary leads over no code
that stays.

A word that a `dup` or `swap` gives is traced back to the word that it copies, so that the supply of
an instruction may lie behind a chain of copies.

## Main definitions

* `Subject.Supplies`: the stack words that an instruction is supplied with
* `Subject.BranchesTo`: where branches lead, reduced or not
* `Subject.NecessityClosed`: the three facts

## Main results

* `Subject.necessityClosed_of_mark`: they hold of the marks of every body
-/

namespace JvmTrim

theorem Listing.le_nextOffset (listing : Listing) (offset : Nat) :
    offset ≤ listing.nextOffset offset := by
  unfold nextOffset
  split <;> omega

namespace Subject

variable {subject : Subject} {original reductions : Reductions} {simple : Evaluation}
  {marks : Marks} {offset : Nat}

/-- **The stack words that an instruction is supplied with**: those that it takes off the stack, and
where reachable copies are among them the words that they copy. -/
inductive Supplies (subject : Subject) (reachable : IndexSet) (offset : Nat) : StackWord → Prop where
  | taken {position : Nat} {instruction : Instruction} {stack : Stack} {effect : StackEffect}
      {word : Slot} {origin : Origin}
      (hi : subject.evaluation.instruction? offset = some instruction)
      (hs : subject.evaluation.stackBefore? offset = some stack)
      (he : instruction.stackEffect subject.pool = .ok effect)
      (hp : stack.height ≤ position + effect.pops) (hw : stack.get? position = some word)
      (ho : origin ∈ word.producers.elements) :
      Supplies subject reachable offset ⟨origin, position⟩
  | copied {copy base index source : Nat} {instruction : Instruction} {move : Shuffle}
      {stack : Stack} {word : Slot} {origin : Origin}
      (h : Supplies subject reachable offset ⟨.instruction copy, base + index⟩)
      (hreach : reachable.contains copy = true)
      (hi : subject.evaluation.instruction? copy = some instruction)
      (hm : instruction.shuffle? = some move) (hc : move.copies = true)
      (hs : subject.evaluation.stackBefore? copy = some stack)
      (hbase : stack.height = base + move.pops) (hindex : move.outputs[index]? = some source)
      (hw : stack.get? (base + source) = some word) (ho : origin ∈ word.producers.elements) :
      Supplies subject reachable offset ⟨origin, base + source⟩

theorem sourcePosition_of_copies {copy base index source : Nat} {instruction : Instruction}
    {move : Shuffle} {stack : Stack}
    (hi : subject.evaluation.instruction? copy = some instruction)
    (hm : instruction.shuffle? = some move) (hc : move.copies = true)
    (hs : subject.evaluation.stackBefore? copy = some stack)
    (hbase : stack.height = base + move.pops) (hindex : move.outputs[index]? = some source) :
    subject.sourcePosition copy (base + index) = .ok (some (base + source)) := by
  have hheight : ¬ stack.height < move.pops := by omega
  have hposition : stack.height - move.pops = base := by omega
  have hinside : ¬ base + index < base := by omega
  simp [sourcePosition, Subject.instruction, stackBefore, hi, hm, hc, hs, hheight, hposition,
    hinside, hindex, orDefect, bind, Except.bind, pure, Except.pure]

theorem sourcePosition_of_not_copies {producer position : Nat} {instruction : Instruction}
    (hi : subject.evaluation.instruction? producer = some instruction)
    (hnot : ∀ move, instruction.shuffle? = some move → move.copies = false) :
    subject.sourcePosition producer position = .ok none := by
  unfold sourcePosition
  simp only [Subject.instruction, hi, orDefect, orFail_some, bind, Except.bind]
  split
  · rfl
  · rename_i move hm
    rw [hnot move hm]
    rfl

/-- Where the branch at an offset leads, which may be a branch as it stands, or any instruction that
is reduced to a jump. -/
def BranchesTo (subject : Subject) (reductions : Reductions) (offset target : Nat) : Prop :=
  reductions[offset]? = some (some (.goto target)) ∨ ∃ instruction,
    subject.evaluation.instruction? offset = some instruction ∧
    (instruction.flow = .conditional ∨ instruction.flow = .unconditional ∨
      instruction.flow = .switch) ∧
    subject.evaluation.Leads offset target

/-- **What it means that necessity is closed**, given what the simple evaluation of the reachable code
knows. -/
structure NecessityClosed (subject : Subject) (simple : Evaluation) (marks : Marks)
    (reductions : Reductions) : Prop where
  /-- What supplies a necessary instruction with a stack word, and does not copy it, is necessary. -/
  operands : ∀ offset instruction producer position producing,
    marks.necessary.contains offset = true → subject.Unreduced reductions offset instruction →
    subject.Supplies marks.reachable offset ⟨.instruction producer, position⟩ →
    marks.reachable.contains producer = true →
    subject.evaluation.instruction? producer = some producing →
    (∀ move, producing.shuffle? = some move → move.copies = false) →
    marks.necessary.contains producer = true
  /-- What may have written a variable that a necessary instruction reads is necessary. -/
  writers : ∀ evaluation ∈ [subject.evaluation, simple],
    ∀ offset slot locals found producer, marks.necessary.contains offset = true →
      subject.Reads reductions offset slot → evaluation.localsBefore? offset = some locals →
      locals.load slot = .ok found → .instruction producer ∈ found.producers.elements →
      marks.reachable.contains producer = true → marks.necessary.contains producer = true
  /-- A branch that is not necessary leads over no code that stays, forward or backward. -/
  branches : ∃ live, subject.liveCode marks = .ok live ∧
    ∀ offset target between, marks.reachable.contains offset = true →
      marks.necessary.contains offset = false → subject.BranchesTo reductions offset target →
      (subject.evaluation.nextOffset offset ≤ between → between < target →
        live.contains between = false) ∧
      (target ≤ between → between < offset → live.contains between = false)

namespace Marked

variable (h : subject.Marked original simple marks reductions)

include h

/-- The words that a necessary instruction is supplied with are needed. -/
theorem needed_of_supplies {instruction : Instruction} {word : StackWord}
    (hn : marks.necessary.contains offset = true)
    (hu : subject.Unreduced reductions offset instruction)
    (hs : subject.Supplies marks.reachable offset word) : marks.has (.needed word) = true := by
  induction hs with
  | taken hi hs he hp hw ho =>
    cases hu.listed.symm.trans hi
    exact h.closed (.necessary offset) _ hn (.operand hu hs he (by omega) hw ho)
  | copied _ hreach hi hm hc hs hbase hindex hw ho ih =>
    exact h.closed _ _ ih
      (.source hreach (sourcePosition_of_copies hi hm hc hs hbase hindex) hs hw ho)

/-- Marking has looked at all targets of a branch that is not necessary, but for the next
instruction. -/
theorem mem_straddlingTargets {simplify : SimplifyOptions} {target : Nat} {targets : List Nat}
    (hreduced : subject.ReducedBy simplify original)
    (hn : marks.necessary.contains offset = false)
    (hb : subject.BranchesTo reductions offset target)
    (ht : subject.straddlingTargets reductions offset = .ok targets) :
    target ∈ targets ∨ target = subject.evaluation.nextOffset offset := by
  obtain ⟨reduction?, hat, ht⟩ := Except.bind_eq_ok.mp ht
  rw [Reductions.at, orFail_eq_ok] at hat
  rcases hb with hgoto | ⟨instruction, hi, hflow, hl⟩
  · cases hat.symm.trans hgoto
    cases ht
    exact .inl (List.mem_singleton_self _)
  cases reduction? with
  | none =>
    obtain ⟨set, hset, hmem⟩ := Evaluation.leads_iff.mp hl
    rcases hflow with hflow | hflow | hflow <;>
      simp only [Subject.instruction, hi, orDefect, orFail_some, hflow, hset, bind, Except.bind,
        pure, Except.pure, Except.ok.injEq] at ht <;> exact .inl (ht ▸ hmem)
  | some reduction =>
    have hsame : original[offset]? = some (some reduction) := by
      by_contra hne
      rw [h.changed offset (fun he => hne (he ▸ hat))] at hn
      cases hn
    obtain ⟨instruction', hreduces⟩ := hreduced offset reduction hsame
    cases hi.symm.trans hreduces.listed
    have hnot : ¬ reduction.Pushes := by
      intro hpush
      rw [(hreduces.pushed hpush).1] at hflow
      simp at hflow
    rcases eq_of_reduceBranch? (hreduces.branches hnot).2 hl with ⟨-, hnext⟩ | rfl
    · exact .inr hnext
    · cases ht
      exact .inl (List.mem_singleton_self _)

/-- A branch that is not necessary leads over no live code. -/
theorem dead_of_branchesTo {simplify : SimplifyOptions} {target : Nat} {live : IndexSet}
    (hreduced : subject.ReducedBy simplify original) (hlive : subject.liveCode marks = .ok live)
    (hr : marks.reachable.contains offset = true) (hn : marks.necessary.contains offset = false)
    (hb : subject.BranchesTo reductions offset target) (between : Nat) :
    (subject.evaluation.nextOffset offset ≤ between → between < target →
      live.contains between = false) ∧
    (target ≤ between → between < offset → live.contains between = false) := by
  obtain ⟨live', hlive', hnone, -⟩ := h.straddles
  cases hlive.symm.trans hlive'
  obtain ⟨targets, htargets, hstraddles⟩ := hnone offset hr hn
  have hle : offset ≤ subject.evaluation.nextOffset offset := Listing.le_nextOffset _ _
  rcases h.mem_straddlingTargets hreduced hn hb htargets with hmem | rfl
  · have hnot := hstraddles target hmem
    simp only [Subject.straddles] at hnot
    split at hnot
    · exact ⟨contains_eq_false_of_anyIn hnot, fun _ _ => by omega⟩
    · exact ⟨fun _ _ => by omega, contains_eq_false_of_anyIn hnot⟩
  · exact ⟨fun _ _ => by omega, fun _ _ => by omega⟩

end Marked

variable (subject) in
/-- **Necessity is closed** in every body that can be evaluated and marked. -/
theorem necessityClosed_of_mark {options : EvaluationOptions} {simplify : SimplifyOptions}
    {final : Reductions}
    (hevaluate : evaluate options subject.pool subject.owner subject.method subject.code =
      .ok subject.evaluation)
    (hreductions : JvmTrim.reductions simplify subject.evaluation subject.sideEffects =
      .ok original)
    (hmark : subject.mark original = .ok (marks, final)) :
    ∃ simple, evaluate ⟨subject.assumptions, .simple, some marks.reachable, subject.maxVisits⟩
        subject.pool subject.owner subject.method subject.code = .ok simple ∧
      subject.NecessityClosed simple marks final := by
  obtain ⟨simple, hmarked⟩ := marked_of_mark hmark
  have hreduced : subject.ReducedBy simplify original := fun offset reduction hr =>
    reduced_of_reductions (closed_of_evaluate hevaluate).2.1 hreductions hr
  obtain ⟨live, hlive, -⟩ := hmarked.straddles
  refine ⟨simple, hmarked.evaluated, ?_, ?_, live, hlive, ?_⟩
  · intro offset instruction producer position producing hn hu hs hr hi hnot
    exact hmarked.closed _ (.necessary producer) (hmarked.needed_of_supplies hn hu hs)
      (.producer hr (sourcePosition_of_not_copies hi hnot))
  · intro evaluation hmem offset slot locals found producer hn hreads hl hload ho hr
    rcases List.mem_pair.mp hmem with rfl | rfl
    · exact hmarked.closed (.necessary offset) (.necessary producer) hn
        (.variable hreads hl hload ho hr)
    · exact hmarked.missing offset slot locals found producer hn hreads hl hload ho hr
  · intro offset target between hr hn hb
    exact hmarked.dead_of_branchesTo hreduced hlive hr hn hb between

end Subject

/-- A method that adds a number and its successor, but doubles the number if it is zero. A second
branch leads over nothing. -/
def unevenSum : MethodContext where
  around := ⟨.empty, .standard, .empty⟩
  assumptions := Seeds.empty.assumptions
  owner := "a/B"
  method := ⟨AccessFlags.static, "m", "(I)I", none⟩
  code := ⟨2, 2, [0x1A, 0x59, 0x3C, 0x1A, 0x99, 0, 7, 0x84, 1, 1, 0x00, 0x1A, 0x99, 0, 4, 0x00, 0x1B,
    0x60, 0xAC], [], [], []⟩

/-- The sum needs the number behind its copy and both writers of the variable, and the first branch
stays for the sake of the second writer; the second branch does not. -/
theorem necessityClosed_unevenSum : ∃ decision sideEffects simple,
    unevenSum.decide ⟨#[none]⟩ = .ok decision ∧
      (unevenSum.subject ⟨#[none]⟩ decision.evaluation sideEffects).NecessityClosed simple
        decision.marks decision.reductions ∧
      decision.letters = [(0, '+'), (1, '-'), (2, '+'), (3, '+'), (4, '+'), (7, '+'), (10, '-'),
        (11, '-'), (12, '-'), (15, '-'), (16, '+'), (17, '+'), (18, '+')] := by
  obtain ⟨decision, hdecide, hletters⟩ := Except.exists_ok_of_any
    (by decide +kernel : (unevenSum.decide ⟨#[none]⟩).toOption.any (fun decision =>
      decide (decision.letters = [(0, '+'), (1, '-'), (2, '+'), (3, '+'), (4, '+'), (7, '+'),
        (10, '-'), (11, '-'), (12, '-'), (15, '-'), (16, '+'), (17, '+'), (18, '+')])) = true)
  obtain ⟨sideEffects, original, hevaluate, -, hreductions, hmark⟩ :=
    MethodContext.exists_of_decide hdecide
  obtain ⟨simple, -, hclosed⟩ :=
    Subject.necessityClosed_of_mark (unevenSum.subject ⟨#[none]⟩ decision.evaluation sideEffects)
      hevaluate hreductions hmark
  exact ⟨decision, sideEffects, simple, hdecide, hclosed, of_decide_eq_true hletters⟩

end JvmTrim
