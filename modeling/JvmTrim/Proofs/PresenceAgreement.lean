import JvmTrim.Proofs.MarkingBounds
import JvmTrim.Proofs.Necessity
import JvmTrim.Proofs.Presence
import JvmTrim.Proofs.WellFormedFrames

/-!
# Presence agrees where control meets

A word of a recorded stack may come from several producers, one for each way that control got there.
Presence is marked producer by producer, but the simplified body has a word or has it not: the marks
of all producers have to agree, those of the halves of a two-word value as well, and a copy can only
be made of a word that is there. Otherwise the stack could not be repaired on the edges.

The marks are closed under the rules of marking once the body is marked, in whatever order they were
set. The rules name words by a producer and a position; that they agree on every recorded stack also
takes that every word of it has a producer, and that the instructions which copy words find them.

## Main definitions

* `Subject.PresenceAgrees`: what it means that presence agrees

## Main results

* `Subject.presenceAgrees_of_mark`: it does, in every body that is evaluated and marked
-/

namespace JvmTrim

namespace Subject

variable {subject : Subject} {options : EvaluationOptions} {original reductions : Reductions}
  {simple : Evaluation} {marks : Marks} {offset : Nat}

/-- **What it means that presence agrees.** -/
structure PresenceAgrees (subject : Subject) (marks : Marks) : Prop where
  /-- Before a reachable instruction a stack is recorded. -/
  recorded : ∀ offset, marks.reachable.contains offset = true →
    ∃ stack, subject.evaluation.stackBefore? offset = some stack
  /-- A word there has producers, and all of them are present or none is. -/
  producers : ∀ offset stack position word, marks.reachable.contains offset = true →
    subject.evaluation.stackBefore? offset = some stack → stack.get? position = some word →
    word.producers.elements ≠ [] ∧
      ((∀ origin ∈ word.producers.elements, marks.isPresent origin position = true) ∨
        ∀ origin ∈ word.producers.elements, marks.isPresent origin position = false)
  /-- A needed word is present. -/
  needed : ∀ word ∈ marks.needed, marks.isPresent word.origin word.position = true
  /-- With a word, the other half of a two-word value is present. -/
  partners : ∀ offset stack position partner, marks.reachable.contains offset = true →
    subject.evaluation.stackBefore? offset = some stack →
    stack.partner? position = some partner →
    marks.wordPresent stack position = true → marks.wordPresent stack partner = true
  /-- A reachable `dup` or `swap` finds the words that it copies, and those of which a copy is
  present are present, for all of their producers. -/
  copies : ∀ offset instruction move, marks.reachable.contains offset = true →
    subject.evaluation.instruction? offset = some instruction →
    instruction.shuffle? = some move → move.copies = true →
    ∃ stack base, subject.evaluation.stackBefore? offset = some stack ∧
      stack.height = base + move.pops ∧
      ∀ (index source : Nat), move.outputs[index]? = some source →
        ∃ word, stack.get? (base + source) = some word ∧
          (marks.isPresent (.instruction offset) (base + index) = true →
            ∀ origin ∈ word.producers.elements, marks.isPresent origin (base + source) = true)

/-- What is recorded before a reachable instruction, and what it makes of it. -/
theorem Marked.exists_settled (h : subject.Marked original simple marks reductions)
    (hevaluate : evaluate options subject.pool subject.owner subject.method subject.code =
      .ok subject.evaluation)
    (hr : marks.reachable.contains offset = true) : ∃ before instruction step,
    subject.evaluation.before? offset = some before ∧
      subject.evaluation.stackBefore? offset = some before.stack ∧
      subject.evaluation.Settled options subject.pool subject.code.handlers offset before
        instruction step := by
  obtain ⟨hclosed, -, -⟩ := closed_of_evaluate hevaluate
  obtain ⟨before, hb⟩ :=
    Option.isSome_iff_exists.mp (hclosed.traced offset (h.reaches.traced offset hr))
  obtain ⟨instruction, step, hsettled⟩ := hclosed.settled offset before hb
  exact ⟨before, instruction, step, hb, by rw [Evaluation.stackBefore?, hb]; rfl, hsettled⟩

/-- Every word of a recorded stack has a producer. -/
theorem producers_ne_nil {stack : Stack} {position : Nat} {word : Slot}
    (hevaluate : evaluate options subject.pool subject.owner subject.method subject.code =
      .ok subject.evaluation)
    (hs : subject.evaluation.stackBefore? offset = some stack)
    (hw : stack.get? position = some word) : word.producers.elements ≠ [] := by
  obtain ⟨before, hb, rfl⟩ := Option.map_eq_some_iff.mp hs
  exact ((wellFormed_before hevaluate hb).words word (Array.mem_of_getElem? hw)).nonempty

variable (subject) in
/-- **Presence agrees** in every body that is evaluated and marked. -/
theorem presenceAgrees_of_mark {final : Reductions}
    (hevaluate : evaluate options subject.pool subject.owner subject.method subject.code =
      .ok subject.evaluation)
    (hmark : subject.mark original = .ok (marks, final)) : subject.PresenceAgrees marks := by
  obtain ⟨simple, hmarked⟩ := marked_of_mark hmark
  refine ⟨fun offset hr => ?_, fun offset stack position word hr hs hw => ?_,
    fun word hneeded => ?_, fun offset stack position partner hr hs hp hpresent => ?_,
    fun offset instruction move hr hi hm hc => ?_⟩
  · obtain ⟨before, -, -, -, hs, -⟩ := hmarked.exists_settled hevaluate hr
    exact ⟨before.stack, hs⟩
  · have hagree (origin : Origin) (ho : origin ∈ word.producers.elements) :
        marks.isPresent origin position = marks.wordPresent stack position :=
      Bool.eq_iff_iff.mpr (hmarked.wordPresent_iff hr hs hw ho).symm
    refine ⟨producers_ne_nil hevaluate hs hw, ?_⟩
    cases hpresent : marks.wordPresent stack position with
    | true => exact .inl fun origin ho => (hagree origin ho).trans hpresent
    | false => exact .inr fun origin ho => (hagree origin ho).trans hpresent
  · exact hmarked.closed (.needed word) (.present word) (List.contains_iff_mem.mpr hneeded)
      (.present word)
  · obtain ⟨word, hw⟩ : ∃ word, stack.get? partner = some word :=
      ⟨_, Array.getElem?_eq_getElem (Stack.lt_height_of_partner? hp)⟩
    exact hmarked.wordPresent_of_partner? hr hs hp hw (producers_ne_nil hevaluate hs hw) hpresent
  · obtain ⟨before, instruction', step, -, hs, hsettled⟩ := hmarked.exists_settled hevaluate hr
    cases hi.symm.trans hsettled.listed
    have hoperation := Instruction.shuffle?_eq_some_iff.mp hm
    obtain ⟨-, copies, hcopies, -⟩ := Context.execute_shuffle hsettled.execute hoperation
    have hle := (Shuffle.copied?_eq_some hcopies).1
    rw [Stack.length_view] at hle
    have hbase : before.stack.height = before.stack.height - move.pops + move.pops := by omega
    refine ⟨before.stack, _, hs, hbase, fun index source hindex => ?_⟩
    obtain ⟨word, hw, -⟩ := Context.get?_execute_shuffle hsettled.execute hoperation hindex
    refine ⟨word, hw, fun hpresent origin ho => ?_⟩
    have hsource := sourcePosition_of_copies hi hm hc hs hbase hindex
    exact hmarked.closed (.present ⟨_, _⟩) (.present ⟨origin, _⟩) hpresent
      (.copied hr hsource hs hw ho)

end Subject

/-- A method that returns one of two `long` values, and copies it before. -/
def chosenLong : MethodContext where
  around := ⟨.empty, .standard, .empty⟩
  assumptions := Seeds.empty.assumptions
  owner := "a/B"
  method := ⟨AccessFlags.static, "m", "(I)J", none⟩
  code := ⟨4, 1, [0x1A, 0x99, 0, 7, 0x09, 0xA7, 0, 4, 0x0A, 0x5C, 0x58, 0xAD], [], [], []⟩

/-- Both values are present in both halves where the paths meet, but only one of the copies is. -/
theorem presenceAgrees_chosenLong : ∃ decision sideEffects,
    chosenLong.decide ⟨#[none]⟩ = .ok decision ∧
      (chosenLong.subject ⟨#[none]⟩ decision.evaluation sideEffects).PresenceAgrees
        decision.marks ∧
      decision.marks.reachable.contains 9 = true ∧
      decision.marks.present = [⟨.instruction 0, 0⟩, ⟨.instruction 9, 0⟩, ⟨.instruction 9, 1⟩,
        ⟨.instruction 4, 0⟩, ⟨.instruction 4, 1⟩, ⟨.instruction 8, 0⟩, ⟨.instruction 8, 1⟩] := by
  obtain ⟨decision, hdecide, hchecks⟩ := Except.exists_ok_of_any
    (by decide +kernel : (chosenLong.decide ⟨#[none]⟩).toOption.any (fun decision =>
      decision.marks.reachable.contains 9 && decide (decision.marks.present =
        [⟨.instruction 0, 0⟩, ⟨.instruction 9, 0⟩, ⟨.instruction 9, 1⟩, ⟨.instruction 4, 0⟩,
          ⟨.instruction 4, 1⟩, ⟨.instruction 8, 0⟩, ⟨.instruction 8, 1⟩])) = true)
  rw [Bool.and_eq_true, decide_eq_true_eq] at hchecks
  obtain ⟨sideEffects, original, hevaluate, -, -, hmark⟩ := MethodContext.exists_of_decide hdecide
  exact ⟨decision, sideEffects, hdecide, Subject.presenceAgrees_of_mark
    (chosenLong.subject ⟨#[none]⟩ decision.evaluation sideEffects) hevaluate hmark, hchecks⟩

end JvmTrim
