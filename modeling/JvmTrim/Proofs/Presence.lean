import JvmTrim.Proofs.Provenance
import JvmTrim.Proofs.Saturation

/-!
# Which stack words are present

Presence is marked for words named by producer and position. Closed marks make it a property of the
position alone: before a reachable instruction a word is present for all of its producers or for
none, the halves of a two-word value go together, and along an edge a word that stays is present on
both sides.

## Main definitions

* `Marks.presentBelow`: how many of the lowest words of a recorded stack are present

## Main results

* `Subject.Marked.wordPresent_iff`: presence, asked of one producer
* `Subject.Presence.presentBelow_of_passes`: presence along an edge
-/

namespace JvmTrim

/-- How many of the lowest `count` words of a recorded stack are present. -/
def Marks.presentBelow (marks : Marks) (stack : Stack) (count : Nat) : Nat :=
  (List.range count).countP (marks.wordPresent stack ·)

theorem Marks.presentBelow_succ (marks : Marks) (stack : Stack) (count : Nat) :
    marks.presentBelow stack (count + 1) =
      marks.presentBelow stack count + if marks.wordPresent stack count then 1 else 0 := by
  simp only [presentBelow, List.range_succ, List.countP_append, List.countP_singleton]

theorem Marks.wordPresent_iff {marks : Marks} {stack : Stack} {position : Nat} {word : Slot}
    (h : stack.get? position = some word) : marks.wordPresent stack position = true ↔
      ∃ origin ∈ word.producers.elements, marks.isPresent origin position = true := by
  simp [wordPresent, h]

theorem Stack.partner?_of_isWide {stack : Stack} {below : Nat} {word : Slot}
    (hw : stack.get? (below + 1) = some word) (hwide : word.value.isWide = true) :
    stack.partner? (below + 1) = some below := by
  simp [partner?, hw, hwide]

theorem Stack.partner?_of_top {stack : Stack} {below : Nat} {lower word : Slot}
    (hlower : stack.get? below = some lower) (htop : lower.value = .top)
    (hw : stack.get? (below + 1) = some word) (hwide : word.value.isWide = true) :
    stack.partner? below = some (below + 1) := by
  simp [partner?, hlower, htop, hw, hwide, show Value.isWide .top = false from rfl]

namespace Subject

namespace Marked

variable {subject : Subject} {original reductions : Reductions} {simple : Evaluation}
  {marks : Marks} {offset position : Nat} {stack : Stack} {word : Slot} {origin : Origin}

/-- **Presence is a property of the position.** Before a reachable instruction all producers of a
word agree. -/
theorem wordPresent_iff (h : subject.Marked original simple marks reductions)
    (hr : marks.reachable.contains offset = true)
    (hs : subject.evaluation.stackBefore? offset = some stack)
    (hw : stack.get? position = some word) (ho : origin ∈ word.producers.elements) :
    marks.wordPresent stack position = true ↔ marks.isPresent origin position = true := by
  rw [Marks.wordPresent_iff hw]
  refine ⟨fun ⟨other, ho', hp⟩ => ?_, fun hp => ⟨origin, ho, hp⟩⟩
  exact h.closed (.present ⟨other, position⟩) (.present ⟨origin, position⟩) hp
    (.occurrence hr hs hw ho' (.inl rfl) hw ho)

/-- The word at a partner of a present position is present, if anything has produced it. -/
theorem wordPresent_of_partner? {partner : Nat}
    (h : subject.Marked original simple marks reductions)
    (hr : marks.reachable.contains offset = true)
    (hs : subject.evaluation.stackBefore? offset = some stack)
    (hp : stack.partner? position = some partner) (hw : stack.get? partner = some word)
    (hproduced : word.producers.elements ≠ [])
    (hpresent : marks.wordPresent stack position = true) :
    marks.wordPresent stack partner = true := by
  obtain ⟨origin', ho'⟩ := List.exists_mem_of_ne_nil _ hproduced
  cases hword : stack.get? position with
  | none => simp [Marks.wordPresent, hword] at hpresent
  | some below =>
    obtain ⟨origin, ho, hpresent⟩ := (Marks.wordPresent_iff hword).mp hpresent
    refine (Marks.wordPresent_iff hw).mpr ⟨origin', ho', ?_⟩
    exact h.closed (.present ⟨origin, position⟩) (.present ⟨origin', partner⟩) hpresent
      (.occurrence hr hs hword ho (.inr hp) hw ho')

end Marked

/-- A body whose evaluation is faithful, with its marks. -/
structure Presence (subject : Subject) (options : EvaluationOptions) (entry : Frame)
    (original : Reductions) (simple : Evaluation) (marks : Marks) (reductions : Reductions) :
    Prop where
  faithful : subject.evaluation.Faithful options subject.pool subject.code entry
  marked : subject.Marked original simple marks reductions

namespace Presence

variable {subject : Subject} {options : EvaluationOptions} {entry : Frame}
  {original reductions : Reductions} {simple : Evaluation} {marks : Marks} {offset : Nat}
  (h : subject.Presence options entry original simple marks reductions)

include h

/-- What is recorded of an instruction that is reached. -/
theorem settled_of_traced (ht : subject.evaluation.isTraced offset = true) :
    ∃ before instruction step, subject.evaluation.before? offset = some before ∧
      subject.evaluation.Settled options subject.pool subject.code.handlers offset before
        instruction step := by
  obtain ⟨before, hb⟩ := Option.isSome_iff_exists.mp (h.faithful.closed.traced offset ht)
  obtain ⟨instruction, step, hsettled⟩ := h.faithful.closed.settled offset before hb
  exact ⟨before, instruction, step, hb, hsettled⟩

theorem settled (hr : marks.reachable.contains offset = true) : ∃ before instruction step,
    subject.evaluation.before? offset = some before ∧
      subject.evaluation.Settled options subject.pool subject.code.handlers offset before
        instruction step :=
  h.settled_of_traced (h.marked.reaches.traced offset hr)

/-- Before a reachable instruction all producers of a word agree. -/
theorem wordPresent_iff {before : Frame} {position : Nat} {word : Slot} {origin : Origin}
    (hr : marks.reachable.contains offset = true)
    (hb : subject.evaluation.before? offset = some before)
    (hw : before.stack.get? position = some word) (ho : origin ∈ word.producers.elements) :
    marks.wordPresent before.stack position = true ↔ marks.isPresent origin position = true := by
  have hs : subject.evaluation.stackBefore? offset = some before.stack := by
    rw [Evaluation.stackBefore?, hb]
    rfl
  exact h.marked.wordPresent_iff hr hs hw ho

/-- The word at a partner of a present position is present. -/
theorem wordPresent_of_partner? {before : Frame} {position partner : Nat}
    (hr : marks.reachable.contains offset = true)
    (hb : subject.evaluation.before? offset = some before)
    (hp : before.stack.partner? position = some partner)
    (hlt : partner < before.stack.height)
    (hpresent : marks.wordPresent before.stack position = true) :
    marks.wordPresent before.stack partner = true := by
  have hs : subject.evaluation.stackBefore? offset = some before.stack := by
    rw [Evaluation.stackBefore?, hb]
    rfl
  obtain ⟨word', hw'⟩ : ∃ word', before.stack.get? partner = some word' :=
    ⟨_, Array.getElem?_eq_getElem hlt⟩
  exact h.marked.wordPresent_of_partner? hr hs hp hw'
    ((h.faithful.accounts hb).produced partner word' hw') hpresent

/-- The halves of a two-word value are present together. -/
theorem wordPresent_of_isWide {before : Frame} {below : Nat} {word : Slot}
    (hr : marks.reachable.contains offset = true)
    (hb : subject.evaluation.before? offset = some before)
    (hw : before.stack.get? (below + 1) = some word) (hwide : word.value.isWide = true) :
    marks.wordPresent before.stack below = marks.wordPresent before.stack (below + 1) := by
  obtain ⟨_, lower, hbelow, hlower, htop⟩ := (h.faithful.accounts hb).paired _ word hw hwide
  cases hbelow
  have hlt : below + 1 < before.stack.height := (Array.getElem?_eq_some_iff.mp hw).1
  refine Bool.eq_iff_iff.mpr ⟨fun hp => ?_, fun hp => ?_⟩
  · exact h.wordPresent_of_partner? hr hb (Stack.partner?_of_top hlower htop hw hwide) hlt hp
  · exact h.wordPresent_of_partner? hr hb (Stack.partner?_of_isWide hw hwide) (by omega) hp

/-- **Presence along an edge.** What is present before a successor is what is present of the words
that stay, and what is present of those that the instruction pushes. -/
theorem presentBelow_of_passes {successor : Nat} {before next : Frame} {effect : StackEffect}
    (hr : marks.reachable.contains offset = true)
    (hr' : marks.reachable.contains successor = true)
    (hb : subject.evaluation.before? offset = some before)
    (hn : subject.evaluation.before? successor = some next)
    (hpasses : Evaluation.Passes offset effect before.stack next.stack) :
    marks.presentBelow next.stack next.stack.height =
      marks.presentBelow before.stack (before.stack.height - effect.pops) +
        (List.range effect.pushes).countP fun k =>
          marks.isPresent (.instruction offset) (before.stack.height - effect.pops + k) := by
  rw [hpasses.height_eq, Marks.presentBelow, List.range_add, List.countP_append, List.countP_map]
  congr 1
  · refine List.countP_congr fun position hlt => ?_
    obtain ⟨word, word', origin, hw, hw', ho, ho'⟩ :=
      hpasses.kept position (List.mem_range.mp hlt)
    rw [h.wordPresent_iff hr hb hw ho, h.wordPresent_iff hr' hn hw' ho']
  · refine List.countP_congr fun k hk => ?_
    have hlt := List.mem_range.mp hk
    obtain ⟨word', hw', ho'⟩ := hpasses.pushed (before.stack.height - effect.pops + k) (by omega)
      (by rw [hpasses.height_eq]; omega)
    exact h.wordPresent_iff hr' hn hw' ho'

/-- What an instruction gives that is no stack manipulation is present as a whole or not at all. -/
theorem countP_isPresent {before : Frame} {instruction : Instruction} {step : Step}
    {effect : StackEffect} (hr : marks.reachable.contains offset = true)
    (hs : subject.evaluation.Settled options subject.pool subject.code.handlers offset before
      instruction step) (hnot : instruction.isShuffle = false)
    (he : instruction.stackEffect subject.pool = .ok effect) :
    ((List.range effect.pushes).countP fun k =>
        marks.isPresent (.instruction offset) (before.stack.height - effect.pops + k)) =
      if marks.isPresent (.instruction offset) (step.frame.stack.height - 1) then effect.pushes
      else 0 := by
  obtain ⟨effect', pushed, heffect, hpushed, hmoves⟩ :=
    Context.execute_moves hs.execute (h.faithful.fits _ _ hs.listed) hnot
  cases he.symm.trans heffect
  have hheight := hmoves.length_eq
  have hlength := hpushed.length_eq
  have hafter : subject.evaluation.stackAfter? offset = some step.frame.stack := by
    rw [Evaluation.stackAfter?, hs.after]
    rfl
  have hpartner {position partner : Nat} (hp : step.frame.stack.partner? position = some partner)
      (hpresent : marks.isPresent (.instruction offset) position = true) :
      marks.isPresent (.instruction offset) partner = true :=
    h.marked.closed (.present ⟨.instruction offset, position⟩)
      (.present ⟨.instruction offset, partner⟩) hpresent (.partner hr hafter hp)
  rcases hpushed with ⟨hpushes, -⟩ | ⟨value, -, hsize, hvalue⟩
  · simp [hpushes]
  · unfold Value.size at hsize
    unfold pushedWords at hvalue
    split at hsize
    · rename_i hwide
      rw [if_pos hwide] at hvalue
      subst hvalue
      simp only [List.length_cons, List.length_nil] at hheight hlength
      have hbase : step.frame.stack.height - 1 = before.stack.height - effect.pops + 1 := by omega
      have hupper := hmoves.get?_pushed (show _ ≤ before.stack.height - effect.pops + 1 by omega)
        (by omega)
      have hlower := hmoves.get?_pushed (show _ ≤ before.stack.height - effect.pops by omega)
        (by omega)
      rw [hbase, Nat.sub_self] at hupper
      rw [hbase, Nat.add_sub_cancel_left] at hlower
      have hboth : marks.isPresent (.instruction offset) (before.stack.height - effect.pops) =
          marks.isPresent (.instruction offset) (before.stack.height - effect.pops + 1) :=
        Bool.eq_iff_iff.mpr ⟨hpartner (Stack.partner?_of_top hlower rfl hupper hwide),
          hpartner (Stack.partner?_of_isWide hupper hwide)⟩
      rw [hbase, ← hsize]
      simp only [List.range_succ, List.range_zero, List.nil_append, List.singleton_append,
        List.countP_cons, List.countP_nil, Nat.add_zero, hboth]
      split <;> rfl
    · rw [show step.frame.stack.height - 1 = before.stack.height - effect.pops by omega, ← hsize]
      simp

/-! ## Marked words are where their producers put them -/

/-- The other half of a word that an instruction pushes is pushed by it too. -/
theorem places_partner {stack : Stack} {position partner : Nat}
    (hr : marks.reachable.contains offset = true)
    (ha : subject.evaluation.stackAfter? offset = some stack)
    (hp : stack.partner? position = some partner)
    (hplaces : subject.evaluation.Places subject.pool position (.instruction offset)) :
    subject.evaluation.Places subject.pool partner (.instruction offset) := by
  obtain ⟨before, instruction, step, hb, hs⟩ := h.settled hr
  obtain ⟨instruction', before', effect, hi, hb', heffect, hge, hlt⟩ := hplaces
  cases hs.listed.symm.trans hi
  cases hb.symm.trans hb'
  rw [Evaluation.stackAfter?, hs.after] at ha
  cases ha
  obtain ⟨effect', pushed, heffect', hlength, -, hmoves⟩ :=
    Context.execute_effect hs.execute (h.faithful.fits _ _ hs.listed)
  cases heffect.symm.trans heffect'
  have hheight := hmoves.length_eq
  refine ⟨instruction, before, effect, hi, hb, heffect, ?_⟩
  unfold Stack.partner? at hp
  split at hp
  · cases hp
  · rename_i word hword
    split at hp
    · rename_i hwide
      obtain ⟨below, lower, rfl, hbelow, -⟩ := Context.paired_pushed hs.execute
        (h.faithful.fits _ _ hs.listed) (h.faithful.accounts hb).paired heffect hge hword hwide
      cases hp
      omega
    · split at hp
      · rename_i hupper
        cases hp
        have hsome : (step.frame.stack.get? (position + 1)).isSome = true := by
          cases hget : step.frame.stack.get? (position + 1) with
          | none => simp [hget] at hupper
          | some upper => rfl
        have hlt' : position + 1 < step.frame.stack.height :=
          (Array.getElem?_eq_some_iff.mp (Option.isSome_iff_exists.mp hsome).choose_spec).1
        omega
      · cases hp

/-- Whether the word of a mark is one that the instruction it names pushes. -/
def Placed (subject : Subject) : Mark → Prop
  | .necessary _ => True
  | .needed word | .present word => ∀ offset, word.origin = .instruction offset →
    subject.evaluation.Places subject.pool word.position (.instruction offset)

theorem placed : ∀ mark, marks.has mark = true → Placed subject mark := by
  have hproducer {offset position : Nat} {stack : Stack} {word : Slot} {origin : Origin}
      (hs : subject.evaluation.stackBefore? offset = some stack)
      (hw : stack.get? position = some word) (ho : origin ∈ word.producers.elements) (o : Nat)
      (he : origin = .instruction o) :
      subject.evaluation.Places subject.pool position (.instruction o) := by
    obtain ⟨before, hb, rfl⟩ := Option.map_eq_some_iff.mp hs
    exact he ▸ (h.faithful.accounts hb).placed position word hw origin ho
  refine h.marked.induction _ (fun mark hstart => ?_) (fun a b _ hplaced hfollows => ?_)
  · cases hstart with
    | exception target =>
      intro o ho
      cases ho
    | _ => trivial
  · cases hfollows with
    | operand hu hs he hp hw ho => exact hproducer hs hw ho
    | «variable» => trivial
    | initializer => trivial
    | present word => exact hplaced
    | source hreach hsource hs hw ho => exact hproducer hs hw ho
    | producer => trivial
    | copied hreach hsource hs hw ho => exact hproducer hs hw ho
    | partner hreach hs hp =>
      intro o ho
      cases ho
      exact h.places_partner hreach hs hp (hplaced _ rfl)
    | occurrence hreach hs hw ho hp hw' ho' => exact hproducer hs hw' ho'

/-- A word of an instruction that is needed makes all that the instruction gives present. -/
theorem isPresent_of_needed {before : Frame} {instruction : Instruction} {step : Step}
    {position : Nat} (hr : marks.reachable.contains offset = true)
    (hb : subject.evaluation.before? offset = some before)
    (hs : subject.evaluation.Settled options subject.pool subject.code.handlers offset before
      instruction step) (hnot : instruction.isShuffle = false)
    (hneeded : marks.has (.needed ⟨.instruction offset, position⟩) = true) :
    marks.isPresent (.instruction offset) (step.frame.stack.height - 1) = true := by
  have hpresent := h.marked.closed _ _ hneeded (.present _)
  obtain ⟨instruction', before', effect, hi, hb', heffect, hge, hlt⟩ :=
    h.placed _ hpresent offset rfl
  cases hs.listed.symm.trans hi
  cases hb.symm.trans hb'
  have hcount := h.countP_isPresent hr hs hnot heffect
  by_contra habsent
  rw [if_neg habsent, List.countP_eq_zero] at hcount
  simp only at hge hlt
  refine hcount (position - (before.stack.height - effect.pops)) (List.mem_range.mpr (by omega)) ?_
  rw [Nat.add_sub_cancel' hge]
  exact hpresent

end Presence

end Subject

end JvmTrim
