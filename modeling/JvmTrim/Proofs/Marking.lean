import JvmTrim.Proofs.Sets
import JvmTrim.Simplify.Necessity

/-!
# The closure of marks

Marking is a worklist algorithm. `Subject.Follows` says which marks follow from one mark, and a
round of propagation ends with marks that are closed under it. That nothing else is marked is a
principle of induction: what holds of the marks to start with and passes from a mark to those that
follow holds of all of them.

## Main definitions

* `Subject.Follows`: the rules of marking
* `Subject.IsClosed`: marks from which nothing follows that is not set

## Main results

* `Subject.mem_of_follows`, `Subject.follows_of_mem`: a visit finds just the marks that follow
* `Subject.propagate_spec`: propagation ends with the closure
-/

namespace JvmTrim

namespace Marks

theorem mem_require {marks : Marks} {offset : Nat} {mark : Mark} :
    mark ∈ marks.require offset ↔ mark = .necessary offset ∧
      marks.reachable.contains offset = true ∧ marks.necessary.contains offset = false := by
  unfold require
  split
  · rename_i h
    simp_all
  · rename_i h
    simp_all

theorem has_of_require {marks : Marks} {offset : Nat}
    (h : marks.reachable.contains offset = true) :
    .necessary offset ∈ marks.require offset ∨ marks.has (.necessary offset) = true := by
  by_cases hn : marks.necessary.contains offset = true
  · exact .inr hn
  · exact .inl (mem_require.mpr ⟨rfl, h, by simpa using hn⟩)

theorem set_eq_ok {marks marks' : Marks} {mark : Mark} (h : marks.set mark = .ok marks') :
    marks'.reachable = marks.reachable ∧ marks'.liveHandlers = marks.liveHandlers ∧
      ∀ m, marks'.has m = true ↔ m = mark ∨ marks.has m = true := by
  unfold set at h
  cases mark with
  | necessary offset =>
    obtain ⟨set, hs, h⟩ := Except.bind_eq_ok.mp h
    cases h
    refine ⟨rfl, rfl, fun m => ?_⟩
    cases m <;> simp [has, (IndexSet.add_eq_ok hs).2.2]
  | needed word =>
    cases h
    refine ⟨rfl, rfl, fun m => ?_⟩
    cases m <;> simp [has]
  | present word =>
    cases h
    refine ⟨rfl, rfl, fun m => ?_⟩
    cases m <;> simp [has]

end Marks

namespace Subject

/-! ## What follows from a mark -/

/-- Whether the instruction at an offset stays as it is if it is necessary. -/
structure Unreduced (subject : Subject) (reductions : Reductions) (offset : Nat)
    (instruction : Instruction) : Prop where
  listed : subject.evaluation.instruction? offset = some instruction
  reduction : reductions[offset]? = some none
  not_shuffle : instruction.isShuffle = false

/-- Whether the instruction at an offset reads a variable if it is necessary. -/
def Reads (subject : Subject) (reductions : Reductions) (offset : Nat) (slot : UInt16) : Prop :=
  reductions[offset]? = some (some (.alias slot)) ∨ ∃ instruction,
    subject.Unreduced reductions offset instruction ∧ instruction.readSlot? = some slot

/-- **The rules of marking.** Which marks follow from a mark. -/
inductive Follows (subject : Subject) (reductions : Reductions) (reachable : IndexSet) :
    Mark → Mark → Prop where
  /-- An instruction that stays as it is needs the words that it takes. -/
  | operand {offset position : Nat} {instruction : Instruction} {stack : Stack}
      {effect : StackEffect} {word : Slot} {origin : Origin}
      (hu : subject.Unreduced reductions offset instruction)
      (hs : subject.evaluation.stackBefore? offset = some stack)
      (he : instruction.stackEffect subject.pool = .ok effect)
      (hp : stack.height - effect.pops ≤ position) (hw : stack.get? position = some word)
      (ho : origin ∈ word.producers.elements) :
      Follows subject reductions reachable (.necessary offset) (.needed ⟨origin, position⟩)
  /-- An instruction needs whatever may have written the variable that it reads. -/
  | variable {offset producer : Nat} {slot : UInt16} {locals : Locals} {found : Slot}
      (hr : subject.Reads reductions offset slot)
      (hl : subject.evaluation.localsBefore? offset = some locals)
      (hload : locals.load slot = .ok found)
      (ho : .instruction producer ∈ found.producers.elements)
      (hreach : reachable.contains producer = true) :
      Follows subject reductions reachable (.necessary offset) (.necessary producer)
  /-- An object creation needs the call that initializes the object. -/
  | initializer {offset call : Nat} {instruction : Instruction}
      (hu : subject.Unreduced reductions offset instruction)
      (hnew : instruction.operation = .newObject)
      (hc : subject.evaluation.initialization? offset = some call)
      (hreach : reachable.contains call = true) :
      Follows subject reductions reachable (.necessary offset) (.necessary call)
  /-- A needed word is present. -/
  | present (word : StackWord) : Follows subject reductions reachable (.needed word) (.present word)
  /-- A needed copy needs the word that it copies. -/
  | source {offset position source : Nat} {stack : Stack} {word : Slot} {origin : Origin}
      (hreach : reachable.contains offset = true)
      (hsource : subject.sourcePosition offset position = .ok (some source))
      (hs : subject.evaluation.stackBefore? offset = some stack)
      (hw : stack.get? source = some word) (ho : origin ∈ word.producers.elements) :
      Follows subject reductions reachable (.needed ⟨.instruction offset, position⟩)
        (.needed ⟨origin, source⟩)
  /-- What gives any other needed word is necessary. -/
  | producer {offset position : Nat} (hreach : reachable.contains offset = true)
      (hsource : subject.sourcePosition offset position = .ok none) :
      Follows subject reductions reachable (.needed ⟨.instruction offset, position⟩)
        (.necessary offset)
  /-- A word that has a present copy is present. -/
  | copied {offset position source : Nat} {stack : Stack} {word : Slot} {origin : Origin}
      (hreach : reachable.contains offset = true)
      (hsource : subject.sourcePosition offset position = .ok (some source))
      (hs : subject.evaluation.stackBefore? offset = some stack)
      (hw : stack.get? source = some word) (ho : origin ∈ word.producers.elements) :
      Follows subject reductions reachable (.present ⟨.instruction offset, position⟩)
        (.present ⟨origin, source⟩)
  /-- Both halves of a two-word value are present where it is produced. -/
  | partner {offset position partner : Nat} {stack : Stack}
      (hreach : reachable.contains offset = true)
      (hs : subject.evaluation.stackAfter? offset = some stack)
      (hp : stack.partner? position = some partner) :
      Follows subject reductions reachable (.present ⟨.instruction offset, position⟩)
        (.present ⟨.instruction offset, partner⟩)
  /-- Where a present word occurs, all its producers and those of its other half are present. -/
  | occurrence {offset position : Nat} {present : StackWord} {stack : Stack} {word word' : Slot}
      {origin : Origin} (hreach : reachable.contains offset = true)
      (hs : subject.evaluation.stackBefore? offset = some stack)
      (hw : stack.get? present.position = some word)
      (ho : present.origin ∈ word.producers.elements)
      (hp : position = present.position ∨ stack.partner? present.position = some position)
      (hw' : stack.get? position = some word') (ho' : origin ∈ word'.producers.elements) :
      Follows subject reductions reachable (.present present) (.present ⟨origin, position⟩)

variable {subject : Subject} {reductions : Reductions} {marks : Marks} {following : List Mark}
  {mark : Mark}

theorem mem_producers {make : StackWord → Mark} {stack : Stack} {position : Nat} :
    mark ∈ producers make stack position ↔ ∃ word origin, stack.get? position = some word ∧
      origin ∈ word.producers.elements ∧ mark = make ⟨origin, position⟩ := by
  unfold producers
  cases hw : stack.get? position with
  | none => simp
  | some word => simp [eq_comm]

theorem mem_variableProducers {evaluation : Evaluation} {offset : Nat} {slot : UInt16}
    (h : variableProducers marks evaluation offset slot = .ok following) :
    mark ∈ following ↔ ∃ locals found producer, evaluation.localsBefore? offset = some locals ∧
      locals.load slot = .ok found ∧ .instruction producer ∈ found.producers.elements ∧
      mark ∈ marks.require producer := by
  unfold variableProducers at h
  cases hl : evaluation.localsBefore? offset with
  | none =>
    rw [hl] at h
    cases h
    simp
  | some locals =>
    rw [hl] at h
    obtain ⟨found, hload, h⟩ := Except.bind_eq_ok.mp h
    cases h
    have horigin (producer : Nat) (origin : Origin) :
        origin.instruction? = some producer ↔ origin = .instruction producer := by
      cases origin <;> simp [Origin.instruction?]
    simp [OriginSet.instructions, hload, horigin, List.mem_flatMap, List.mem_filterMap]

theorem visitUnreduced_spec {offset : Nat} {instruction : Instruction}
    (hu : subject.Unreduced reductions offset instruction)
    (h : subject.visitUnreduced marks offset instruction = .ok following) :
    (∀ b ∈ following, subject.Follows reductions marks.reachable (.necessary offset) b) ∧
      ∀ b, subject.Follows reductions marks.reachable (.necessary offset) b →
        b ∈ following ∨ marks.has b = true := by
  obtain ⟨stack, hstack, h⟩ := Except.bind_eq_ok.mp h
  obtain ⟨effect, heffect, h⟩ := Except.bind_eq_ok.mp h
  rw [stackBefore, orDefect_eq_ok] at hstack
  dsimp only at h
  split at h
  · cases h
  rename_i hheight
  obtain ⟨reads, hread, rfl⟩ : ∃ reads, (∀ b, b ∈ reads ↔ ∃ slot locals found producer,
      instruction.readSlot? = some slot ∧ subject.evaluation.localsBefore? offset = some locals ∧
        locals.load slot = .ok found ∧ .instruction producer ∈ found.producers.elements ∧
        b ∈ marks.require producer) ∧
      following = (List.range' (stack.height - effect.pops) effect.pops).flatMap
        (producers .needed stack) ++ reads ++ if instruction.operation = .newObject then
          ((subject.evaluation.initialization? offset).map marks.require).getD [] else [] := by
    cases hslot : instruction.readSlot? with
    | none =>
      rw [hslot] at h
      exact ⟨[], by simp, (Except.ok.inj h).symm⟩
    | some slot =>
      rw [hslot] at h
      obtain ⟨reads, hreads, h⟩ := Except.bind_eq_ok.mp h
      refine ⟨reads, fun b => ?_, (Except.ok.inj h).symm⟩
      rw [mem_variableProducers hreads]
      simp
  constructor
  · -- sound
    intro b hb
    simp only [List.mem_append, List.mem_flatMap, List.mem_range', mem_producers] at hb
    rcases hb with (⟨position, ⟨i, hi, rfl⟩, word, origin, hw, ho, rfl⟩ | hb) | hb
    · exact .operand hu hstack heffect (by omega) hw ho
    · obtain ⟨slot, locals, found, producer, hslot, hl, hload, ho, hb⟩ := (hread _).mp hb
      obtain ⟨rfl, hreach, -⟩ := Marks.mem_require.mp hb
      exact .variable (.inr ⟨instruction, hu, hslot⟩) hl hload ho hreach
    · split at hb
      · rename_i hnew
        cases hc : subject.evaluation.initialization? offset with
        | none => simp [hc] at hb
        | some call =>
          simp only [hc, Option.map_some, Option.getD_some] at hb
          obtain ⟨rfl, hreach, -⟩ := Marks.mem_require.mp hb
          exact .initializer hu hnew hc hreach
      · cases hb
  · -- complete
    intro b hb
    simp only [List.mem_append]
    cases hb with
    | operand hu' hs he hp hw ho =>
      cases hstack.symm.trans hs
      cases hu.listed.symm.trans hu'.listed
      cases heffect.symm.trans he
      have hlt := (Array.getElem?_eq_some_iff.mp hw).1
      refine .inl (.inl (.inl (List.mem_flatMap.mpr ⟨_, ?_, mem_producers.mpr ⟨_, _, hw, ho, rfl⟩⟩)))
      simp only [List.mem_range'_1]
      simp only [Stack.height] at *
      omega
    | «variable» hr hl hload ho hreach =>
      rcases hr with hr | ⟨instruction', hu', hslot⟩
      · cases hu.reduction.symm.trans hr
      · cases hu.listed.symm.trans hu'.listed
        refine (Marks.has_of_require hreach).imp_left fun hmem => .inl (.inr ?_)
        exact (hread _).mpr ⟨_, _, _, _, hslot, hl, hload, ho, hmem⟩
    | initializer hu' hnew hc hreach =>
      cases hu.listed.symm.trans hu'.listed
      refine (Marks.has_of_require hreach).imp_left fun hmem => .inr ?_
      rw [if_pos hnew, hc]
      exact hmem

theorem visitNecessary_spec {offset : Nat}
    (h : subject.visitNecessary reductions marks offset = .ok following) :
    (∀ b ∈ following, subject.Follows reductions marks.reachable (.necessary offset) b) ∧
      ∀ b, subject.Follows reductions marks.reachable (.necessary offset) b →
        b ∈ following ∨ marks.has b = true := by
  obtain ⟨instruction, hi, h⟩ := Except.bind_eq_ok.mp h
  obtain ⟨reduction, hr, h⟩ := Except.bind_eq_ok.mp h
  rw [Subject.instruction, orDefect_eq_ok] at hi
  rw [Reductions.at, orFail_eq_ok] at hr
  have hreduced (b : Mark) (hb : subject.Follows reductions marks.reachable (.necessary offset) b) :
      subject.Unreduced reductions offset instruction ∨
        ∃ slot, reductions[offset]? = some (some (.alias slot)) := by
    cases hb with
    | operand hu | initializer hu =>
      cases hi.symm.trans hu.listed
      exact .inl hu
    | «variable» hread =>
      rcases hread with hread | ⟨instruction', hu, -⟩
      · exact .inr ⟨_, hread⟩
      · cases hi.symm.trans hu.listed
        exact .inl hu
  split at h
  · rename_i slot
    constructor
    · intro b hb
      obtain ⟨locals, found, producer, hl, hload, ho, hb⟩ := (mem_variableProducers h).mp hb
      obtain ⟨rfl, hreach, -⟩ := Marks.mem_require.mp hb
      exact .variable (.inl hr) hl hload ho hreach
    · intro b hb
      cases hb with
      | operand hu | initializer hu => cases hr.symm.trans hu.reduction
      | «variable» hread hl hload ho hreach =>
        rcases hread with hread | ⟨_, hu, -⟩
        · cases hr.symm.trans hread
          refine (Marks.has_of_require hreach).imp_left fun hmem => ?_
          exact (mem_variableProducers h).mpr ⟨_, _, _, hl, hload, ho, hmem⟩
        · cases hr.symm.trans hu.reduction
  · rename_i reduction halias
    cases h
    refine ⟨by simp, fun b hb => ?_⟩
    rcases hreduced b hb with hu | ⟨slot, hread⟩
    · cases hr.symm.trans hu.reduction
    · cases hr.symm.trans hread
      exact absurd rfl (halias slot)
  · split at h
    · rename_i hshuffle
      cases h
      refine ⟨by simp, fun b hb => ?_⟩
      rcases hreduced b hb with hu | ⟨slot, hread⟩
      · cases hshuffle.symm.trans hu.not_shuffle
      · cases hr.symm.trans hread
    · rename_i hshuffle
      exact visitUnreduced_spec ⟨hi, hr, by simpa using hshuffle⟩ h

theorem visitNeeded_spec {word : StackWord} (h : subject.visitNeeded marks word = .ok following) :
    (∀ b ∈ following, subject.Follows reductions marks.reachable (.needed word) b) ∧
      ∀ b, subject.Follows reductions marks.reachable (.needed word) b →
        b ∈ following ∨ marks.has b = true := by
  obtain ⟨origin, position⟩ := word
  unfold visitNeeded at h
  cases horigin : origin with
  | entry | handler =>
    rw [horigin] at h
    cases h
    refine ⟨fun b hb => ?_, fun b hb => ?_⟩
    · obtain rfl := List.mem_singleton.mp hb
      exact .present _
    · cases hb
      exact .inl List.mem_cons_self
  | instruction offset =>
    rw [horigin] at h
    dsimp only [Origin.instruction?] at h
    split at h
    · rename_i hreach
      cases h
      refine ⟨fun b hb => ?_, fun b hb => ?_⟩
      · obtain rfl := List.mem_singleton.mp hb
        exact .present _
      · cases hb with
        | present => exact .inl List.mem_cons_self
        | source hreach' | producer hreach' => simp [hreach'] at hreach
    · rename_i hreach
      simp only [Bool.not_eq_true, Bool.not_eq_false'] at hreach
      obtain ⟨source?, hsource, h⟩ := Except.bind_eq_ok.mp h
      cases source? with
      | none =>
        cases h
        refine ⟨fun b hb => ?_, fun b hb => ?_⟩
        · rcases List.mem_cons.mp hb with rfl | hb
          · exact .present _
          · obtain ⟨rfl, -, -⟩ := Marks.mem_require.mp hb
            exact .producer hreach hsource
        · cases hb with
          | present => exact .inl List.mem_cons_self
          | source _ hsource' => cases hsource.symm.trans hsource'
          | producer => exact (Marks.has_of_require hreach).imp_left (List.mem_cons_of_mem _)
      | some source =>
        obtain ⟨stack, hs, h⟩ := Except.bind_eq_ok.mp h
        rw [stackBefore, orDefect_eq_ok] at hs
        cases h
        refine ⟨fun b hb => ?_, fun b hb => .inl ?_⟩
        · rcases List.mem_cons.mp hb with rfl | hb
          · exact .present _
          · obtain ⟨word, origin', hw, ho, rfl⟩ := mem_producers.mp hb
            exact .source hreach hsource hs hw ho
        · cases hb with
          | present => exact List.mem_cons_self
          | source _ hsource' hs' hw ho =>
            cases hsource.symm.trans hsource'
            cases hs.symm.trans hs'
            exact List.mem_cons_of_mem _ (mem_producers.mpr ⟨_, _, hw, ho, rfl⟩)
          | producer _ hsource' => cases hsource.symm.trans hsource'

/-- What a word that is present makes present at its producer. -/
theorem mem_visitProducer {word : StackWord}
    (h : subject.visitProducer marks word = .ok following) :
    mark ∈ following ↔ ∃ offset, word.origin = .instruction offset ∧
      marks.reachable.contains offset = true ∧
      ((∃ source stack slot origin, subject.sourcePosition offset word.position = .ok (some source) ∧
          subject.evaluation.stackBefore? offset = some stack ∧ stack.get? source = some slot ∧
          origin ∈ slot.producers.elements ∧ mark = .present ⟨origin, source⟩) ∨
        ∃ stack partner, subject.evaluation.stackAfter? offset = some stack ∧
          stack.partner? word.position = some partner ∧
          mark = .present ⟨.instruction offset, partner⟩) := by
  obtain ⟨origin, position⟩ := word
  unfold visitProducer at h
  cases horigin : origin with
  | entry | handler =>
    rw [horigin] at h
    cases h
    simp
  | instruction offset =>
    rw [horigin] at h
    dsimp only [Origin.instruction?] at h
    split at h
    · rename_i hreach
      cases h
      simp_all
    · rename_i hreach
      simp only [Bool.not_eq_true, Bool.not_eq_false'] at hreach
      obtain ⟨source?, hsource, h⟩ := Except.bind_eq_ok.mp h
      obtain ⟨copied, hcopied, rfl⟩ : ∃ copied, (∀ m, m ∈ copied ↔ ∃ source stack slot origin,
          source? = some source ∧ subject.evaluation.stackBefore? offset = some stack ∧
          stack.get? source = some slot ∧ origin ∈ slot.producers.elements ∧
          m = .present ⟨origin, source⟩) ∧ following = copied ++
            (((subject.evaluation.stackAfter? offset).bind (·.partner? position)).map
              fun partner => Mark.present ⟨.instruction offset, partner⟩).toList := by
        cases source? with
        | none => exact ⟨[], by simp, (Except.ok.inj h).symm⟩
        | some source =>
          obtain ⟨stack, hs, h⟩ := Except.bind_eq_ok.mp h
          rw [stackBefore, orDefect_eq_ok] at hs
          refine ⟨_, fun m => ?_, (Except.ok.inj h).symm⟩
          rw [mem_producers]
          simp [hs]
      have hpartner : mark ∈ (((subject.evaluation.stackAfter? offset).bind
          (·.partner? position)).map fun partner =>
            Mark.present ⟨.instruction offset, partner⟩).toList ↔
          ∃ stack partner, subject.evaluation.stackAfter? offset = some stack ∧
            stack.partner? position = some partner ∧
            mark = .present ⟨.instruction offset, partner⟩ := by
        simp only [Option.mem_toList, Option.map_eq_some_iff, Option.bind_eq_some_iff]
        constructor
        · rintro ⟨partner, ⟨stack, hs, hp⟩, rfl⟩
          exact ⟨stack, partner, hs, hp, rfl⟩
        · rintro ⟨stack, partner, hs, hp, rfl⟩
          exact ⟨partner, ⟨stack, hs, hp⟩, rfl⟩
      rw [List.mem_append, hcopied, hpartner]
      simp [hreach, hsource]

/-- What a word that is present makes present where it occurs. -/
theorem mem_visitOccurrence {word : StackWord} {offset : Nat}
    (h : subject.visitOccurrence word offset = .ok following) :
    mark ∈ following ↔ ∃ stack position slot origin,
      subject.evaluation.stackBefore? offset = some stack ∧
      (position = word.position ∨ stack.partner? word.position = some position) ∧
      stack.get? position = some slot ∧ origin ∈ slot.producers.elements ∧
      mark = .present ⟨origin, position⟩ := by
  obtain ⟨stack, hs, h⟩ := Except.bind_eq_ok.mp h
  rw [stackBefore, orDefect_eq_ok] at hs
  cases h
  simp [List.mem_flatMap, mem_producers, hs, Option.mem_toList]

theorem mem_occurrences {word : StackWord} {offset : Nat} :
    offset ∈ subject.occurrences marks word ↔
      marks.reachable.contains offset = true ∧ ∃ stack slot,
        subject.evaluation.stackBefore? offset = some stack ∧
        stack.get? word.position = some slot ∧ word.origin ∈ slot.producers.elements := by
  rw [occurrences, List.mem_filter, IndexSet.mem_toList]
  refine and_congr_right fun _ => ?_
  cases hs : subject.evaluation.stackBefore? offset with
  | none => simp
  | some stack =>
    cases hw : stack.get? word.position <;> simp [hw]

theorem visitPresent_spec {word : StackWord}
    (h : subject.visitPresent marks word = .ok following) :
    (∀ b ∈ following, subject.Follows reductions marks.reachable (.present word) b) ∧
      ∀ b, subject.Follows reductions marks.reachable (.present word) b → b ∈ following := by
  obtain ⟨atProducer, hproducer, h⟩ := Except.bind_eq_ok.mp h
  obtain ⟨elsewhere, helsewhere, h⟩ := Except.bind_eq_ok.mp h
  cases h
  have hmapped := mem_of_mapM helsewhere
  constructor
  · intro b hb
    rcases List.mem_append.mp hb with hb | hb
    · obtain ⟨offset, ho, hreach, hb⟩ := (mem_visitProducer hproducer).mp hb
      obtain ⟨origin, position⟩ := word
      obtain rfl : origin = _ := ho
      rcases hb with ⟨source, stack, slot, origin, hsource, hs, hw, ho, rfl⟩ |
        ⟨stack, partner, hs, hp, rfl⟩
      · exact .copied hreach hsource hs hw ho
      · exact .partner hreach hs hp
    · obtain ⟨marked, hmem, hb⟩ := List.mem_flatten.mp hb
      obtain ⟨offset, hoff, hvisit⟩ := hmapped.2 marked hmem
      obtain ⟨hreach, stack, slot, hs, hw, ho⟩ := mem_occurrences.mp hoff
      obtain ⟨stack', position, slot', origin, hs', hp, hw', ho', rfl⟩ :=
        (mem_visitOccurrence hvisit).mp hb
      cases hs.symm.trans hs'
      exact .occurrence hreach hs hw ho hp hw' ho'
  · intro b hb
    rw [List.mem_append]
    cases hb with
    | copied hreach hsource hs hw ho =>
      exact .inl ((mem_visitProducer hproducer).mpr
        ⟨_, rfl, hreach, .inl ⟨_, _, _, _, hsource, hs, hw, ho, rfl⟩⟩)
    | partner hreach hs hp =>
      exact .inl ((mem_visitProducer hproducer).mpr ⟨_, rfl, hreach, .inr ⟨_, _, hs, hp, rfl⟩⟩)
    | occurrence hreach hs hw ho hp hw' ho' =>
      obtain ⟨marked, hmem, hvisit⟩ :=
        hmapped.1 _ (mem_occurrences.mpr ⟨hreach, _, _, hs, hw, ho⟩)
      refine .inr (List.mem_flatten.mpr ⟨marked, hmem, ?_⟩)
      exact (mem_visitOccurrence hvisit).mpr ⟨_, _, _, _, hs, hp, hw', ho', rfl⟩

/-- A visit finds just the marks that follow. -/
theorem visit_spec {a : Mark} (h : subject.visit reductions marks a = .ok following) :
    (∀ b ∈ following, subject.Follows reductions marks.reachable a b) ∧
      ∀ b, subject.Follows reductions marks.reachable a b → b ∈ following ∨ marks.has b = true := by
  cases a with
  | necessary offset => exact visitNecessary_spec h
  | needed word => exact visitNeeded_spec h
  | present word => exact (visitPresent_spec h).imp_right fun hall b hb => .inl (hall b hb)

/-! ## All marks that follow -/

/-- Whether nothing follows from marks that is not set. -/
def IsClosed (subject : Subject) (reductions : Reductions) (marks : Marks) : Prop :=
  ∀ a b, marks.has a = true → subject.Follows reductions marks.reachable a b → marks.has b = true

/-- How marks grow: none is taken back, and all that are new can be traced to marks that were set
before or to one of the marks `start`. -/
structure Grows (subject : Subject) (reductions : Reductions) (start : Mark → Prop)
    (old new : Marks) : Prop where
  reachable : new.reachable = old.reachable
  liveHandlers : new.liveHandlers = old.liveHandlers
  has : ∀ m, old.has m = true → new.has m = true
  induction : ∀ P : Mark → Prop, (∀ m, old.has m = true → P m) → (∀ m, start m → P m) →
    (∀ a b, new.has a = true → P a → subject.Follows reductions new.reachable a b → P b) →
    ∀ m, new.has m = true → P m

theorem mem_or_has_of_dropWhile {marks : Marks} {pending rest : List Mark}
    (h : pending.dropWhile marks.has = rest) {m : Mark} (hm : m ∈ pending) :
    marks.has m = true ∨ m ∈ rest := by
  rw [← List.takeWhile_append_dropWhile (p := marks.has) (l := pending), h] at hm
  rcases List.mem_append.mp hm with hm | hm
  · exact .inl (List.all_eq_true.mp List.all_takeWhile m hm)
  · exact .inr hm

theorem grows_of_dropWhile_eq_nil {pending : List Mark} (h : pending.dropWhile marks.has = [])
    (hclosed : ∀ a b, marks.has a = true → subject.Follows reductions marks.reachable a b →
      marks.has b = true ∨ b ∈ pending) :
    subject.Grows reductions (· ∈ pending) marks marks ∧ (∀ m ∈ pending, marks.has m = true) ∧
      subject.IsClosed reductions marks := by
  have hset (m : Mark) (hm : m ∈ pending) : marks.has m = true :=
    (mem_or_has_of_dropWhile h hm).resolve_right (by simp)
  refine ⟨⟨rfl, rfl, fun _ hm => hm, fun _ hold _ _ => hold⟩, hset, fun a b ha hb => ?_⟩
  exact (hclosed a b ha hb).elim id (hset b)

/-- **Propagation computes the closure.** From marks that are closed but for what is pending, it
leads to closed marks, and it adds nothing but what follows. -/
theorem propagate_spec {bound : Nat} {pending : List Mark} {final : Marks}
    (h : subject.propagate reductions bound pending marks = .ok final)
    (hclosed : ∀ a b, marks.has a = true → subject.Follows reductions marks.reachable a b →
      marks.has b = true ∨ b ∈ pending) :
    subject.Grows reductions (· ∈ pending) marks final ∧ (∀ m ∈ pending, final.has m = true) ∧
      subject.IsClosed reductions final := by
  induction bound generalizing pending marks with
  | zero =>
    rw [propagate] at h
    split at h
    · rename_i hnone
      cases h
      exact grows_of_dropWhile_eq_nil hnone hclosed
    · cases h
  | succ bound ih =>
    rw [propagate] at h
    split at h
    · rename_i hnone
      cases h
      exact grows_of_dropWhile_eq_nil hnone hclosed
    · rename_i mark rest hsome
      obtain ⟨marks', hset, h⟩ := Except.bind_eq_ok.mp h
      obtain ⟨following, hvisit, h⟩ := Except.bind_eq_ok.mp h
      obtain ⟨hreach, hlive, hhas⟩ := Marks.set_eq_ok hset
      obtain ⟨hsound, hcomplete⟩ := visit_spec hvisit
      have hpending {m : Mark} (hm : m ∈ pending) : marks'.has m = true ∨ m ∈ rest := by
        rcases mem_or_has_of_dropWhile hsome hm with hm | hm
        · exact .inl ((hhas m).mpr (.inr hm))
        · exact (List.mem_cons.mp hm).imp_left fun he => (hhas m).mpr (.inl he)
      have hstep : ∀ a b, marks'.has a = true → subject.Follows reductions marks'.reachable a b →
          marks'.has b = true ∨ b ∈ following.reverse ++ rest := by
        intro a b ha hb
        rw [List.mem_append, List.mem_reverse]
        rcases (hhas a).mp ha with rfl | ha
        · exact (hcomplete b hb).elim (fun hm => .inr (.inl hm)) .inl
        · rcases hclosed a b ha (hreach ▸ hb) with hb | hb
          · exact .inl ((hhas b).mpr (.inr hb))
          · exact (hpending hb).imp_right .inr
      obtain ⟨hgrows, hall, hfinal⟩ := ih h hstep
      refine ⟨⟨hgrows.reachable.trans hreach, hgrows.liveHandlers.trans hlive,
        fun m hm => hgrows.has m ((hhas m).mpr (.inr hm)), fun P hold hstart hfollows => ?_⟩,
        fun m hm => ?_, hfinal⟩
      · have hmark : P mark := hstart mark (by
          rw [← List.takeWhile_append_dropWhile (p := marks.has) (l := pending), hsome]
          simp)
        refine hgrows.induction P (fun m hm => ?_) (fun m hm => ?_) hfollows
        · exact ((hhas m).mp hm).elim (fun he => he ▸ hmark) (hold m)
        · rcases List.mem_append.mp hm with hm | hm
          · refine hfollows mark m (hgrows.has mark ((hhas mark).mpr (.inl rfl))) hmark ?_
            rw [hgrows.reachable]
            exact hsound m (List.mem_reverse.mp hm)
          · refine hstart m ?_
            have hmem := List.mem_cons_of_mem mark hm
            rw [← hsome] at hmem
            exact (List.dropWhile_sublist _).subset hmem
      · rcases hpending hm with hm | hm
        · exact hgrows.has m hm
        · exact hall m (List.mem_append.mpr (.inr hm))

end Subject

end JvmTrim
